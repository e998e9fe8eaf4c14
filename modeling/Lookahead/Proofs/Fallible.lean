import Mathlib.Tactic

/-!
Computations that can fail, taken apart: a sequence succeeds when each of its parts does, and a
table that is filled cell by cell, where no cell may change its mind, holds in the end what was put
into it.
-/

namespace Lookahead

theorem bind_eq_ok {ε α β : Type} {x : Except ε α} {f : α → Except ε β} {b : β} :
    (x >>= f) = .ok b ↔ ∃ a, x = .ok a ∧ f a = .ok b := by
  cases x <;> simp [bind, Except.bind]

theorem bind_eq_error {ε α β : Type} {x : Except ε α} {f : α → Except ε β} {e : ε} :
    (x >>= f) = .error e ↔ x = .error e ∨ ∃ a, x = .ok a ∧ f a = .error e := by
  cases x <;> simp [bind, Except.bind]

theorem pure_eq_ok {ε α : Type} {a b : α} : (pure a : Except ε α) = .ok b ↔ a = b := by
  simp [pure, Except.pure]

theorem toOption_eq_some {ε α : Type} {x : Except ε α} {a : α} :
    x.toOption = some a ↔ x = .ok a := by
  cases x <;> simp [Except.toOption]

theorem forall₂_of_mapM_eq_ok {ε α β : Type} {f : α → Except ε β} {l : List α} {l' : List β}
    (h : l.mapM f = .ok l') : List.Forall₂ (fun a b => f a = .ok b) l l' := by
  induction l generalizing l' with
  | nil =>
      cases h
      exact .nil
  | cons a l ih =>
      rw [List.mapM_cons, bind_eq_ok] at h
      obtain ⟨b, hfirst, h⟩ := h
      obtain ⟨rest, hrest, h⟩ := bind_eq_ok.mp h
      cases h
      exact .cons hfirst (ih hrest)

theorem exists_mapM_eq_ok {ε α β : Type} {f : α → Except ε β} {l : List α}
    (h : ∀ a ∈ l, ∃ b, f a = .ok b) : ∃ l', l.mapM f = .ok l' := by
  induction l with
  | nil => exact ⟨[], rfl⟩
  | cons a l ih =>
      obtain ⟨b, hb⟩ := h a (by simp)
      obtain ⟨l', hl'⟩ := ih fun a ha => h a (by simp [ha])
      refine ⟨b :: l', ?_⟩
      rw [List.mapM_cons, hb, hl']
      rfl

/-- A list fails with what one of its entries fails with. -/
theorem exists_of_mapM_eq_error {ε α β : Type} {f : α → Except ε β} {l : List α} {e : ε}
    (h : l.mapM f = .error e) : ∃ a ∈ l, f a = .error e := by
  induction l with
  | nil => cases h
  | cons a l ih =>
      rw [List.mapM_cons, bind_eq_error] at h
      rcases h with h | ⟨b, -, h⟩
      · exact ⟨a, by simp, h⟩
      · rcases bind_eq_error.mp h with h | ⟨_, -, h⟩
        · obtain ⟨a', ha', h⟩ := ih h
          exact ⟨a', by simp [ha'], h⟩
        · cases h

theorem forall₂_of_mapM_eq_some {α β : Type} {f : α → Option β} {l : List α} {l' : List β}
    (h : l.mapM f = some l') : List.Forall₂ (fun a b => f a = some b) l l' := by
  induction l generalizing l' with
  | nil =>
      cases h
      exact .nil
  | cons a l ih =>
      rw [List.mapM_cons, Option.bind_eq_bind, Option.bind_eq_some_iff] at h
      obtain ⟨b, hfirst, h⟩ := h
      obtain ⟨rest, hrest, h⟩ := Option.bind_eq_some_iff.mp h
      cases h
      exact .cons hfirst (ih hrest)

theorem length_of_mapM_eq_some {α β : Type} {f : α → Option β} {l : List α} {l' : List β}
    (h : l.mapM f = some l') : l'.length = l.length :=
  (forall₂_of_mapM_eq_some h).length_eq.symm

theorem exists_of_mem_mapM {α β : Type} {f : α → Option β} {l : List α} {l' : List β}
    (h : l.mapM f = some l') {b : β} (hb : b ∈ l') : ∃ a ∈ l, f a = some b := by
  have hall := forall₂_of_mapM_eq_some h
  clear h
  induction hall with
  | nil => cases hb
  | cons hfirst _ ih =>
      rcases List.mem_cons.mp hb with rfl | hb
      · exact ⟨_, by simp, hfirst⟩
      · obtain ⟨a, ha, heq⟩ := ih hb
        exact ⟨a, by simp [ha], heq⟩

theorem mapM_eq_some_map {α β : Type} {f? : α → Option β} {f : α → β} {l : List α}
    (h : ∀ a ∈ l, f? a = some (f a)) : l.mapM f? = some (l.map f) := by
  induction l with
  | nil => rfl
  | cons a l ih =>
      rw [List.mapM_cons, h a (by simp), ih fun b hb => h b (by simp [hb])]
      rfl

theorem isSome_mapM {α β : Type} {f : α → Option β} {l : List α}
    (h : ∀ a ∈ l, (f a).isSome = true) : (l.mapM f).isSome = true := by
  induction l with
  | nil => rfl
  | cons a l ih =>
      obtain ⟨b, hb⟩ := Option.isSome_iff_exists.mp (h a (by simp))
      obtain ⟨l', hl'⟩ := Option.isSome_iff_exists.mp (ih fun a ha => h a (by simp [ha]))
      simp [List.mapM_cons, hb, hl']

/-- A run keeps what each of its steps keeps. -/
theorem holds_of_foldlM_eq_ok {σ α ε : Type} {step : σ → α → Except ε σ} (Holds : σ → Prop) {l : List α}
    (hstep : ∀ s s', ∀ a ∈ l, Holds s → step s a = .ok s' → Holds s') {s s' : σ} (hs : Holds s)
    (h : l.foldlM step s = .ok s') : Holds s' := by
  induction l generalizing s with
  | nil =>
      cases h
      exact hs
  | cons a l ih =>
      rw [List.foldlM_cons, bind_eq_ok] at h
      obtain ⟨s₁, ha, h⟩ := h
      obtain ⟨hfirst, hrest⟩ : (∀ s s', Holds s → step s a = .ok s' → Holds s') ∧
          ∀ s s', ∀ a ∈ l, Holds s → step s a = .ok s' → Holds s' :=
        ⟨fun s s' => hstep s s' a (by simp), fun s s' a ha => hstep s s' a (by simp [ha])⟩
      exact ih hrest (hfirst s s₁ hs ha) h

/-- A sequence fails with its first part, if that fails just when `refused` holds, and else with its
second part, if the value of the first has no say in that. -/
theorem bind_eq_error_of_iff {ε α β : Type} {x : Except ε α} {f : α → Except ε β} {refused : Prop}
    {blame e : ε} {later : Prop} (hx : ∀ e, x = .error e ↔ refused ∧ e = blame)
    (hf : ∀ a, f a = .error e ↔ later) :
    (x >>= f) = .error e ↔ refused ∧ e = blame ∨ ¬refused ∧ later := by
  cases x with
  | error e' =>
      obtain ⟨hrefused, rfl⟩ := (hx e').mp rfl
      simp [bind, Except.bind, hrefused, eq_comm]
  | ok a =>
      have hpasses : ¬refused := fun hrefused => by simpa using (hx blame).mpr ⟨hrefused, rfl⟩
      simp [bind, Except.bind, hpasses, hf]

/-- A run stops at the first entry that a step refuses, where the state has no say in what is refused. -/
theorem foldlM_eq_error_iff {σ α ε : Type} {step : σ → α → Except ε σ} {refused : α → Prop}
    [DecidablePred refused] {blame : α → ε}
    (hstep : ∀ s a e, step s a = .error e ↔ refused a ∧ e = blame a) {l : List α} {s : σ} {e : ε} :
    l.foldlM step s = .error e ↔ ∃ a, l.find? (refused ·) = some a ∧ e = blame a := by
  induction l generalizing s with
  | nil => simp [List.foldlM_nil, pure, Except.pure]
  | cons a l ih =>
      rw [List.foldlM_cons, bind_eq_error_of_iff (hstep s a) fun _ => ih, List.find?_cons]
      by_cases ha : refused a <;> simp [ha]

/-- Two runs over related entries are the same if their steps are, as long as a property holds that every
step keeps. -/
theorem foldlM_eq_of_forall₂ {σ α β ε : Type} {step : σ → α → Except ε σ} {step' : σ → β → Except ε σ}
    {Same : α → β → Prop} (Holds : σ → Prop)
    (hsame : ∀ s a b, Holds s → Same a b → step s a = step' s b)
    (hkeeps : ∀ s a s', Holds s → step s a = .ok s' → Holds s') {l : List α} {l' : List β}
    (h : List.Forall₂ Same l l') {s : σ} (hs : Holds s) : l.foldlM step s = l'.foldlM step' s := by
  induction h generalizing s with
  | nil => rfl
  | cons hfirst _ ih =>
      rw [List.foldlM_cons, List.foldlM_cons, ← hsame s _ _ hs hfirst]
      cases hstep : step s _ with
      | error e => rfl
      | ok s₁ => exact ih (hkeeps s _ s₁ hs hstep)

/-- Filling a cell succeeds only if nothing else stands there, and leaves the other cells alone. -/
def Fills {σ κ ν ε : Type} [DecidableEq κ] (look : σ → κ → Option ν)
    (fill : σ → κ × ν → Except ε σ) : Prop :=
  ∀ s k v s', fill s (k, v) = .ok s' →
    (look s k = none ∨ look s k = some v) ∧
      ∀ x, look s' x = if k = x then some v else look s x

/-- After a run of filling, a cell holds what it held before or what was put there. -/
theorem Fills.look_foldlM {σ κ ν ε : Type} [DecidableEq κ] {look : σ → κ → Option ν}
    {fill : σ → κ × ν → Except ε σ} (hfill : Fills look fill) {l : List (κ × ν)} {s s' : σ}
    (h : l.foldlM fill s = .ok s') (k : κ) (v : ν) :
    look s' k = some v ↔ look s k = some v ∨ (k, v) ∈ l := by
  induction l generalizing s with
  | nil =>
      cases h
      simp
  | cons entry l ih =>
      obtain ⟨k₀, v₀⟩ := entry
      rw [List.foldlM_cons, bind_eq_ok] at h
      obtain ⟨s₁, hfirst, hrest⟩ := h
      obtain ⟨hbefore, hafter⟩ := hfill s k₀ v₀ s₁ hfirst
      rw [ih hrest, hafter, List.mem_cons]
      by_cases hk : k₀ = k
      · subst hk
        rcases hbefore with hbefore | hbefore <;> simp [hbefore, eq_comm]
      · have hne : (k, v) ≠ (k₀, v₀) := by
          rintro ⟨rfl, rfl⟩
          exact hk rfl
        simp [hk, hne]

/-- Filling a cell fails only because of what stands there, and the failure tells both values. -/
def Blames {σ κ ν ε : Type} (look : σ → κ → Option ν) (fill : σ → κ × ν → Except ε σ)
    (blame : κ → ν → ν → ε) : Prop :=
  ∀ s k v e, fill s (k, v) = .error e → ∃ w, look s k = some w ∧ e = blame k w v

/-- A run of filling fails over two values that were put into one cell. -/
theorem Fills.error_foldlM {σ κ ν ε : Type} [DecidableEq κ] {look : σ → κ → Option ν}
    {fill : σ → κ × ν → Except ε σ} {blame : κ → ν → ν → ε} (hfill : Fills look fill)
    (hblames : Blames look fill blame) {l : List (κ × ν)} {s : σ} {e : ε}
    (h : l.foldlM fill s = .error e) :
    ∃ k v w, (k, v) ∈ l ∧ (look s k = some w ∨ (k, w) ∈ l) ∧ e = blame k w v := by
  induction l generalizing s with
  | nil => cases h
  | cons entry l ih =>
      obtain ⟨k₀, v₀⟩ := entry
      rw [List.foldlM_cons, bind_eq_error] at h
      rcases h with h | ⟨s₁, hfirst, hrest⟩
      · obtain ⟨w, hw, rfl⟩ := hblames s k₀ v₀ e h
        exact ⟨k₀, v₀, w, by simp, .inl hw, rfl⟩
      · obtain ⟨k, v, w, hv, hw, rfl⟩ := ih hrest
        refine ⟨k, v, w, by simp [hv], ?_, rfl⟩
        rcases hw with hw | hw
        · rw [(hfill s k₀ v₀ s₁ hfirst).2] at hw
          split at hw
          · next hk =>
              cases hw
              exact .inr (by simp [hk])
          · exact .inl hw
        · exact .inr (by simp [hw])

def Admits {σ κ ν ε : Type} (look : σ → κ → Option ν) (fill : σ → κ × ν → Except ε σ) : Prop :=
  ∀ s k v, look s k = none ∨ look s k = some v → ∃ s', fill s (k, v) = .ok s'

/-- A run of filling succeeds if no cell is to hold two values. -/
theorem Fills.exists_foldlM {σ κ ν ε : Type} [DecidableEq κ] {look : σ → κ → Option ν}
    {fill : σ → κ × ν → Except ε σ} (hfill : Fills look fill) (hadmits : Admits look fill)
    {l : List (κ × ν)} {s : σ}
    (hagree : ∀ k v w, (k, v) ∈ l → (k, w) ∈ l ∨ look s k = some w → v = w) :
    ∃ s', l.foldlM fill s = .ok s' := by
  induction l generalizing s with
  | nil => exact ⟨s, rfl⟩
  | cons entry l ih =>
      obtain ⟨k₀, v₀⟩ := entry
      have hfree : look s k₀ = none ∨ look s k₀ = some v₀ := by
        cases hlook : look s k₀ with
        | none => exact .inl rfl
        | some w => exact .inr (congrArg some (hagree k₀ v₀ w (by simp) (.inr hlook)).symm)
      obtain ⟨s₁, hfirst⟩ := hadmits s k₀ v₀ hfree
      have hafter := (hfill s k₀ v₀ s₁ hfirst).2
      obtain ⟨s', hrest⟩ := @ih s₁ fun k v w hv hw => by
        have hv : (k, v) ∈ (k₀, v₀) :: l := List.mem_cons_of_mem _ hv
        rcases hw with hw | hw
        · exact hagree k v w hv (.inl (List.mem_cons_of_mem _ hw))
        · rw [hafter] at hw
          split at hw
          · next hk =>
              cases hw
              exact hagree k v v₀ hv (.inl (by simp [hk]))
          · exact hagree k v w hv (.inr hw)
      refine ⟨s', ?_⟩
      rw [List.foldlM_cons, hfirst]
      exact hrest

end Lookahead
