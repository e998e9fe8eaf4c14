/-!
Finite sets kept as strictly ascending lists. Two sets with the same members are equal, so a set can
serve as a key and a sweep over sets is over as soon as it returns what it was given.
-/

namespace Lookahead

open Std

/-- A finite set, listed in ascending order without repetition. -/
structure SortedSet (α : Type) [Ord α] where
  toList : List α
  ascending : toList.Pairwise fun a b => compare a b = .lt
  deriving DecidableEq

namespace SortedSet

variable {α : Type} [Ord α]

instance : Membership α (SortedSet α) := ⟨fun s a => a ∈ s.toList⟩

theorem mem_def {a : α} {s : SortedSet α} : a ∈ s ↔ a ∈ s.toList := Iff.rfl

instance [DecidableEq α] (a : α) (s : SortedSet α) : Decidable (a ∈ s) :=
  inferInstanceAs (Decidable (a ∈ s.toList))

theorem nodup [LawfulEqOrd α] (s : SortedSet α) : s.toList.Nodup := by
  apply s.ascending.imp
  rintro a _ hlt rfl
  simp at hlt

def empty : SortedSet α := ⟨[], .nil⟩

instance : EmptyCollection (SortedSet α) := ⟨empty⟩

instance : Inhabited (SortedSet α) := ⟨∅⟩

theorem not_mem_empty (a : α) : a ∉ (∅ : SortedSet α) := List.not_mem_nil

def singleton (a : α) : SortedSet α := ⟨[a], List.pairwise_singleton _ a⟩

@[simp] theorem mem_singleton {a b : α} : a ∈ singleton b ↔ a = b := List.mem_singleton

def isEmpty (s : SortedSet α) : Bool := s.toList.isEmpty

theorem isEmpty_iff {s : SortedSet α} : s.isEmpty = true ↔ ∀ a, a ∉ s := by
  simp [isEmpty, mem_def, List.eq_nil_iff_forall_not_mem]

def filter (p : α → Bool) (s : SortedSet α) : SortedSet α :=
  ⟨s.toList.filter p, s.ascending.filter p⟩

@[simp] theorem mem_filter {p : α → Bool} {s : SortedSet α} {a : α} :
    a ∈ s.filter p ↔ a ∈ s ∧ p a = true := List.mem_filter

/-- The members of `s` that are in `t` too. -/
def inter [DecidableEq α] (s t : SortedSet α) : SortedSet α := s.filter (· ∈ t)

@[simp] theorem mem_inter [DecidableEq α] {s t : SortedSet α} {a : α} :
    a ∈ s.inter t ↔ a ∈ s ∧ a ∈ t := by
  simp [inter]

/-- Places `a` among the elements of an ascending list and hands what follows it to `rest`. -/
def place (a : α) (rest : List α → List α) : List α → List α
  | [] => a :: rest []
  | b :: t =>
    match compare a b with
    | .lt => a :: rest (b :: t)
    | .eq => a :: rest t
    | .gt => b :: place a rest t

/-- The union of two ascending lists, in one pass. -/
def merge : List α → List α → List α
  | [] => id
  | a :: s => place a (merge s)

private theorem mem_place [LawfulEqOrd α] {a : α} {rest : List α → List α} {s : List α}
    (h : ∀ t x, x ∈ rest t ↔ x ∈ s ∨ x ∈ t) (t : List α) (x : α) :
    x ∈ place a rest t ↔ x ∈ a :: s ∨ x ∈ t := by
  induction t with
  | nil => simp [place, h]
  | cons b t ih =>
    rw [place]
    split <;> rename_i hab
    · grind
    · have := LawfulEqCmp.eq_of_compare hab
      grind
    · grind

theorem mem_merge [LawfulEqOrd α] (s t : List α) (x : α) : x ∈ merge s t ↔ x ∈ s ∨ x ∈ t := by
  induction s generalizing t x with
  | nil => simp [merge]
  | cons a s ih => exact mem_place ih t x

private theorem ascending_place [TransOrd α] [LawfulEqOrd α] {a : α} {s : List α}
    (hs : (a :: s).Pairwise fun a b => compare a b = .lt)
    (h : ∀ t : List α, t.Pairwise (fun a b => compare a b = .lt) →
      (merge s t).Pairwise fun a b => compare a b = .lt)
    (t : List α) (ht : t.Pairwise fun a b => compare a b = .lt) :
    (place a (merge s) t).Pairwise fun a b => compare a b = .lt := by
  have hs' := List.pairwise_cons.mp hs
  induction t with
  | nil =>
    refine List.pairwise_cons.mpr ⟨fun x hx => ?_, h [] .nil⟩
    exact hs'.1 x (by simpa using (mem_merge s [] x).mp hx)
  | cons b t ih =>
    have ht' := List.pairwise_cons.mp ht
    rw [place]
    split <;> rename_i hab
    · refine List.pairwise_cons.mpr ⟨fun x hx => ?_, h _ ht⟩
      rcases (mem_merge s _ x).mp hx with hx | hx
      · exact hs'.1 x hx
      · rcases List.mem_cons.mp hx with rfl | hx
        · exact hab
        · exact TransCmp.lt_trans hab (ht'.1 x hx)
    · have := LawfulEqCmp.eq_of_compare hab
      subst this
      refine List.pairwise_cons.mpr ⟨fun x hx => ?_, h _ ht'.2⟩
      rcases (mem_merge s _ x).mp hx with hx | hx
      · exact hs'.1 x hx
      · exact ht'.1 x hx
    · have hba : compare b a = .lt := OrientedCmp.lt_of_gt hab
      refine List.pairwise_cons.mpr ⟨fun x hx => ?_, ih ht'.2⟩
      rcases (mem_place (mem_merge s) t x).mp hx with hx | hx
      · rcases List.mem_cons.mp hx with rfl | hx
        · exact hba
        · exact TransCmp.lt_trans hba (hs'.1 x hx)
      · exact ht'.1 x hx

theorem ascending_merge [TransOrd α] [LawfulEqOrd α] {s t : List α}
    (hs : s.Pairwise fun a b => compare a b = .lt) (ht : t.Pairwise fun a b => compare a b = .lt) :
    (merge s t).Pairwise fun a b => compare a b = .lt := by
  induction s generalizing t with
  | nil => exact ht
  | cons a s ih =>
    exact ascending_place hs (fun t => ih (List.pairwise_cons.mp hs).2 (t := t)) t ht

section Lawful

variable [TransOrd α] [LawfulEqOrd α]

def union (s t : SortedSet α) : SortedSet α :=
  ⟨merge s.toList t.toList, ascending_merge s.ascending t.ascending⟩

instance : Union (SortedSet α) := ⟨union⟩

@[simp] theorem mem_union {s t : SortedSet α} {a : α} : a ∈ s ∪ t ↔ a ∈ s ∨ a ∈ t :=
  mem_merge s.toList t.toList a

def insert (a : α) (s : SortedSet α) : SortedSet α := singleton a ∪ s

@[simp] theorem mem_insert {a b : α} {s : SortedSet α} : a ∈ s.insert b ↔ a = b ∨ a ∈ s := by
  simp [insert]

def ofList (l : List α) : SortedSet α := l.foldr insert ∅

@[simp] theorem mem_ofList {l : List α} {a : α} : a ∈ ofList l ↔ a ∈ l := by
  induction l with
  | nil => simp [ofList, not_mem_empty]
  | cons b l ih => simpa [ofList] using or_congr_right ih

@[ext] theorem ext {s t : SortedSet α} (h : ∀ a, a ∈ s ↔ a ∈ t) : s = t := by
  obtain ⟨l, hl⟩ := s
  obtain ⟨m, hm⟩ := t
  suffices l = m by subst this; rfl
  replace h : ∀ a, a ∈ l ↔ a ∈ m := h
  have irrefl (a : α) : compare a a ≠ .lt := by simp
  induction l generalizing m with
  | nil =>
    cases m with
    | nil => rfl
    | cons b m => simpa using h b
  | cons a l ih =>
    cases m with
    | nil => simpa using h a
    | cons b m =>
      have hl' := List.pairwise_cons.mp hl
      have hm' := List.pairwise_cons.mp hm
      have hab : a = b := by
        rcases List.mem_cons.mp ((h a).mp (by simp)) with e | ha
        · exact e
        rcases List.mem_cons.mp ((h b).mpr (by simp)) with e | hb
        · exact e.symm
        exact absurd (TransCmp.lt_trans (hm'.1 a ha) (hl'.1 b hb)) (irrefl b)
      subst hab
      refine congrArg (a :: ·) (ih hl'.2 m hm'.2 fun x => ?_)
      have hx := h x
      have := irrefl a
      grind

end Lawful

end SortedSet
end Lookahead
