import Lookahead.Proofs.Sets.First

/-!
The FIRST sets hold nothing but what the rules bear out. `Begins` says how a string comes to begin
with a terminal or to vanish, step by step, and the sets say of a string exactly that. An induction
on `Begins` goes from a fact to the facts it was found from, which the sets alone do not tell.
-/

namespace Lookahead

namespace Grammar

variable {g : Grammar}

/-- How a string can begin: with a terminal, or for `none` with nothing, since it can vanish. -/
inductive Begins (g : Grammar) : List Nat → Option Nat → Prop
  | nil : Begins g [] none
  | terminal {t : Nat} {rest : List Nat} (isTerminal : g.isTerminal t = true) :
      Begins g (t :: rest) (some t)
  | inside {left t : Nat} {body : Body} {rest : List Nat} (member : body ∈ g.bodies left)
      (inner : Begins g body.visible (some t)) : Begins g (left :: rest) (some t)
  | behind {left : Nat} {body : Body} {rest : List Nat} {o : Option Nat}
      (member : body ∈ g.bodies left) (inner : Begins g body.visible none)
      (following : Begins g rest o) : Begins g (left :: rest) o

namespace Begins

theorem append_some {u : List Nat} {t : Nat} (h : g.Begins u (some t)) (v : List Nat) :
    g.Begins (u ++ v) (some t) := by
  generalize ho : some t = o at h
  induction h with
  | nil => cases ho
  | terminal ht => exact .terminal ht
  | inside hbody hinner _ => exact .inside hbody hinner
  | behind hbody hinner _ _ ih => exact .behind hbody hinner (ih ho)

/-- Behind what can vanish, a string begins as the rest of it does. -/
theorem append_none {u v : List Nat} {o : Option Nat} (h : g.Begins u none) (hv : g.Begins v o) :
    g.Begins (u ++ v) o := by
  generalize ho : (none : Option Nat) = o' at h
  induction h with
  | nil => exact hv
  | terminal => cases ho
  | inside => cases ho
  | behind hbody hinner _ _ ih => exact .behind hbody hinner (ih ho)

theorem of_body {left : Nat} {body : Body} {o : Option Nat} (hbody : body ∈ g.bodies left)
    (h : g.Begins body.visible o) : g.Begins [left] o := by
  cases o with
  | none => exact .behind hbody h .nil
  | some t => exact .inside hbody h

/-- The sets know how a string can begin. -/
theorem first (hg : g.WellFormed) {symbols : List Nat} {o : Option Nat}
    (h : g.Begins symbols o) : (g.firstSets.ofSequence symbols).Has o := by
  induction h with
  | nil => exact FirstSet.has_nothing.mpr rfl
  | terminal ht => exact hg.first_cons_terminal ht
  | inside hbody _ ih =>
      exact first_cons.mpr (.inl ⟨hg.first_left_of_first_body hbody ih, by simp⟩)
  | behind hbody _ _ ihinner ihrest =>
      exact first_cons.mpr (.inr ⟨hg.first_left_of_first_body hbody ihinner, ihrest⟩)

end Begins

end Grammar

namespace FirstTable

open Grammar

variable {g : Grammar} {table : FirstTable}

def Sound (g : Grammar) (table : FirstTable) : Prop :=
  ∀ s o, s < g.size → s ≠ epsilon → (table.ofSymbol s).Has o → g.Begins [s] o

theorem Sound.ofSequence (h : table.Sound g) {symbols : List Nat}
    (hsymbols : ∀ s ∈ symbols, s < g.size ∧ s ≠ epsilon) {o : Option Nat}
    (ho : (table.ofSequence symbols).Has o) : g.Begins symbols o := by
  induction symbols with
  | nil =>
      obtain rfl := FirstSet.has_nothing.mp ho
      exact .nil
  | cons s symbols ih =>
      obtain ⟨hlt, hne⟩ := hsymbols s (by simp)
      rw [ofSequence_cons, FirstSet.has_andThen] at ho
      rcases ho with ⟨ho, hsome⟩ | ⟨hnull, ho⟩
      · obtain ⟨t, rfl⟩ := Option.ne_none_iff_exists'.mp hsome
        exact (h s _ hlt hne ho).append_some symbols
      · exact (h s _ hlt hne hnull).append_none
          (ih (fun r hr => hsymbols r (by simp [hr])) ho)

theorem Grounded.sound_body (hg : g.WellFormed) (hground : table.Grounded g)
    (h : table.Sound g) {left : Nat} {body : Body} (hbody : body ∈ g.bodies left)
    {o : Option Nat} (ho : (table.ofSequence body).Has o) : g.Begins [left] o := by
  refine .of_body hbody (h.ofSequence (fun s hs => ?_) (hground.has_visible.mpr ho))
  exact ⟨((hg.fits hbody).visible s hs).2, (Body.mem_visible.mp hs).2⟩

theorem sound_initialFirst : g.initialFirst.Sound g := by
  intro s o hs hne ho
  rw [ofSymbol_initialFirst hs] at ho
  split at ho
  · next hterm =>
      obtain rfl := FirstSet.has_terminal.mp ho
      exact .terminal hterm
  · exact absurd ho (FirstSet.not_has_none o)

/-- An update says nothing of a nonterminal that its alternatives do not. -/
theorem sound_updateFirst (hg : g.WellFormed) (hground : table.Grounded g) (h : table.Sound g)
    {n : Nonterminal} (hn : n ∈ g.nonterminals) : (updateFirst table n).Sound g := by
  intro s o hs hne ho
  have hlt : n.index < table.size :=
    hground.size_eq ▸ lt_size_of_isNonterminal (hg.isNonterminal_index hn)
  rw [ofSymbol_updateFirst hlt] at ho
  split at ho
  · next hindex =>
      obtain ⟨body, hbody, ho⟩ := has_ofBodies.mp ho
      rw [← hg.bodies_index hn] at hbody
      exact hindex ▸ hground.sound_body hg h hbody ho
  · exact h s o hs hne ho

/-- Sweeping adds only what is borne out. -/
theorem adds_sound (hg : g.WellFormed) :
    Adds (fun table => table.Grounded g ∧ table.Sound g) Says g.sweepFirst := by
  apply Adds.foldl
  intro n hn
  have hadds := adds_updateFirst hg n hn
  constructor
  · rintro table ⟨hground, hsound⟩
    exact ⟨hadds.keeps table hground, sound_updateFirst hg hground hsound hn⟩
  · rintro table fact ⟨hground, -⟩
    exact hadds.grows table fact hground

end FirstTable

namespace Grammar

variable {g : Grammar}

/-- The set of a string says exactly how the string can begin. -/
theorem WellFormed.first_iff_begins (hg : g.WellFormed) {symbols : List Nat}
    (hsymbols : ∀ s ∈ symbols, s < g.size ∧ s ≠ epsilon) {o : Option Nat} :
    (g.firstSets.ofSequence symbols).Has o ↔ g.Begins symbols o := by
  have hsound : g.firstSets.table.Sound g :=
    ((FirstTable.adds_sound hg).settle_keeps g.sweepLimit
      ⟨grounded_initialFirst hg, FirstTable.sound_initialFirst⟩).2
  exact ⟨hsound.ofSequence hsymbols, Begins.first hg⟩

/-- The FIRST set of an alternative tells exactly how it can begin. -/
theorem WellFormed.first_body_iff_begins (hg : g.WellFormed) {left : Nat} {body : Body}
    (hbody : body ∈ g.bodies left) {o : Option Nat} :
    (g.firstSets.ofSequence body).Has o ↔ g.Begins body.visible o := by
  rw [← hg.first_visible, hg.first_iff_begins]
  intro s hs
  exact ⟨((hg.fits hbody).visible s hs).2, (Body.mem_visible.mp hs).2⟩

end Grammar
end Lookahead
