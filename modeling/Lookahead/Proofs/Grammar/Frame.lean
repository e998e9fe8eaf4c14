import Lookahead.Proofs.Grammar.Readable

/-!
What the removal of left recursion leaves in place, and what it leaves behind. No name comes to stand
for another symbol, and after the step for a nonterminal no alternative of it or of its helper begins
with its own left side. Later steps do not touch these alternatives, so in the end none does.
-/

namespace Lookahead.Grammar

variable {g : Grammar}

/-! Names. -/

/-- A name stands for the same symbol after a step of the removal, since the helper has a name of its
own. -/
theorem index?_removeRecursionOf {earlier : List Nat} {left : Nonterminal} {name : String} {i : Nat}
    (h : g.index? name = some i) : (g.removeRecursionOf earlier left).1.index? name = some i := by
  by_cases htails : recursiveTails left.index (g.expanded earlier left.index) = []
  · simp only [removeRecursionOf_of_nil htails, addBodies_eq, Grammar.clearBodies,
      index?_updateBodies, h]
  · have hne : g.freshName left.name ≠ name := by
      rintro rfl
      rw [index?_freshName] at h
      cases h
    simp only [removeRecursionOf_of_ne_nil htails, addBodies_eq, Grammar.clearBodies,
      index?_updateBodies, index?_addNonterminal, if_neg hne, h]

theorem index?_removeRecursionFrom {earlier : List Nat} {lefts : List Nonterminal} {name : String}
    {i : Nat} (h : g.index? name = some i) :
    (g.removeRecursionFrom earlier lefts).1.index? name = some i := by
  induction lefts generalizing g earlier with
  | nil => exact h
  | cons left lefts ih =>
      rw [removeRecursionFrom_cons]
      exact ih (index?_removeRecursionOf h)

theorem WellFormed.lt_size_of_index? (hg : g.WellFormed) {name : String} {i : Nat}
    (h : g.index? name = some i) : i < g.size := by
  rcases hg.name_of_index h with hname | ⟨-, rfl⟩
  · exact lt_size_of_name? hname
  · exact hg.epsilon_lt_size

/-! Alternatives that begin with their own left side. -/

def NotImmediate (g : Grammar) (left : Nat) : Prop := ∀ body ∈ g.bodies left, body.head? ≠ some left

/-- Putting alternatives in leaves the empty string to itself. -/
theorem WellFormed.epsilon_not_mem_expanded (hg : g.WellFormed) {earlier : List Nat} {left : Nat}
    {body : Body} (hbody : body ∈ g.expanded earlier left) (hne : body ≠ [epsilon]) :
    epsilon ∉ body := by
  rcases mem_expandFirst.mp hbody with ⟨hbody, -⟩ | ⟨_, _, _, -, -, -, rfl⟩
  · rw [← (hg.fits hbody).visible_eq hne]
    exact fun h => (Body.mem_visible.mp h).2 rfl
  · exact fun h => (Body.mem_visible.mp h).2 rfl

theorem head?_normalize_ne {body : Body} {s : Nat} (hs : s ≠ epsilon)
    (h : body.visible.head? ≠ some s) : body.normalize.head? ≠ some s := by
  unfold Body.normalize
  split
  · simpa using hs.symm
  · exact h

variable {earlier : List Nat} {left : Nonterminal}

theorem WellFormed.notImmediate_left (hg : g.WellFormed) (hleft : g.isNonterminal left.index = true) :
    (g.removeRecursionOf earlier left).1.NotImmediate left.index := by
  intro body hbody
  rw [bodies_removeRecursionOf hleft] at hbody
  obtain ⟨inner, hinner, rfl⟩ := List.mem_map.mp hbody
  obtain ⟨hexpanded, hhead⟩ := mem_nonRecursive.mp hinner
  refine head?_normalize_ne (isNonterminal_iff.mp hleft).1 ?_
  have hvisible : inner.visible.head? ≠ some left.index := by
    by_cases hinner : inner = [epsilon]
    · simp [hinner]
    · rwa [Body.visible_of_not_mem (hg.epsilon_not_mem_expanded hexpanded hinner)]
  have hhelper : (Body.visible (g.helper earlier left.index)).head? ≠ some left.index := by
    intro hsome
    have hsize := mem_helper (Body.mem_visible.mp (List.mem_of_head? hsome)).1
    exact (lt_size_of_isNonterminal hleft).ne hsize
  rw [Body.visible_append, Body.visible_visible, List.head?_append]
  intro hsome
  rcases Option.or_eq_some_iff.mp hsome with hsome | ⟨-, hsome⟩
  · exact hvisible hsome
  · exact hhelper hsome

/-- No alternative of the helper begins with the helper: it begins with an older symbol or is the empty
string. -/
theorem WellFormed.notImmediate_helper (hg : g.WellFormed) (hleft : g.isNonterminal left.index = true) :
    (g.removeRecursionOf earlier left).1.NotImmediate g.size := by
  intro body hbody
  rw [bodies_removeRecursionOf_size (lt_size_of_isNonterminal hleft)] at hbody
  split at hbody
  · cases hbody
  obtain ⟨inner, hinner, rfl⟩ := List.mem_map.mp hbody
  refine head?_normalize_ne hg.size_ne_epsilon ?_
  rcases List.mem_append.mp hinner with hinner | hinner
  · -- a tail begins with a symbol that was there before the helper
    obtain ⟨tail, htail, rfl⟩ := List.mem_map.mp hinner
    obtain ⟨hexpanded, hne⟩ := mem_recursiveTails.mp htail
    obtain ⟨s, rest, rfl⟩ := List.exists_cons_of_ne_nil hne
    have hs : s ≠ epsilon := by
      rintro rfl
      exact hg.epsilon_not_mem_expanded hexpanded (by simp) (by simp)
    have hlt := (hg.covers_expanded hexpanded s (by simp) hs).2
    simp only [List.cons_append, Body.visible_cons hs, List.head?_cons, ne_eq, Option.some.injEq]
    exact hlt.ne
  · rw [List.mem_singleton.mp hinner]
    simp

/-- One step leaves the nonterminal at hand and its helper without immediate recursion. -/
theorem WellFormed.notImmediate_removeRecursionOf (hg : g.WellFormed)
    (hleft : g.isNonterminal left.index = true) {i : Nat} (h : i ≠ left.index → g.NotImmediate i) :
    (g.removeRecursionOf earlier left).1.NotImmediate i := by
  by_cases hne : i = left.index
  · exact hne ▸ hg.notImmediate_left hleft
  by_cases hsize : i = g.size
  · exact hsize ▸ hg.notImmediate_helper hleft
  · intro body hbody
    rw [bodies_removeRecursionOf_of_ne hne hsize] at hbody
    exact h hne body hbody

/-- All steps leave every symbol without immediate recursion, if they come to all that have any. -/
theorem WellFormed.notImmediate_removeRecursionFrom (hg : g.WellFormed) {lefts : List Nonterminal}
    (hlefts : ∀ n ∈ lefts, g.isNonterminal n.index = true)
    (h : ∀ i ∉ lefts.map Nonterminal.index, g.NotImmediate i) (i : Nat) :
    (g.removeRecursionFrom earlier lefts).1.NotImmediate i := by
  induction lefts generalizing g earlier with
  | nil => exact h i (by simp)
  | cons left lefts ih =>
      obtain ⟨hleft, hrest⟩ := List.forall_mem_cons.mp hlefts
      rw [removeRecursionFrom_cons]
      have hext := extends_removeRecursionOf (g := g) earlier left
      refine ih (hg.removeRecursionOf earlier left) (fun n hn => ?_) fun i hi => ?_
      · rw [hext.isNonterminal_eq _ (lt_size_of_isNonterminal (hrest n hn))]
        exact hrest n hn
      · exact hg.notImmediate_removeRecursionOf hleft fun hne => h i (by simp [hne, hi])

theorem WellFormed.notImmediate_withoutLeftRecursion (hg : g.WellFormed) (i : Nat) :
    g.withoutLeftRecursion.NotImmediate i := by
  refine hg.notImmediate_removeRecursionFrom (fun n hn => hg.isNonterminal_index hn) ?_ i
  intro i hi body hbody
  obtain ⟨n, hn, hindex, -⟩ := hg.exists_nonterminal (hg.isNonterminal_of_mem_bodies hbody)
  exact absurd (List.mem_map.mpr ⟨n, hn, hindex⟩) hi

/-- The removal of left recursion keeps all symbols in their places and the start symbol. What it adds
are nonterminals whose names are new and different from each other. All alternatives fit the grammar,
and none begins with its own left side. -/
theorem removal_keeps_symbols (hg : g.Readable) :
    g.size ≤ g.withoutLeftRecursion.size ∧
    (∀ i < g.size, g.withoutLeftRecursion.name? i = g.name? i ∧
      g.withoutLeftRecursion.isTerminal i = g.isTerminal i ∧
      g.withoutLeftRecursion.isNonterminal i = g.isNonterminal i) ∧
    (∀ name i, g.index? name = some i → g.withoutLeftRecursion.index? name = some i) ∧
    g.withoutLeftRecursion.start = g.start ∧
    (∀ i, g.size ≤ i → i < g.withoutLeftRecursion.size →
      g.withoutLeftRecursion.isNonterminal i = true ∧
      ∃ name, g.withoutLeftRecursion.name? i = some name ∧ g.index? name = none ∧
        ∀ j, g.withoutLeftRecursion.name? j = some name → j = i) ∧
    ∀ left body, body ∈ g.withoutLeftRecursion.bodies left →
      (body = [epsilon] ∨ body ≠ [] ∧
        ∀ s ∈ body, s ≠ epsilon ∧ s ≠ endMark ∧ s < g.withoutLeftRecursion.size) ∧
      body.head? ≠ some left := by
  have hwf := hg.wellFormed
  have hwf' := (hwf.withoutLeftRecursion hg.isNonterminal_start).1
  have hext : g.Extends g.withoutLeftRecursion := extends_withoutLeftRecursion
  have hindex : ∀ name i, g.index? name = some i → g.withoutLeftRecursion.index? name = some i :=
    fun _ _ => index?_removeRecursionFrom
  refine ⟨hext.size_le, fun i hi => ⟨hext.name?_eq i hi, hext.isTerminal_eq i,
    hext.isNonterminal_eq i hi⟩, hindex, hext.start_eq (isNonterminal_iff.mp hg.isNonterminal_start).1,
    fun i hi hlt => ?_, fun left body hbody => ⟨?_, hwf.notImmediate_withoutLeftRecursion left body hbody⟩⟩
  · have hterminal : ¬ g.withoutLeftRecursion.isTerminal i = true := by
      rw [hext.isTerminal_eq]
      exact fun h => absurd (lt_size_of_isTerminal h) hi.not_gt
    have hne : i ≠ epsilon := fun h => absurd (h ▸ hi) hwf.epsilon_lt_size.not_ge
    refine ⟨(isTerminal_or_isNonterminal hlt hne).resolve_left hterminal, ?_⟩
    obtain ⟨name, hname⟩ : ∃ name, g.withoutLeftRecursion.name? i = some name := by
      rw [name?, Array.getElem?_eq_getElem hlt]
      exact ⟨_, rfl⟩
    have hindex' := hwf'.index_of_name hname
    refine ⟨name, hname, ?_, fun j hj => ?_⟩
    · by_contra hold
      obtain ⟨k, hk⟩ := Option.ne_none_iff_exists'.mp hold
      obtain rfl := Option.some.inj ((hindex name k hk).symm.trans hindex')
      exact absurd (hwf.lt_size_of_index? hk) hi.not_gt
    · exact Option.some.inj ((hwf'.index_of_name hj).symm.trans hindex')
  · refine (hwf'.fits hbody).imp_right fun hfits => ⟨hfits.1, fun s hs => ?_⟩
    obtain ⟨hlt, hsize⟩ := hfits.2 s hs
    exact ⟨ne_epsilon_of_lt hlt, hlt.ne', hsize⟩

/-- A helper gets a second apostrophe where the name with one is taken. -/
theorem helper_avoids_primed_name :
    ∃ g, Grammar.read .spaced "S -> S a | A b | ϵ\nA -> S | A A' | A\nA' -> c | A" = .ok g ∧
      g.isNonterminal 3 = true ∧ g.name? 3 = some "A" ∧ g.name? 4 = some "A'" ∧ g.size = 8 ∧
      g.withoutLeftRecursion.name? 9 = some "A\x27\x27" ∧ g.index? "A\x27\x27" = none ∧
      g.withoutLeftRecursion.isNonterminal 9 = true ∧
      g.withoutLeftRecursion.name? 3 = some "A" ∧
      ∀ body ∈ g.withoutLeftRecursion.bodies 3, body.head? ≠ some 3 := by
  have hread : ((Grammar.read .spaced "S -> S a | A b | ϵ\nA -> S | A A' | A\nA' -> c | A").toOption.map
      fun g => decide (g.isNonterminal 3 = true ∧ g.name? 3 = some "A" ∧ g.name? 4 = some "A'" ∧
        g.size = 8 ∧ g.withoutLeftRecursion.size = 10 ∧
        g.withoutLeftRecursion.name? 9 = some "A\x27\x27")) = some true := by
    decide +kernel
  simp only [Option.map_eq_some_iff, toOption_eq_some, decide_eq_true_eq] at hread
  obtain ⟨g, hg, hkind, hname, hprimed, hsize, hsize', hname'⟩ := hread
  obtain ⟨-, hold, -, -, hadded, hbodies⟩ := removal_keeps_symbols (.read hg)
  obtain ⟨hnew, name, hsome, hfresh, -⟩ := hadded 9 (by omega) (by omega)
  obtain rfl := Option.some.inj (hname'.symm.trans hsome)
  exact ⟨g, hg, hkind, hname, hprimed, hsize, hname', hfresh, hnew,
    (hold 3 (by omega)).1.trans hname, fun body hbody => (hbodies 3 body hbody).2⟩

end Lookahead.Grammar
