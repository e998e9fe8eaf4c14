import Lookahead.Proofs.Grammar.Readable

/-!
The names of a grammar that was read are words. The readers cut them out of the text at its blanks, and
what the removal of left recursion adds to a name are apostrophes.
-/

namespace Lookahead.Grammar

open Text (IsWord)

variable {g : Grammar}

def Worded (g : Grammar) : Prop := ∀ i name, g.name? i = some name → IsWord name.toList

theorem isWord_primes {name : String} (h : IsWord name.toList) (k : Nat) :
    IsWord (primes name k).toList := by
  induction k with
  | zero => exact h
  | succ k ih =>
      rw [primes, Function.iterate_succ_apply', ← primes, String.toList_push]
      refine ⟨by simp, fun c hc => ?_⟩
      rcases List.mem_append.mp hc with hc | hc
      · exact ih.2 c hc
      · rw [List.mem_singleton.mp hc]
        decide

namespace Worded

theorem empty : (∅ : Grammar).Worded := by
  intro i name hname
  obtain ⟨s, hs, rfl⟩ := Option.map_eq_some_iff.mp hname
  rcases symbols_empty hs with ⟨-, rfl⟩ | ⟨-, rfl⟩
  · simp [Symbol.name, epsilonName, IsWord, Text.isBlank]
  · simp [Symbol.name, endMarkName, IsWord, Text.isBlank]

theorem addNonterminal (h : g.Worded) {name : String} (hname : IsWord name.toList) :
    (g.addNonterminal name).Worded := by
  intro i other hother
  rw [name?_addNonterminal] at hother
  split at hother
  · exact Option.some.inj hother ▸ hname
  · exact h i other hother

theorem addTerminal (h : g.Worded) {name : String} (hname : IsWord name.toList) :
    (g.addTerminal name).Worded := by
  intro i other hother
  rw [name?_addTerminal] at hother
  split at hother
  · exact Option.some.inj hother ▸ hname
  · exact h i other hother

theorem updateBodies (h : g.Worded) (left : Nat) (f : List Body → List Body) :
    (g.updateBodies left f).Worded := by
  intro i name hname
  rw [name?_updateBodies] at hname
  exact h i name hname

theorem addBodies (h : g.Worded) (left : Nat) (bodies : List Body) : (g.addBodies left bodies).Worded := by
  rw [addBodies_eq]
  exact h.updateBodies left _

/-- The helper has the name of a left side with apostrophes behind it, which is a word again. -/
theorem removeRecursionOf (h : g.Worded) (earlier : List Nat) {left : Nonterminal}
    (hleft : IsWord left.name.toList) : (g.removeRecursionOf earlier left).1.Worded := by
  by_cases htails : recursiveTails left.index (g.expanded earlier left.index) = []
  · rw [removeRecursionOf_of_nil htails]
    exact (h.updateBodies _ _).addBodies _ _
  · obtain ⟨k, hfresh, -⟩ := g.exists_freshName left.name
    rw [removeRecursionOf_of_ne_nil htails, hfresh]
    exact (((h.updateBodies _ _).addNonterminal (isWord_primes hleft k)).addBodies _ _).addBodies _ _

theorem removeRecursionFrom (h : g.Worded) (earlier : List Nat) {lefts : List Nonterminal}
    (hlefts : ∀ n ∈ lefts, IsWord n.name.toList) : (g.removeRecursionFrom earlier lefts).1.Worded := by
  induction lefts generalizing g earlier with
  | nil => exact h
  | cons left lefts ih =>
      obtain ⟨hleft, hrest⟩ := List.forall_mem_cons.mp hlefts
      rw [removeRecursionFrom_cons]
      exact ih (h.removeRecursionOf earlier hleft) _ hrest

theorem of_mem_nonterminals (h : g.Worded) (hg : g.WellFormed) {n : Nonterminal}
    (hn : n ∈ g.nonterminals) : IsWord n.name.toList :=
  h n.index n.name (by rw [name?, (hg.mem_nonterminals.mp hn).2]; rfl)

end Worded

/-- Both rounds of a reader add nothing but words. -/
theorem kept_worded : Reader.Kept Reader.IsName fun g => g.WellFormed ∧ g.Worded where
  wellFormed h := h.1
  addNonterminal h hfresh hname := ⟨h.1.addNonterminal hfresh, h.2.addNonterminal hname⟩
  addTerminal h hfresh hname := ⟨h.1.addTerminal hfresh, h.2.addTerminal hname⟩
  addBody left h hbody := ⟨h.1.addBody hbody, h.2.updateBodies left _⟩

/-- Whatever is read, and whatever the removal of left recursion makes of it, has words for names. -/
theorem Readable.worded (h : g.Readable) : g.Worded := by
  induction h with
  | read h =>
      obtain ⟨g₁, i, ⟨-, hworded⟩, -, rfl⟩ := Reader.read_keeps kept_worded ⟨.empty, .empty⟩ h
      exact hworded
  | withoutLeftRecursion h ih =>
      exact ih.removeRecursionFrom [] fun n hn => ih.of_mem_nonterminals h.wellFormed hn

end Lookahead.Grammar
