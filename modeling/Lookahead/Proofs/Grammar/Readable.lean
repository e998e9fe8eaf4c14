import Lookahead.Proofs.Grammar.LeftRecursion
import Lookahead.Proofs.Reader.Rounds

/-!
The grammars that texts stand for: those that a reader returns, and what removing left recursion
makes of them. All of them are well-formed, and their start symbol is a nonterminal.
-/

namespace Lookahead.Grammar

/-- A grammar that was read from a text, after any number of removals of left recursion. -/
inductive Readable : Grammar → Prop
  | read {form : Format} {text : String} {g : Grammar} (h : Grammar.read form text = .ok g) :
      Readable g
  | withoutLeftRecursion {g : Grammar} (h : Readable g) : Readable g.withoutLeftRecursion

variable {g : Grammar}

/-- Whatever a reader returns is well-formed and starts with a nonterminal. -/
theorem read_wellFormed {form : Format} {text : String} (h : Grammar.read form text = .ok g) :
    g.WellFormed ∧ g.isNonterminal g.start = true := by
  obtain ⟨g₁, i, hwf, hi, rfl⟩ := Reader.read_keeps (Reader.kept_wellFormed _) .empty h
  exact ⟨{ hwf with start_eq := .inr hi }, hi⟩

theorem Readable.wellFormed_start (h : g.Readable) :
    g.WellFormed ∧ g.isNonterminal g.start = true := by
  induction h with
  | read h => exact read_wellFormed h
  | withoutLeftRecursion _ ih => exact ih.1.withoutLeftRecursion ih.2

theorem Readable.wellFormed (h : g.Readable) : g.WellFormed := h.wellFormed_start.1

theorem Readable.isNonterminal_start (h : g.Readable) : g.isNonterminal g.start = true :=
  h.wellFormed_start.2

end Lookahead.Grammar
