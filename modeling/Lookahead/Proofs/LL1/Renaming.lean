import Lookahead.Proofs.LL1.Classification
import Lookahead.Proofs.LL1.Termination
import Lookahead.Proofs.LL1.Trace
import Lookahead.Proofs.Sets.Renaming

/-!
Prediction under other numbers. A renaming takes what is predicted to what is predicted, so it keeps
whether there are conflicts. The predictive machine always halts, and what it accepts are the
sentences, which a renaming keeps too.
-/

namespace Lookahead.LL1

open Machine Grammar

variable {g h : Grammar} {e : Equiv.Perm Nat} {σ : Nat → Equiv.Perm Nat} (r : Renaming e σ g h)
  (hg : g.WellFormed) (hh : h.WellFormed)

include r hg hh

theorem Predicts.map {left t i : Nat} {body : Body} (hpredicts : Predicts g left t i body) :
    Predicts h (e left) (e t) (σ left i) (body.map e) := by
  have hfirst {o : Option Nat} := r.first_body hg hh hpredicts.mem (o := o)
  refine ⟨?_, hpredicts.2.imp hfirst.mpr fun ⟨hnull, ht⟩ => ⟨hfirst.mpr hnull, ?_⟩⟩
  · rw [r.bodies, hpredicts.1]
    rfl
  · exact (r.mem_followers hg hh).mpr ht

theorem PredictsOne.of_renaming (hone : PredictsOne h) : PredictsOne g := by
  intro left t _ _ i j body body' hi hj
  exact (σ left).injective (hone.eq hh (hi.map r hg hh) (hj.map r hg hh))

theorem conflicts_eq_nil_of_renaming
    (hfree : conflicts g g.firstSets (g.followSets g.firstSets) = []) :
    conflicts h h.firstSets (h.followSets h.firstSets) = [] := by
  have hone := predictsOne_of_conflicts_eq_nil hg hfree
  exact conflicts_eq_nil_of_predictsOne hh (hone.of_renaming r.symm hh hg)

section Runs

variable {table table' : Table} (htable : IsTableOf table g) (htable' : IsTableOf table' h)
  (hstart : g.isNonterminal g.start = true)

include htable htable' hstart

/-- What the one machine accepts, the other one accepts. -/
theorem ends_true_of_renaming {tokens : List String}
    (hends : Ends (turn g table) (initial g tokens) true) :
    Ends (turn h table') (initial h tokens) true := by
  have hstart' : h.isNonterminal h.start = true := by
    rw [← r.map_start, r.isNonterminal, hstart]
  rw [initial_eq hstart] at hends
  rw [initial_eq hstart']
  have hsentence : g.IsSentence tokens := isSentence_iff.mpr
    (yields_of_ends hg htable [g.start] tokens (endMark_not_mem_start hg hstart) hends)
  obtain ⟨word, hspells, hyields⟩ := isSentence_iff.mp (r.isSentence hsentence)
  exact ends_of_yields hh hstart' htable' hspells hyields

/-- The machines give the same answer: a rejection is no acceptance of the other machine, since that
would be carried back. -/
theorem ends_of_renaming {tokens : List String} {accepted : Bool}
    (hends : Ends (turn g table) (initial g tokens) accepted) :
    Ends (turn h table') (initial h tokens) accepted := by
  have hstart' : h.isNonterminal h.start = true := by
    rw [← r.map_start, r.isNonterminal, hstart]
  obtain ⟨accepted', hends'⟩ := ends_of_input hh htable' tokens (initial h tokens).stack
  cases accepted with
  | true => exact ends_true_of_renaming r hg hh htable htable' hstart hends
  | false =>
      cases accepted' with
      | true =>
          have hback := ends_true_of_renaming r.symm hh hg htable' htable hstart' hends'
          cases hback.unique hends
      | false => exact hends'

end Runs

end Lookahead.LL1
