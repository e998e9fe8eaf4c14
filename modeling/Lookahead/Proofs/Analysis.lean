import Lookahead.Proofs.LL1.Definition
import Lookahead.Proofs.LL1.Trace
import Lookahead.Proofs.SLR1.Handle
import Lookahead.Proofs.SLR1.Trace

/-!
What an analysis promises. A grammar for which it finds no conflicts, of one kind or the other, is
unambiguous. The machines that it gives the tables for carry out derivations, the one from the left
and the other from the right, and both of them find an error at the first token that no sentence goes
on with.
-/

namespace Lookahead

open Machine Grammar

variable {g : Grammar} {a : Analysis}

/-- Every grammar that was read can be analysed, since its start symbol is a symbol of it. -/
theorem exists_analyze? (hg : g.Readable) : ∃ a, g.analyze? = some a := by
  obtain ⟨name, hbuild⟩ := LR0.exists_build hg
  exact ⟨_, by rw [analyze?, hbuild]; rfl⟩

/-- The sets of an analysis are those of its grammar, and its automaton is built from it. -/
theorem parts_of_analyze? (ha : g.analyze? = some a) :
    a.first = g.firstSets ∧ a.follow = g.followSets g.firstSets ∧
      ∃ name, a.automaton = LR0.build g name := by
  unfold analyze? at ha
  obtain ⟨automaton, hautomaton, ha⟩ := Option.bind_eq_some_iff.mp ha
  obtain ⟨name, -, rfl⟩ := Option.map_eq_some_iff.mp hautomaton
  cases ha
  exact ⟨rfl, rfl, name, rfl⟩

theorem ll1Conflicts_of_analyze? (ha : g.analyze? = some a) :
    a.ll1Conflicts = LL1.conflicts g g.firstSets (g.followSets g.firstSets) := by
  unfold analyze? at ha
  obtain ⟨automaton, -, ha⟩ := Option.bind_eq_some_iff.mp ha
  cases ha
  rfl

theorem ll1Conflicts_eq_nil (ha : g.analyze? = some a) {table : LL1.Table}
    (htable : a.ll1Table = some table) : a.ll1Conflicts = [] := by
  unfold analyze? at ha
  obtain ⟨automaton, -, ha⟩ := Option.bind_eq_some_iff.mp ha
  cases ha
  simp only [Option.ite_none_right_eq_some, List.isEmpty_iff] at htable
  exact htable.1

theorem slr1Conflicts_of_analyze? (hg : g.Readable) (ha : g.analyze? = some a) :
    a.automaton.IsFor g ∧
      a.slr1Conflicts = SLR1.conflicts a.automaton (g.followSets g.firstSets) := by
  unfold analyze? at ha
  obtain ⟨automaton, hautomaton, ha⟩ := Option.bind_eq_some_iff.mp ha
  obtain ⟨name, -, rfl⟩ := Option.map_eq_some_iff.mp hautomaton
  cases ha
  exact ⟨LR0.isFor_build hg.wellFormed hg.isNonterminal_start name, rfl⟩

/-! There are tables exactly if there are no conflicts. -/

/-- An analysis has the predictive table exactly when it reports no conflict. -/
theorem exists_ll1Table_iff (hg : g.Readable) (ha : g.analyze? = some a) :
    (∃ table, a.ll1Table = some table) ↔ a.ll1Conflicts = [] := by
  have hwf := hg.wellFormed
  unfold analyze? at ha
  obtain ⟨automaton, -, ha⟩ := Option.bind_eq_some_iff.mp ha
  cases ha
  simp only [Option.ite_none_right_eq_some, List.isEmpty_iff, exists_and_left, toOption_eq_some,
    and_iff_left_iff_imp]
  intro hfree
  exact (LL1.exists_table_iff hwf).mpr (LL1.predictsOne_of_conflicts_eq_nil hwf hfree)

theorem exists_slr1Table_iff (hg : g.Readable) (ha : g.analyze? = some a) :
    (∃ table, a.slr1Table = some table) ↔ a.slr1Conflicts = [] := by
  have hwf := hg.wellFormed
  have hstart := hg.isNonterminal_start
  unfold analyze? at ha
  obtain ⟨automaton, hautomaton, ha⟩ := Option.bind_eq_some_iff.mp ha
  obtain ⟨name, -, rfl⟩ := Option.map_eq_some_iff.mp hautomaton
  cases ha
  simp only [Option.ite_none_right_eq_some, List.isEmpty_iff, exists_and_left, toOption_eq_some,
    and_iff_left_iff_imp]
  intro hfree
  refine SLR1.exists_tables_iff.mpr fun k s hs => ?_
  have hstate := SLR1.conflicts_eq_nil_iff_conflictFree.mp hfree k s hs
  exact SLR1.decided_of_conflictFree (LR0.isFor_build hwf hstart name)
    (LR0.holds_build hwf hstart name hs) hstate

theorem unambiguous_of_ll1Conflicts (hg : g.Readable) (ha : g.analyze? = some a)
    (h : a.ll1Conflicts = []) : g.Unambiguous := by
  rw [ll1Conflicts_of_analyze? ha] at h
  exact ((LL1.predictsOne_of_conflicts_eq_nil hg.wellFormed h).isLL1 hg.wellFormed).unambiguous

/-- Without conflicts a word has one rightmost derivation, and this tells its leftmost one. -/
theorem unambiguous_of_slr1Conflicts (hg : g.Readable) (ha : g.analyze? = some a)
    (h : a.slr1Conflicts = []) : g.Unambiguous := by
  obtain ⟨hfor, hconflicts⟩ := slr1Conflicts_of_analyze? hg ha
  rw [hconflicts] at h
  intro word hword rewrites rewrites' hleft hleft'
  apply leftmost_unique_of_rightmost hword _ hleft hleft'
  intro r r' hr hr'
  exact SLR1.rightmost_unique hfor h hr hr'

/-- A grammar without conflicts of one kind or the other is unambiguous. -/
theorem unambiguous_of_conflict_free (hg : g.Readable) (ha : g.analyze? = some a)
    (h : a.ll1Conflicts = [] ∨ a.slr1Conflicts = []) : g.Unambiguous := by
  rcases h with h | h
  · exact unambiguous_of_ll1Conflicts hg ha h
  · exact unambiguous_of_slr1Conflicts hg ha h

theorem sum_unambiguous :
    ∃ g a, Grammar.read .spaced "E -> E + T | T\nT -> ( E ) | i" = .ok g ∧ g.analyze? = some a ∧
      a.ll1Conflicts ≠ [] ∧ a.slr1Conflicts = [] ∧ g.Unambiguous := by
  have hread : ((Grammar.read .spaced "E -> E + T | T\nT -> ( E ) | i").toOption.bind fun g =>
      g.analyze?.map fun a => decide (a.ll1Conflicts ≠ [] ∧ a.slr1Conflicts = [])) = some true := by
    decide +kernel
  simp only [Option.bind_eq_some_iff, Option.map_eq_some_iff, toOption_eq_some,
    decide_eq_true_eq] at hread
  obtain ⟨g, hg, a, ha, hconflicts, hfree⟩ := hread
  exact ⟨g, a, hg, ha, hconflicts, hfree,
    unambiguous_of_conflict_free (.read hg) ha (.inr hfree)⟩

/-! Traces and derivations. -/

/-- At every point of a run of the predictive machine, what it has produced turns the start symbol,
from the left, into what it has read followed by its stack, and the productions of an accepted run are
the leftmost derivation of the input. The reductions of an accepted run of the shift-reduce machine
are a rightmost derivation of the input, from its last step to its first. -/
theorem traces_are_derivations (hg : g.Readable) (ha : g.analyze? = some a)
    (tokens : List String) :
    (∀ table limit trace, a.ll1Table = some table →
      LL1.runFor limit g table tokens = .halted trace →
        (∀ k step, trace.steps[k]? = some step →
          ∃ before after word, tokens = before ++ after ∧ step.config.rest = g.input after ∧
            g.Spells before word ∧ g.Leftmost (productions (trace.steps.take k)) [g.start]
              (word ++ step.config.stack)) ∧
        (trace.accepted = true → ∃ word, g.Spells tokens word ∧
          ∀ rewrites, g.Leftmost rewrites [g.start] word ↔ rewrites = productions trace.steps)) ∧
    ∀ table limit trace, a.slr1Table = some table →
      SLR1.runFor limit g table tokens = .halted trace → trace.accepted = true →
        ∃ word, g.Spells tokens word ∧
          g.Rightmost (reductions trace.steps).reverse [g.start] word := by
  have hwf := hg.wellFormed
  have hstart := hg.isNonterminal_start
  constructor
  · intro table limit trace htable hrun
    have hcells := LL1.isTableOf_of_analyze? hwf ha htable
    constructor
    · intro k step hstep
      exact LL1.leftmost_of_start hwf hstart hcells (passes_take_of_run hrun hstep)
    · intro haccepted
      have hunique := unambiguous_of_ll1Conflicts hg ha (ll1Conflicts_eq_nil ha htable)
      obtain ⟨word, hspell, hleft⟩ := LL1.leftmost_of_accepted hwf hstart hcells hrun haccepted
      refine ⟨word, hspell, fun rewrites => ⟨fun h => ?_, fun h => h ▸ hleft⟩⟩
      exact hunique word hspell.isTerminal rewrites _ h hleft
  · intro table limit trace htable hrun haccepted
    obtain ⟨hfor, -, hbuild⟩ := SLR1.isFor_of_analyze? hg ha htable
    exact SLR1.rightmost_of_accepted hfor hbuild hrun haccepted

theorem derives_from_both_ends :
    ∃ g a, Grammar.read .spaced "S -> A B\nA -> a A | ϵ\nB -> b B | c" = .ok g ∧
      g.analyze? = some a ∧
      (∃ word, g.Spells ["a", "b", "c"] word ∧
        ∀ rewrites, g.Leftmost rewrites [g.start] word ↔
          rewrites = [⟨2, 0⟩, ⟨3, 0⟩, ⟨3, 1⟩, ⟨4, 0⟩, ⟨4, 1⟩]) ∧
      ∃ word, g.Spells ["a", "b", "c"] word ∧
        g.Rightmost [⟨2, 0⟩, ⟨4, 0⟩, ⟨4, 1⟩, ⟨3, 0⟩, ⟨3, 1⟩] [g.start] word := by
  have hruns : ((Grammar.read .spaced "S -> A B\nA -> a A | ϵ\nB -> b B | c").toOption.bind
      fun g => g.analyze?.bind fun a => a.ll1Table.bind fun table => a.slr1Table.bind fun table' =>
        (LL1.runFor 9 g table ["a", "b", "c"]).trace?.bind fun trace =>
          (SLR1.runFor 9 g table' ["a", "b", "c"]).trace?.map fun trace' =>
            decide (trace.accepted = true ∧ trace'.accepted = true ∧
              productions trace.steps = [⟨2, 0⟩, ⟨3, 0⟩, ⟨3, 1⟩, ⟨4, 0⟩, ⟨4, 1⟩] ∧
              (reductions trace'.steps).reverse =
                [⟨2, 0⟩, ⟨4, 0⟩, ⟨4, 1⟩, ⟨3, 0⟩, ⟨3, 1⟩])) = some true := by
    decide +kernel
  simp only [Option.bind_eq_some_iff, Option.map_eq_some_iff, toOption_eq_some, trace?_eq_some,
    decide_eq_true_eq] at hruns
  obtain ⟨g, hg, a, ha, table, htable, table', htable', trace, hrun, trace', hrun', haccepted,
    haccepted', hproductions, hreductions⟩ := hruns
  obtain ⟨hleft, hright⟩ := traces_are_derivations (.read hg) ha ["a", "b", "c"]
  refine ⟨g, a, hg, ha, ?_, ?_⟩
  · rw [← hproductions]
    exact (hleft table 9 trace htable hrun).2 haccepted
  · rw [← hreductions]
    exact hright table' 9 trace' htable' hrun' haccepted'

/-! Errors. -/

/-- In a grammar in which every nonterminal derives a word, neither machine reads a token that no
sentence goes on with, and neither rejects before it comes to such a token. -/
theorem errors_are_earliest (hg : g.Readable)
    (hproductive : ∀ s, g.isNonterminal s = true → g.Productive s) (ha : g.analyze? = some a)
    (tokens : List String) :
    (∀ table limit trace, a.ll1Table = some table →
      LL1.runFor limit g table tokens = .halted trace → Viable g tokens trace) ∧
    ∀ table limit trace, a.slr1Table = some table →
      SLR1.runFor limit g table tokens = .halted trace → Viable g tokens trace := by
  have hwf := hg.wellFormed
  have hstart := hg.isNonterminal_start
  constructor
  · intro table limit trace htable hrun
    have hcells := LL1.isTableOf_of_analyze? hwf ha htable
    have haccepts (tokens : List String) (h : g.IsSentence tokens) :
        Ends (LL1.turn g table) ⟨[g.start], g.input tokens⟩ true := by
      obtain ⟨word, hspell, hyield⟩ := isSentence_iff.mp h
      exact LL1.ends_of_yields hwf hstart hcells hspell hyield
    rw [LL1.runFor, LL1.initial_eq hstart] at hrun
    apply Viable.of_run (LL1.oneToken_turn g table) haccepts _ _ hrun
    · intro c accepted hhalt
      simpa using LL1.halt_cases hhalt
    · intro steps c hpasses
      rw [← LL1.initial_eq hstart] at hpasses
      exact LL1.exists_sentence_of_passes hwf hstart hcells hproductive hpasses
  · intro table limit trace htable hrun
    obtain ⟨hfor, -, hbuild⟩ := SLR1.isFor_of_analyze? hg ha htable
    have haccepts (tokens : List String) (h : g.IsSentence tokens) :
        Ends (SLR1.turn g table) ⟨[], g.input tokens⟩ true := by
      obtain ⟨word, hspell, hyield⟩ := isSentence_iff.mp h
      exact SLR1.ends_of_yields hfor hbuild hspell hyield
    apply Viable.of_run (SLR1.oneToken_turn g table) haccepts _ _ hrun
    · intro c accepted hhalt
      exact SLR1.accepted_eq_false_of_reject hhalt
    · intro steps c hpasses
      exact SLR1.exists_sentence_of_passes hfor hbuild hproductive hpasses

/-! On `d` both machines make `A` vanish below, since `d` can follow `A` elsewhere, and then reject it
without having read it. -/

theorem errs_behind_vanishing :
    ∃ g a, Grammar.read .spaced "S -> a A b | c A d\nA -> e | ϵ" = .ok g ∧ g.analyze? = some a ∧
      (∀ s, g.isNonterminal s = true → g.Productive s) ∧
      (∃ table trace, a.ll1Table = some table ∧
        LL1.runFor 4 g table ["a", "d"] = .halted trace ∧ Viable g ["a", "d"] trace) ∧
      (∃ table trace, a.slr1Table = some table ∧
        SLR1.runFor 3 g table ["a", "d"] = .halted trace ∧ Viable g ["a", "d"] trace) ∧
      g.EarliestError ["a"] ["d"] := by
  have hruns : ((Grammar.read .spaced "S -> a A b | c A d\nA -> e | ϵ").toOption.bind
      fun g => g.analyze?.bind fun a => a.ll1Table.bind fun table => a.slr1Table.bind fun table' =>
        (LL1.runFor 4 g table ["a", "d"]).trace?.bind fun trace =>
          (SLR1.runFor 3 g table' ["a", "d"]).trace?.bind fun trace' =>
            trace'.steps.getLast?.map fun step =>
              decide (step.move = .reject ∧ step.config.rest.length = 2 ∧
                (List.range g.size).filter g.isNonterminal = [2, 3] ∧
                [4, 3, 5] ∈ g.bodies 2 ∧ [epsilon] ∈ g.bodies 3 ∧
                g.isTerminal 4 = true ∧ g.isTerminal 5 = true)) = some true := by
    decide +kernel
  simp only [Option.bind_eq_some_iff, Option.map_eq_some_iff, toOption_eq_some, trace?_eq_some,
    decide_eq_true_eq] at hruns
  obtain ⟨g, hg, a, ha, table, htable, table', htable', trace, hrun, trace', hrun', step, hlast,
    hmove, hlength, hnonterminals, hbody, hempty, ha4, hb5⟩ := hruns
  have hproductive : ∀ s, g.isNonterminal s = true → g.Productive s := by
    intro s hs
    have hvanish : g.Yields [3] [] := .nonterminal hempty .nil .nil
    have hbetween : g.Yields [4, 3, 5] [4, 5] :=
      .terminal ha4 (hvanish.append (.terminal hb5 .nil))
    rcases List.mem_pair.mp (mem_of_isNonterminal hnonterminals hs) with rfl | rfl
    · exact ⟨[4, 5], .nonterminal hbody hbetween .nil⟩
    · exact ⟨[], hvanish⟩
  obtain ⟨hll1, hslr1⟩ := errors_are_earliest (.read hg) hproductive ha ["a", "d"]
  have hviable := hslr1 table' 3 trace' htable' hrun'
  obtain ⟨before, after, htokens, hrest, herror⟩ := hviable.errs step hlast hmove
  rw [hrest, length_input] at hlength
  have hafter : ["d"].length = after.length := by
    simp only [List.length_singleton]
    omega
  obtain ⟨rfl, rfl⟩ : ["a"] = before ∧ ["d"] = after := List.append_inj' htokens hafter
  exact ⟨g, a, hg, ha, hproductive, ⟨table, trace, htable, hrun, hll1 table 4 trace htable hrun⟩,
    ⟨table', trace', htable', hrun', hviable⟩, herror⟩

end Lookahead
