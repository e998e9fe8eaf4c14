import Lookahead.Proofs.Analysis
import Lookahead.Proofs.LL1.Renaming
import Lookahead.Proofs.SLR1.Renaming

/-!
The order of the rules does not matter. It decides which numbers the symbols get and in which order
sweeps and searches find what they find, but two grammars that differ by a renaming have the same
sets, the same conflicts, equally many states and the same runs.
-/

namespace Lookahead

open Machine Grammar

variable {g h : Grammar} {a b : Analysis} {e : Equiv.Perm Nat} {τ : Nat → Equiv.Perm Nat}

/-! The sets, with the renaming given for the symbols only. -/

section Sets

variable {f : Nat → Nat} (r : Renaming e τ g h) (he : ∀ s < g.size, e s = f s)
  (hg : g.WellFormed) (hh : h.WellFormed) {s : Nat} (hs : s < g.size)

include r he hg hh hs

theorem first_of_renaming :
    h.firstSets.ofSymbol (f s) = (g.firstSets.ofSymbol s).image f := by
  have hterminals : ∀ t ∈ (g.firstSets.ofSymbol s).terminals, e t = f t := fun t ht =>
    he t (lt_size_of_isTerminal ((grounded_firstSets hg).isTerminal_of_has hs ht))
  rw [← he s hs, r.first_symbol hg hh hs, FirstSet.image, FirstSet.image,
    SortedSet.image_congr hterminals]

theorem follow_of_renaming : h.followers (f s) = (g.followers s).image f := by
  have hterminals : ∀ t ∈ g.followers s, e t = f t := fun t ht =>
    he t (lt_size_of_isTerminal (hg.isTerminal_of_mem_followers ht))
  rw [← he s hs, r.followers_symbol hg hh, SortedSet.image_congr hterminals]

end Sets

section Analyses

variable (r : Renaming e τ g h) (hg : g.Readable) (hh : h.Readable) (ha : g.analyze? = some a)
  (hb : h.analyze? = some b)

include r hg hh ha hb

theorem ll1Conflicts_of_renaming (hfree : a.ll1Conflicts = []) : b.ll1Conflicts = [] := by
  rw [ll1Conflicts_of_analyze? ha] at hfree
  rw [ll1Conflicts_of_analyze? hb]
  exact LL1.conflicts_eq_nil_of_renaming r hg.wellFormed hh.wellFormed hfree

/-- The automata of the two grammars are counterparts of each other. -/
theorem exists_counterparts :
    ∃ σ, SLR1.Counterparts e τ σ g h a.automaton b.automaton := by
  have hgwf := hg.wellFormed
  have hhwf := hh.wellFormed
  have hgstart := hg.isNonterminal_start
  have hhstart := hh.isNonterminal_start
  obtain ⟨-, -, name, hbuild⟩ := parts_of_analyze? ha
  obtain ⟨-, -, name', hbuild'⟩ := parts_of_analyze? hb
  rw [hbuild, hbuild']
  exact ⟨_, r, LR0.relabels_build r hgwf hgstart hhwf hhstart name name',
    LR0.isFor_build hgwf hgstart name, LR0.isFor_build hhwf hhstart name',
    LR0.collects_build hgwf hgstart name, LR0.collects_build hhwf hhstart name'⟩

theorem slr1Conflicts_of_renaming (hfree : a.slr1Conflicts = []) : b.slr1Conflicts = [] := by
  obtain ⟨σ, hpair⟩ := exists_counterparts r hg hh ha hb
  rw [(slr1Conflicts_of_analyze? hg ha).2] at hfree
  rw [(slr1Conflicts_of_analyze? hh hb).2]
  exact hpair.conflicts_eq_nil hfree

end Analyses

/-- Two grammars that differ by a renaming and by the order of their alternatives have the same FIRST
and FOLLOW sets up to the renaming, are classified alike and have equally many states. Where the one
has a table, so has the other, and a run that halts on the one halts on the other with the same
answer. -/
theorem rule_order_immaterial {f : Nat → Nat} (hg : g.Readable) (hh : h.Readable)
    (hf : Renames f g h) :
    ∃ a b, g.analyze? = some a ∧ h.analyze? = some b ∧
      (∀ s < g.size, b.first.ofSymbol (f s) = (a.first.ofSymbol s).image f ∧
        b.follow.ofSymbol (f s) = (a.follow.ofSymbol s).image f) ∧
      b.isLL1 = a.isLL1 ∧ b.isSLR1 = a.isSLR1 ∧
      b.automaton.states.size = a.automaton.states.size ∧
      (∀ table, a.ll1Table = some table → ∃ table', b.ll1Table = some table' ∧
        ∀ tokens limit trace, LL1.runFor limit g table tokens = .halted trace →
          ∃ limit' trace', LL1.runFor limit' h table' tokens = .halted trace' ∧
            trace'.accepted = trace.accepted) ∧
      ∀ table, a.slr1Table = some table → ∃ table', b.slr1Table = some table' ∧
        ∀ tokens limit trace, SLR1.runFor limit g table tokens = .halted trace →
          ∃ limit' trace', SLR1.runFor limit' h table' tokens = .halted trace' ∧
            trace'.accepted = trace.accepted := by
  have hgwf := hg.wellFormed
  have hhwf := hh.wellFormed
  obtain ⟨e, τ, r, he⟩ := hf.exists_renaming hgwf
  obtain ⟨a, ha⟩ := exists_analyze? hg
  obtain ⟨b, hb⟩ := exists_analyze? hh
  obtain ⟨hfirst, hfollow, -⟩ := parts_of_analyze? ha
  obtain ⟨hfirst', hfollow', -⟩ := parts_of_analyze? hb
  obtain ⟨σ, hpair⟩ := exists_counterparts r hg hh ha hb
  have hll1 : b.ll1Conflicts = [] ↔ a.ll1Conflicts = [] :=
    ⟨ll1Conflicts_of_renaming r.symm hh hg hb ha, ll1Conflicts_of_renaming r hg hh ha hb⟩
  have hslr1 : b.slr1Conflicts = [] ↔ a.slr1Conflicts = [] :=
    ⟨slr1Conflicts_of_renaming r.symm hh hg hb ha, slr1Conflicts_of_renaming r hg hh ha hb⟩
  refine ⟨a, b, ha, hb, fun s hs => ?_, ?_, ?_, hpair.size_states_eq, fun table htable => ?_,
    fun table htable => ?_⟩
  · rw [hfirst, hfirst', hfollow, hfollow']
    exact ⟨first_of_renaming r he hgwf hhwf hs, follow_of_renaming r he hgwf hhwf hs⟩
  · rw [Bool.eq_iff_iff, Analysis.isLL1, Analysis.isLL1, List.isEmpty_iff, List.isEmpty_iff, hll1]
  · rw [Bool.eq_iff_iff, Analysis.isSLR1, Analysis.isSLR1, List.isEmpty_iff, List.isEmpty_iff, hslr1]
  · obtain ⟨table', htable'⟩ := (exists_ll1Table_iff hh hb).mpr
      (hll1.mpr ((exists_ll1Table_iff hg ha).mp ⟨table, htable⟩))
    refine ⟨table', htable', fun tokens limit trace hrun => ?_⟩
    exact LL1.ends_of_renaming r hgwf hhwf (LL1.isTableOf_of_analyze? hgwf ha htable)
      (LL1.isTableOf_of_analyze? hhwf hb htable') hg.isNonterminal_start ⟨limit, trace, hrun, rfl⟩
  · obtain ⟨table', htable'⟩ := (exists_slr1Table_iff hh hb).mpr
      (hslr1.mpr ((exists_slr1Table_iff hg ha).mp ⟨table, htable⟩))
    refine ⟨table', htable', fun tokens limit trace hrun => ?_⟩
    obtain ⟨-, -, hbuild⟩ := SLR1.isFor_of_analyze? hg ha htable
    obtain ⟨-, -, hbuild'⟩ := SLR1.isFor_of_analyze? hh hb htable'
    exact hpair.ends hbuild hbuild' ⟨limit, trace, hrun, rfl⟩

/-! With its last two rules and the alternatives of `A` the other way round, the grammar below gets
its symbols in another order: 3 and 4 change places, and so do 5 and 6. -/

def exchange : Equiv.Perm Nat := Equiv.swap 3 4 * Equiv.swap 5 6

theorem exchange_lt_iff (s : Nat) : exchange s < 7 ↔ s < 7 := by
  simp only [exchange, Equiv.Perm.mul_apply, Equiv.swap_apply_def]
  split_ifs <;> omega

theorem reordered_rules_accept :
    ∃ g h a b table, Grammar.read .spaced "S -> A B\nA -> a | ϵ\nB -> b" = .ok g ∧
      Grammar.read .spaced "S -> A B\nB -> b\nA -> ϵ | a" = .ok h ∧ g ≠ h ∧
      Renames exchange g h ∧ g.analyze? = some a ∧ h.analyze? = some b ∧
      b.first.ofSymbol 4 = ⟨.singleton 6, true⟩ ∧
      b.automaton.states.size = 6 ∧ b.slr1Table = some table ∧
      ∃ limit trace, SLR1.runFor limit h table ["a", "b"] = .halted trace ∧
        trace.accepted = true := by
  have hread : ((Grammar.read .spaced "S -> A B\nA -> a | ϵ\nB -> b").toOption.bind fun g =>
      (Grammar.read .spaced "S -> A B\nB -> b\nA -> ϵ | a").toOption.bind fun h =>
        g.analyze?.bind fun a => a.slr1Table.bind fun table =>
          (SLR1.runFor 9 g table ["a", "b"]).trace?.map fun trace =>
            decide (trace.accepted = true ∧ a.first.ofSymbol 3 = ⟨.singleton 5, true⟩ ∧
              a.automaton.states.size = 6 ∧ g ≠ h ∧ g.size = 7 ∧ h.size = 7 ∧ g.start = 2 ∧
              h.start = 2 ∧ ∀ s < 7, h.isTerminal (exchange s) = g.isTerminal s ∧
                h.name? (exchange s) = g.name? s ∧
                (h.bodies (exchange s)).Perm ((g.bodies s).map (List.map exchange)))) =
      some true := by
    decide +kernel
  simp only [Option.bind_eq_some_iff, Option.map_eq_some_iff, toOption_eq_some, trace?_eq_some,
    decide_eq_true_eq] at hread
  obtain ⟨g, hg, h, hh, a, ha, table, htable, trace, hrun, haccepted, hfirst, hsize, hne, hgsize,
    hhsize, hgstart, hhstart, hkept⟩ := hread
  have hf : Renames exchange g h := by
    refine ⟨?_, by decide, by decide, ?_, ?_, ?_, ?_⟩
    · rw [hgsize, hhsize]
      exact exchange.bijOn exchange_lt_iff
    · rw [hgstart, hhstart]
      decide
    all_goals rw [hgsize]
    · exact fun s hs => (hkept s hs).1
    · exact fun s hs => (hkept s hs).2.1
    · exact fun s hs => (hkept s hs).2.2
  obtain ⟨a', b, ha', hb, hsets, -, -, hstates, -, hruns⟩ :=
    rule_order_immaterial (.read hg) (.read hh) hf
  obtain rfl : a = a' := Option.some.inj (ha.symm.trans ha')
  obtain ⟨table', htable', hruns⟩ := hruns table htable
  obtain ⟨limit, trace', hrun', haccepted'⟩ := hruns ["a", "b"] 9 trace hrun
  refine ⟨g, h, a, b, table', hg, hh, hne, hf, ha, hb, ?_, hstates.trans hsize, htable', limit,
    trace', hrun', haccepted'.trans haccepted⟩
  have hset := (hsets 3 (by omega)).1
  rw [hfirst] at hset
  exact hset

end Lookahead
