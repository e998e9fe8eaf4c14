import Lookahead.Proofs.LL1.Membership
import Lookahead.Proofs.Sets.Begins

/-!
A grammar without conflicts is one in which no two alternatives of a nonterminal are predicted on
one terminal, and so one whose table can be built. The conflict of a nonterminal that can vanish and
begins with what follows it may lie within a single alternative. Then a symbol of this alternative
has the same conflict, with fewer steps from the symbol to the terminal, and in the end there is a
nonterminal with one alternative that begins with the terminal and another one that vanishes.
-/

namespace Lookahead.LL1

open Grammar

variable {g : Grammar}

def PredictsOne (g : Grammar) : Prop :=
  ∀ left t, g.isNonterminal left = true → g.isTerminal t = true →
    ∀ i j body body', Predicts g left t i body → Predicts g left t j body' → i = j

theorem Predicts.mem {left t i : Nat} {body : Body} (h : Predicts g left t i body) :
    body ∈ g.bodies left :=
  List.mem_of_getElem? h.1

theorem Predicts.isTerminal (hg : g.WellFormed) {left t i : Nat} {body : Body}
    (h : Predicts g left t i body) : g.isTerminal t = true := by
  rcases h.2 with ht | ⟨-, ht⟩
  · exact hg.isTerminal_of_first ((hg.fits h.mem).lt_size hg) ht
  · exact hg.isTerminal_of_mem_followers ht

theorem PredictsOne.eq (h : PredictsOne g) (hg : g.WellFormed) {left t i j : Nat}
    {body body' : Body} (hi : Predicts g left t i body) (hj : Predicts g left t j body') : i = j :=
  h left t (hg.isNonterminal_of_mem_bodies hi.mem) (hi.isTerminal hg) i j body body' hi hj

/-! What the conflicts are about. -/

/-- Both alternatives can begin with the terminal, or both can vanish in front of it. -/
def Clash (g : Grammar) (left : Nat) (body body' : Body) (t : Nat) : Prop :=
  (g.firstSets.ofSequence body).Has (some t) ∧ (g.firstSets.ofSequence body').Has (some t) ∨
    ((g.firstSets.ofSequence body).Has none ∧ (g.firstSets.ofSequence body').Has none) ∧
      t ∈ g.followers left

/-- No conflict is reported for two alternatives exactly when they clash on no terminal. -/
theorem pairConflict_eq_none {left i j : Nat} {body body' : Body} :
    pairConflict left (g.followers left)
        ((g.firstSets.ofSequence body, i), (g.firstSets.ofSequence body', j)) = none ↔
      ∀ t, ¬ Clash g left body body' t := by
  unfold pairConflict
  dsimp only
  split
  · next hnull =>
      rw [Bool.and_eq_true] at hnull
      rw [ite_eq_left_iff, Bool.not_eq_true]
      simp [SortedSet.isEmpty_iff, Clash, FirstSet.Has, hnull]
  · next hnull =>
      rw [Bool.and_eq_true] at hnull
      simp [SortedSet.isEmpty_iff, Clash, FirstSet.Has, hnull]

def VanishClash (g : Grammar) (left t : Nat) : Prop :=
  (g.firstSets.ofSymbol left).Has none ∧ (g.firstSets.ofSymbol left).Has (some t) ∧
    t ∈ g.followers left

theorem vanishConflict_eq_none {left : Nat} :
    vanishConflict left (g.firstSets.ofSymbol left) (g.followers left) = none ↔
      ∀ t, ¬ VanishClash g left t := by
  unfold vanishConflict
  by_cases hnull : (g.firstSets.ofSymbol left).nullable = true <;>
    simp [SortedSet.isEmpty_iff, VanishClash, FirstSet.Has, hnull]

/-- Two alternatives of a nonterminal, each later one with each earlier one. -/
theorem mem_pairs_zipIdx {bodies : List Body} {f : Body → FirstSet}
    {entries : (FirstSet × Nat) × (FirstSet × Nat)} :
    entries ∈ pairs (bodies.map f).zipIdx ↔
      ∃ i j body body', i < j ∧ bodies[i]? = some body ∧ bodies[j]? = some body' ∧
        entries = ((f body, i), (f body', j)) := by
  obtain ⟨⟨a, m⟩, ⟨b, n⟩⟩ := entries
  simp only [mem_pairs_iff, List.getElem?_zipIdx, List.getElem?_map, Option.map_map,
    Option.map_eq_some_iff]
  constructor
  · rintro ⟨i, j, hij, ⟨body, hbody, hfirst⟩, body', hbody', hsecond⟩
    exact ⟨i, j, body, body', hij, hbody, hbody', by simp_all⟩
  · rintro ⟨i, j, body, body', hij, hbody, hbody', heq⟩
    exact ⟨i, j, hij, ⟨body, hbody, by simp_all⟩, body', hbody', by simp_all⟩

/-- No conflict is reported exactly when no two alternatives of a nonterminal clash, and no nonterminal
that can vanish can begin with a terminal that follows it. -/
theorem conflicts_eq_nil_iff (hg : g.WellFormed) :
    conflicts g g.firstSets (g.followSets g.firstSets) = [] ↔
      ∀ left, g.isNonterminal left = true →
        (∀ (i j : Nat) body body' t, i < j → (g.bodies left)[i]? = some body →
          (g.bodies left)[j]? = some body' → ¬ Clash g left body body' t) ∧
        ∀ t, ¬ VanishClash g left t := by
  have hof (n : Nonterminal) : conflictsOf g.firstSets (g.followSets g.firstSets) n = [] ↔
      (∀ (i j : Nat) body body' t, i < j → n.bodies[i]? = some body →
        n.bodies[j]? = some body' → ¬ Clash g n.index body body' t) ∧
      ∀ t, ¬ VanishClash g n.index t := by
    unfold conflictsOf
    rw [List.append_eq_nil_iff, List.filterMap_eq_nil_iff, Option.toList_eq_nil_iff]
    refine and_congr ?_ vanishConflict_eq_none
    constructor
    · intro h i j body body' t hij hbody hbody'
      exact pairConflict_eq_none.mp
        (h _ (mem_pairs_zipIdx.mpr ⟨i, j, body, body', hij, hbody, hbody', rfl⟩)) t
    · rintro h entries hentries
      obtain ⟨i, j, body, body', hij, hbody, hbody', rfl⟩ := mem_pairs_zipIdx.mp hentries
      exact pairConflict_eq_none.mpr fun t => h i j body body' t hij hbody hbody'
  rw [conflicts, List.flatMap_eq_nil_iff]
  simp only [hof]
  constructor
  · intro h left hleft
    obtain ⟨n, hn, rfl, hbodies⟩ := hg.exists_nonterminal hleft
    exact hbodies ▸ h n hn
  · intro h n hn
    exact hg.bodies_index hn ▸ h n.index (hg.isNonterminal_index hn)

/-! No conflict means one prediction, and the other way round. -/

theorem predicts_of_clash {left t i j : Nat} {body body' : Body}
    (hbody : (g.bodies left)[i]? = some body) (hbody' : (g.bodies left)[j]? = some body')
    (h : Clash g left body body' t) : Predicts g left t i body ∧ Predicts g left t j body' := by
  rcases h with ⟨hfirst, hsecond⟩ | ⟨⟨hfirst, hsecond⟩, ht⟩
  · exact ⟨⟨hbody, .inl hfirst⟩, ⟨hbody', .inl hsecond⟩⟩
  · exact ⟨⟨hbody, .inr ⟨hfirst, ht⟩⟩, ⟨hbody', .inr ⟨hsecond, ht⟩⟩⟩

/-- Where two alternatives are predicted on a terminal, they clash, or the nonterminal clashes with what
follows it. -/
theorem clash_of_predicts (hg : g.WellFormed) {left t i j : Nat} {body body' : Body}
    (hi : Predicts g left t i body) (hj : Predicts g left t j body') :
    Clash g left body body' t ∨ VanishClash g left t := by
  have hset {body : Body} (hbody : body ∈ g.bodies left) {o : Option Nat}
      (ho : (g.firstSets.ofSequence body).Has o) : (g.firstSets.ofSymbol left).Has o :=
    hg.first_left_of_first_body hbody (hg.first_visible.mpr ho)
  rcases hi.2 with hfirst | ⟨hnull, ht⟩
  · rcases hj.2 with hfirst' | ⟨hnull', ht⟩
    · exact .inl (.inl ⟨hfirst, hfirst'⟩)
    · exact .inr ⟨hset hj.mem hnull', hset hi.mem hfirst, ht⟩
  · rcases hj.2 with hfirst' | ⟨hnull', -⟩
    · exact .inr ⟨hset hi.mem hnull, hset hj.mem hfirst', ht⟩
    · exact .inl (.inr ⟨⟨hnull, hnull'⟩, ht⟩)

theorem predictsOne_of_conflicts_eq_nil (hg : g.WellFormed)
    (h : conflicts g g.firstSets (g.followSets g.firstSets) = []) : PredictsOne g := by
  intro left t hleft _ i j body body' hi hj
  obtain ⟨hpairs, hvanish⟩ := (conflicts_eq_nil_iff hg).mp h left hleft
  by_contra hne
  rcases Nat.lt_or_gt_of_ne hne with hlt | hlt
  · exact (clash_of_predicts hg hi hj).elim (hpairs i j body body' t hlt hi.1 hj.1) (hvanish t)
  · exact (clash_of_predicts hg hj hi).elim (hpairs j i body' body t hlt hj.1 hi.1) (hvanish t)

/-- A string that can vanish does not begin with a terminal that may follow each of its symbols. The
induction goes into the alternative that begins with the terminal: it is the one that can vanish, so
that the terminal may follow each of its symbols too. -/
theorem PredictsOne.not_begins (h : PredictsOne g) (hg : g.WellFormed) {symbols : List Nat}
    {t : Nat} (hbegins : g.Begins symbols (some t))
    (hnull : (g.firstSets.ofSequence symbols).Has none)
    (hfollow : ∀ s ∈ symbols, g.isNonterminal s = true → t ∈ g.followers s) : False := by
  generalize ho : some t = o at hbegins
  induction hbegins with
  | nil => cases ho
  | terminal hterm =>
      rw [first_cons, hg.first_terminal hterm] at hnull
      simp at hnull
  | @inside left t body rest hbody hinner ih =>
      cases ho
      have hleft := hg.isNonterminal_of_mem_bodies hbody
      have ht := hfollow left (by simp) hleft
      obtain ⟨body', hbody', hnull'⟩ := (hg.first_nonterminal hleft).mp
        (first_cons_none.mp hnull).1
      obtain ⟨i, hi⟩ := List.mem_iff_getElem?.mp hbody
      obtain ⟨j, hj⟩ := List.mem_iff_getElem?.mp hbody'
      have hsame : i = j := h.eq hg
        ⟨hi, .inl ((hg.first_body_iff_begins hbody).mpr hinner)⟩ ⟨hj, .inr ⟨hnull', ht⟩⟩
      obtain rfl : body = body' := by
        rw [hsame, hj] at hi
        exact (Option.some.inj hi).symm
      refine ih (hg.first_visible.mpr hnull') (fun s hs hnon => ?_) rfl
      exact hg.mem_followers_of_vanishing hbody hnull' ht hs hnon
  | behind _ _ _ _ ih =>
      refine ih (first_cons_none.mp hnull).2 ?_ ho
      intro s hs
      exact hfollow s (by simp [hs])

theorem conflicts_eq_nil_of_predictsOne (hg : g.WellFormed) (h : PredictsOne g) :
    conflicts g g.firstSets (g.followSets g.firstSets) = [] := by
  refine (conflicts_eq_nil_iff hg).mpr fun left hleft => ⟨?_, ?_⟩
  · intro i j body body' t hlt hbody hbody' hclash
    obtain ⟨hi, hj⟩ := predicts_of_clash hbody hbody' hclash
    exact hlt.ne (h.eq hg hi hj)
  · rintro t ⟨hnull, hfirst, ht⟩
    have hsymbols : ∀ s ∈ [left], s < g.size ∧ s ≠ epsilon := by
      simpa using ⟨lt_size_of_isNonterminal hleft, (isNonterminal_iff.mp hleft).1⟩
    have hbegins := (hg.first_iff_begins hsymbols).mp (first_singleton.mpr hfirst)
    exact h.not_begins hg hbegins (first_singleton.mpr hnull) (by simpa using fun _ => ht)

/-! One prediction means that the table can be built. -/

theorem admits_table : Admits (fun (table : Table) cell => table.cells.find? cell)
    (fun table (entry : Cell × Nat) => table.fill entry.1 entry.2) := by
  rintro table cell i (hfree | hsame)
  · exact ⟨⟨table.cells.insert cell i⟩, by simp [Table.fill, hfree]⟩
  · exact ⟨table, by simp [Table.fill, hsame]⟩

/-- The table can be filled exactly when no two alternatives are predicted on the same terminal. -/
theorem exists_table_iff (hg : g.WellFormed) :
    (∃ table, buildTable g g.firstSets (g.followSets g.firstSets) = .ok table) ↔
      PredictsOne g := by
  constructor
  · rintro ⟨table, htable⟩ left t - - i j body body' hi hj
    have hcells := isTableOf_buildTable hg htable
    have hfirst := (hcells left t i).mpr ⟨body, hi⟩
    rw [(hcells left t j).mpr ⟨body', hj⟩] at hfirst
    exact (Option.some.inj hfirst).symm
  · intro h
    apply fills_table.exists_foldlM admits_table
    rintro ⟨left, t⟩ i j hi (hj | hj)
    · obtain ⟨body, hi⟩ := (mem_predictions hg).mp hi
      obtain ⟨body', hj⟩ := (mem_predictions hg).mp hj
      exact h.eq hg hi hj
    · cases hj

/-- Classification and table agree: there is no conflict exactly if no two alternatives of a
nonterminal are predicted on one terminal, and exactly if the table can be built. The table then
holds what is predicted, and nothing else. -/
theorem conflict_free_iff_table (hg : g.Readable) :
    [conflicts g g.firstSets (g.followSets g.firstSets) = [],
      PredictsOne g,
      ∃ table, buildTable g g.firstSets (g.followSets g.firstSets) = .ok table].TFAE ∧
    ∀ table, buildTable g g.firstSets (g.followSets g.firstSets) = .ok table →
      ∀ left t i, table.find? left t = some i ↔ ∃ body, Predicts g left t i body := by
  have hwf := hg.wellFormed
  refine ⟨?_, fun table htable => isTableOf_buildTable hwf htable⟩
  tfae_have 1 → 2 := predictsOne_of_conflicts_eq_nil hwf
  tfae_have 2 → 1 := conflicts_eq_nil_of_predictsOne hwf
  tfae_have 3 ↔ 2 := exists_table_iff hwf
  tfae_finish

theorem predicts_one_without_recursion :
    ∃ g, Grammar.read .spaced "E -> E + T | T\nT -> ( E ) | i | T" = .ok g ∧
      PredictsOne g.withoutLeftRecursion ∧
      ∃ table, buildTable g.withoutLeftRecursion g.withoutLeftRecursion.firstSets
        (g.withoutLeftRecursion.followSets g.withoutLeftRecursion.firstSets) = .ok table := by
  have hread : ((Grammar.read .spaced "E -> E + T | T\nT -> ( E ) | i | T").toOption.map fun g =>
      let g := g.withoutLeftRecursion
      decide (conflicts g g.firstSets (g.followSets g.firstSets) = [])) = some true := by
    decide +kernel
  simp only [Option.map_eq_some_iff, toOption_eq_some, decide_eq_true_eq] at hread
  obtain ⟨g, hg, hfree⟩ := hread
  have htfae := (conflict_free_iff_table (.withoutLeftRecursion (.read hg))).1
  exact ⟨g, hg, (htfae.out 0 1).mp hfree, (htfae.out 0 2).mp hfree⟩

end Lookahead.LL1
