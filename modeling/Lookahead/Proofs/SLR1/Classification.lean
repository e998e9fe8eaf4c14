import Lookahead.Proofs.Grammar.Readable
import Lookahead.Proofs.LR0.Valid
import Lookahead.Proofs.SLR1.Table
import Lookahead.SLR1.Conflict

/-!
An automaton without conflicts is one whose tables can be built. In both cases no state calls for two
actions on one terminal: the conflicts are the pairs of items that do so, and the tables are filled
with what the items call for.
-/

namespace Lookahead.SLR1

open LR0 Grammar

variable {g : Grammar} {a : Automaton} {follow : FollowSets} {table : Table} {s : State}

/-- The action is one that the state calls for on the terminal. -/
def CallsFor (a : Automaton) (follow : FollowSets) (s : State) (t : Nat) : Action → Prop
  | .shift target => a.grammar.isTerminal t = true ∧
      (∃ i ∈ s.items, a.grammar.nextSymbol i = some t) ∧ s.edges.find? t = some target
  | .reduce left production => left ≠ a.accept ∧ t ∈ follow.ofSymbol left ∧
      ∃ i ∈ s.items, i.left = left ∧ i.production = production ∧ a.grammar.isComplete i = true
  | .accept => t = endMark ∧ ∃ i ∈ s.items, i.left = a.accept ∧ a.grammar.isComplete i = true

def Decided (a : Automaton) (follow : FollowSets) (s : State) : Prop :=
  ∀ t action action', CallsFor a follow s t action → CallsFor a follow s t action' →
    action = action'

theorem isComplete_iff {i : Item} :
    a.grammar.isComplete i = true ↔ a.grammar.nextSymbol i = none := by
  simp [isComplete]

theorem callsFor_iff {t : Nat} {action : Action} :
    CallsFor a follow s t action ↔ ∃ i ∈ s.items, (t, action) ∈ actionsOf a follow s i := by
  cases action with
  | shift target =>
      simp only [CallsFor, shift_mem_actionsOf]
      constructor
      · rintro ⟨hterm, ⟨i, hi, hnext⟩, hedge⟩
        exact ⟨i, hi, hnext, hterm, hedge⟩
      · rintro ⟨i, hi, hnext, hterm, hedge⟩
        exact ⟨hterm, ⟨i, hi, hnext⟩, hedge⟩
  | reduce left production =>
      simp only [CallsFor, reduce_mem_actionsOf, isComplete_iff]
      constructor
      · rintro ⟨hne, ht, i, hi, rfl, rfl, hdone⟩
        exact ⟨i, hi, hdone, hne, rfl, rfl, ht⟩
      · rintro ⟨i, hi, hdone, hne, rfl, rfl, ht⟩
        exact ⟨hne, ht, i, hi, rfl, rfl, hdone⟩
  | accept =>
      simp only [CallsFor, accept_mem_actionsOf, isComplete_iff]
      constructor
      · rintro ⟨ht, i, hi, hleft, hdone⟩
        exact ⟨i, hi, hdone, hleft, ht⟩
      · rintro ⟨i, hi, hdone, hleft, ht⟩
        exact ⟨ht, i, hi, hleft, hdone⟩

/-! The tables. -/

/-- A cell holds an action exactly when the state calls for it on the terminal. -/
theorem action?_eq_some_iff (h : buildTable a follow = .ok table) {k : Nat}
    (hs : a.states[k]? = some s) {t : Nat} {action : Action} :
    table.action? k t = some action ↔ CallsFor a follow s t action := by
  rw [action?_iff h, callsFor_iff]
  simp [hs]

theorem admits_row (state : Nat) :
    Admits (fun (row : SortedMap Nat Action) t => row.find? t) (fill state) := by
  rintro row t action (hfree | hsame)
  · exact ⟨row.insert t action, by simp [fill, hfree]⟩
  · exact ⟨row, by simp [fill, hsame]⟩

theorem exists_actionRow (h : Decided a follow s) (k : Nat) :
    ∃ row, actionRow a follow s k = .ok row := by
  apply (fills_row k).exists_foldlM (admits_row k)
  intro t action action' haction hother
  rcases hother with hother | hother
  · obtain ⟨i, hi, haction⟩ := List.mem_flatMap.mp haction
    obtain ⟨j, hj, hother⟩ := List.mem_flatMap.mp hother
    exact h t action action' (callsFor_iff.mpr ⟨i, hi, haction⟩) (callsFor_iff.mpr ⟨j, hj, hother⟩)
  · simp at hother

theorem mem_zipIdx_states {k : Nat} :
    (s, k) ∈ a.states.toList.zipIdx ↔ a.states[k]? = some s := by
  rw [List.mem_zipIdx_iff_getElem?, Array.getElem?_toList]

/-- The tables can be filled exactly when every state is decided. -/
theorem exists_tables_iff :
    (∃ table, buildTable a follow = .ok table) ↔
      ∀ (k : Nat) (s : State), a.states[k]? = some s → Decided a follow s := by
  constructor
  · rintro ⟨table, htable⟩ k s hs t action action' haction hother
    have hfirst := (action?_eq_some_iff htable hs).mpr haction
    rw [(action?_eq_some_iff htable hs).mpr hother] at hfirst
    exact (Option.some.inj hfirst).symm
  · intro h
    have hrows : ∀ entry ∈ a.states.toList.zipIdx,
        ∃ row, actionRow a follow entry.1 entry.2 = .ok row := by
      rintro ⟨s, k⟩ hentry
      exact exists_actionRow (h k s (mem_zipIdx_states.mp hentry)) k
    obtain ⟨actions, hactions⟩ := exists_mapM_eq_ok hrows
    refine ⟨⟨actions.toArray, a.states.map (gotoRow a)⟩, ?_⟩
    rw [buildTable, bind_eq_ok]
    exact ⟨actions, hactions, rfl⟩

/-! The conflicts. -/

theorem mem_reducible {items : ItemSet} {i : Item} :
    i ∈ a.reducible items ↔ i ∈ items ∧ i.left ≠ a.accept ∧ a.grammar.isComplete i = true := by
  simp [Automaton.reducible, SortedSet.mem_def]

theorem nodup_reducible (items : ItemSet) : (a.reducible items).Nodup :=
  items.nodup.filter _

theorem mem_shiftable {items : ItemSet} {t : Nat} :
    t ∈ a.shiftable items ↔
      a.grammar.isTerminal t = true ∧ ∃ i ∈ items, a.grammar.nextSymbol i = some t := by
  simp only [Automaton.shiftable, SortedSet.mem_ofList, List.mem_filter, List.mem_filterMap,
    ← SortedSet.mem_def]
  exact and_comm

theorem accepts_iff {items : ItemSet} :
    a.accepts items = true ↔ ∃ i ∈ items, i.left = a.accept ∧ a.grammar.isComplete i = true := by
  simp [Automaton.accepts, SortedSet.mem_def]

/-- No two things that the items of a state can do are done on the same terminal. -/
structure ConflictFree (a : Automaton) (follow : FollowSets) (items : ItemSet) : Prop where
  accepting : a.accepts items = true → ∀ r ∈ a.reducible items, endMark ∉ follow.ofSymbol r.left
  shifting : ∀ r ∈ a.reducible items, ∀ t ∈ follow.ofSymbol r.left, t ∉ a.shiftable items
  reducing : ∀ r ∈ a.reducible items, ∀ r' ∈ a.reducible items, r ≠ r' →
    ∀ t ∈ follow.ofSymbol r.left, t ∉ follow.ofSymbol r'.left

/-- No conflict is reported for a state exactly when its items are free of conflicts. -/
theorem conflictsOf_eq_nil_iff {k : Nat} {items : ItemSet} :
    conflictsOf a follow k items = [] ↔ ConflictFree a follow items := by
  have haccepting : (if a.accepts items then
      ((a.reducible items).filter fun r => endMark ∈ follow.ofSymbol r.left).map
        (Conflict.acceptReduce k ·) else []) = [] ↔
      (a.accepts items = true → ∀ r ∈ a.reducible items, endMark ∉ follow.ofSymbol r.left) := by
    split <;> simp_all
  have hshared {x y : SortedSet Nat} {c : Conflict} :
      (if (x.inter y).isEmpty then none else some c) = none ↔ ∀ t ∈ x, t ∉ y := by
    simp [SortedSet.isEmpty_iff]
  unfold conflictsOf
  simp only [List.append_eq_nil_iff, List.filterMap_eq_nil_iff, haccepting, hshared]
  constructor
  · rintro ⟨⟨haccept, hshift⟩, hreduce⟩
    refine ⟨haccept, hshift, fun r hr r' hr' hne t ht ht' => ?_⟩
    -- each pair is looked at in one order only
    rcases mem_pairs_of_ne hr hr' hne with hpair | hpair
    · exact hreduce _ hpair t ht ht'
    · exact hreduce _ hpair t ht' ht
  · rintro ⟨haccept, hshift, hreduce⟩
    refine ⟨⟨haccept, hshift⟩, ?_⟩
    rintro ⟨r, r'⟩ hpair
    obtain ⟨hr, hr'⟩ := mem_of_mem_pairs hpair
    exact hreduce r hr r' hr' (ne_of_mem_pairs (nodup_reducible items) hpair)

theorem conflicts_eq_nil_iff_conflictFree :
    conflicts a follow = [] ↔
      ∀ (k : Nat) (s : State), a.states[k]? = some s → ConflictFree a follow s.items := by
  rw [conflicts, List.flatMap_eq_nil_iff]
  simp only [Prod.forall, mem_zipIdx_states, conflictsOf_eq_nil_iff]
  exact forall_comm

/-! A state is free of conflicts exactly if it is decided. -/

theorem callsFor_reduce_iff {t left production : Nat} :
    CallsFor a follow s t (.reduce left production) ↔
      ∃ r ∈ a.reducible s.items, r.left = left ∧ r.production = production ∧
        t ∈ follow.ofSymbol r.left := by
  simp only [CallsFor, mem_reducible]
  constructor
  · rintro ⟨hne, ht, i, hi, rfl, rfl, hdone⟩
    exact ⟨i, ⟨hi, hne, hdone⟩, rfl, rfl, ht⟩
  · rintro ⟨i, ⟨hi, hne, hdone⟩, rfl, rfl, ht⟩
    exact ⟨hne, ht, i, hi, rfl, rfl, hdone⟩

/-- The dot of a complete item stands at the end, so that its alternative says which item it is. -/
theorem eq_of_isComplete {i j : Item} (hi : a.grammar.Holds i) (hj : a.grammar.Holds j)
    (hdone : a.grammar.isComplete i = true) (hdone' : a.grammar.isComplete j = true)
    (hleft : i.left = j.left) (hproduction : i.production = j.production) : i = j := by
  have hposition {i : Item} (hi : a.grammar.Holds i) (hdone : a.grammar.isComplete i = true) :
      i.position = (a.grammar.body i.left i.production).length := by
    apply le_antisymm
    · obtain ⟨body, hbody, hle⟩ := hi
      simpa [Grammar.body, hbody] using hle
    · exact List.getElem?_eq_none_iff.mp (isComplete_iff.mp hdone)
  obtain ⟨left, production, position⟩ := i
  obtain ⟨left', production', position'⟩ := j
  obtain rfl : left = left' := hleft
  obtain rfl : production = production' := hproduction
  have hsame : position = position' := (hposition hi hdone).trans (hposition hj hdone').symm
  rw [hsame]

theorem CallsFor.mem_shiftable {t target : Nat} (h : CallsFor a follow s t (.shift target)) :
    t ∈ a.shiftable s.items :=
  SLR1.mem_shiftable.mpr ⟨h.1, h.2.1⟩

namespace ConflictFree

variable (h : ConflictFree a follow s.items) {t target left production : Nat}

include h

theorem not_shift_and_reduce (hshift : CallsFor a follow s t (.shift target))
    (hreduce : CallsFor a follow s t (.reduce left production)) : False := by
  obtain ⟨r, hr, -, -, ht⟩ := callsFor_reduce_iff.mp hreduce
  exact h.shifting r hr t ht hshift.mem_shiftable

theorem not_reduce_and_accept (hreduce : CallsFor a follow s t (.reduce left production))
    (haccept : CallsFor a follow s t .accept) : False := by
  obtain ⟨r, hr, -, -, ht⟩ := callsFor_reduce_iff.mp hreduce
  obtain ⟨rfl, haccepts⟩ := haccept
  exact h.accepting (accepts_iff.mpr haccepts) r hr ht

theorem reduce_eq_reduce {left' production' : Nat}
    (hfirst : CallsFor a follow s t (.reduce left production))
    (hsecond : CallsFor a follow s t (.reduce left' production')) :
    Action.reduce left production = .reduce left' production' := by
  obtain ⟨r, hr, rfl, rfl, ht⟩ := callsFor_reduce_iff.mp hfirst
  obtain ⟨r', hr', rfl, rfl, ht'⟩ := callsFor_reduce_iff.mp hsecond
  by_cases hsame : r = r'
  · rw [hsame]
  · exact (h.reducing r hr r' hr' hsame t ht ht').elim

end ConflictFree

section IsFor

variable (ha : a.IsFor g) (hitems : ∀ i ∈ s.items, a.grammar.Holds i)

include ha hitems

theorem lt_size_of_mem_shiftable {t : Nat} (ht : t ∈ a.shiftable s.items) :
    endMark < t ∧ t < g.size := by
  obtain ⟨hterm, i, hi, hnext⟩ := mem_shiftable.mp ht
  have hne : t ≠ epsilon := by
    rintro rfl
    rw [ha.grammar_wellFormed.not_isTerminal_epsilon] at hterm
    cases hterm
  exact lt_size_of_mem_visible ha (hitems i hi).body_mem
    (Body.mem_visible.mpr ⟨List.mem_of_getElem? hnext, hne⟩)

/-- The end mark is never shifted, so that it cannot be shifted where it is accepted. -/
theorem not_shift_and_accept {t target : Nat} (hshift : CallsFor a follow s t (.shift target))
    (haccept : CallsFor a follow s t .accept) : False :=
  (lt_size_of_mem_shiftable ha hitems hshift.mem_shiftable).1.ne' haccept.1

theorem decided_of_conflictFree (h : ConflictFree a follow s.items) : Decided a follow s := by
  intro t action action' hcall hcall'
  cases action with
  | shift target =>
      cases action' with
      | shift target' => rw [Option.some.inj (hcall.2.2.symm.trans hcall'.2.2)]
      | reduce => exact (h.not_shift_and_reduce hcall hcall').elim
      | accept => exact (not_shift_and_accept ha hitems hcall hcall').elim
  | reduce left production =>
      cases action' with
      | shift => exact (h.not_shift_and_reduce hcall' hcall).elim
      | reduce => exact h.reduce_eq_reduce hcall hcall'
      | accept => exact (h.not_reduce_and_accept hcall hcall').elim
  | accept =>
      cases action' with
      | shift => exact (not_shift_and_accept ha hitems hcall' hcall).elim
      | reduce => exact (h.not_reduce_and_accept hcall' hcall).elim
      | accept => rfl

variable {k : Nat} (hs : a.states[k]? = some s)

include hs

/-- What can be shifted is shifted: the automaton has an edge for it. -/
theorem exists_shift {t : Nat} (ht : t ∈ a.shiftable s.items) :
    ∃ target, CallsFor a follow s t (.shift target) := by
  obtain ⟨hend, hlt⟩ := lt_size_of_mem_shiftable ha hitems ht
  obtain ⟨hterm, i, hi, hnext⟩ := mem_shiftable.mp ht
  obtain ⟨target, hedge⟩ := ha.complete.leads hs (ha.mem_alphabet hend hlt) hi hnext
  exact ⟨target, hterm, ⟨i, hi, hnext⟩, hedge⟩

theorem conflictFree_of_decided (h : Decided a follow s) : ConflictFree a follow s.items := by
  have hreduce {r : Item} (hr : r ∈ a.reducible s.items) {t : Nat}
      (ht : t ∈ follow.ofSymbol r.left) : CallsFor a follow s t (.reduce r.left r.production) :=
    callsFor_reduce_iff.mpr ⟨r, hr, rfl, rfl, ht⟩
  refine ⟨?_, ?_, ?_⟩
  · intro haccepts r hr ht
    have hsame := h endMark .accept _ ⟨rfl, accepts_iff.mp haccepts⟩ (hreduce hr ht)
    cases hsame
  · intro r hr t ht hshift
    obtain ⟨target, hcall⟩ := exists_shift ha hitems hs hshift
    have hsame := h t _ _ hcall (hreduce hr ht)
    cases hsame
  · intro r hr r' hr' hne t ht ht'
    have hsame := h t _ _ (hreduce hr ht) (hreduce hr' ht')
    rw [Action.reduce.injEq] at hsame
    obtain ⟨hi, -, hdone⟩ := mem_reducible.mp hr
    obtain ⟨hi', -, hdone'⟩ := mem_reducible.mp hr'
    exact hne (eq_of_isComplete (hitems r hi) (hitems r' hi') hdone hdone' hsame.1 hsame.2)

end IsFor

/-- On nonterminals the goto cells are the edges of the automaton. -/
theorem goto?_eq_transition (h : buildTable a follow = .ok table) {left : Nat}
    (hleft : a.grammar.isNonterminal left = true) (k : Nat) :
    table.goto? k left = a.transition k left := by
  apply Option.ext
  intro j
  rw [goto?_iff h, Automaton.transition, Option.bind_eq_some_iff]
  simp [hleft]

/-- Classification and tables agree: the automaton has no conflict exactly if its tables can be
built. They then hold the actions that the states call for and the transitions on nonterminals, and
nothing else. -/
theorem conflict_free_iff_tables (hg : g.Readable) :
    ∃ a, g.automaton? = some a ∧
      (conflicts a (g.followSets g.firstSets) = [] ↔
        ∃ table, buildTable a (g.followSets g.firstSets) = .ok table) ∧
      ∀ table, buildTable a (g.followSets g.firstSets) = .ok table →
        ∀ (k : Nat) (s : State), a.states[k]? = some s →
          (∀ t action, table.action? k t = some action ↔
            CallsFor a (g.followSets g.firstSets) s t action) ∧
          (∀ t, table.action? k t = none ↔
            ∀ action, ¬ CallsFor a (g.followSets g.firstSets) s t action) ∧
          ∀ left, a.grammar.isNonterminal left = true →
            table.goto? k left = a.transition k left := by
  have hwf := hg.wellFormed
  have hstart := hg.isNonterminal_start
  obtain ⟨name, hname⟩ : ∃ name, g.name? g.start = some name := by
    obtain ⟨n, hn⟩ := (isNonterminal_iff.mp hstart).2
    exact ⟨n.name, by simp [name?, hn, Symbol.name]⟩
  have hfor := isFor_build hwf hstart name
  refine ⟨build g name, by rw [automaton?, hname]; rfl, ?_, ?_⟩
  · rw [conflicts_eq_nil_iff_conflictFree, exists_tables_iff]
    refine forall_congr' fun k => forall_congr' fun s => forall_congr' fun hs => ?_
    have hitems := holds_build hwf hstart name hs
    exact ⟨decided_of_conflictFree hfor hitems, conflictFree_of_decided hfor hitems hs⟩
  · intro table htable k s hs
    refine ⟨fun t action => action?_eq_some_iff htable hs, fun t => ?_, fun left hleft => ?_⟩
    · rw [Option.eq_none_iff_forall_ne_some]
      simp only [ne_eq, action?_eq_some_iff htable hs]
    · exact goto?_eq_transition htable hleft k

theorem accepting_state_reduces :
    ∃ g a table s, Grammar.read .spaced "S -> A b B | c\nA -> S\nB -> ϵ" = .ok g ∧
      g.automaton? = some a ∧ conflicts a (g.followSets g.firstSets) = [] ∧
      buildTable a (g.followSets g.firstSets) = .ok table ∧ a.states[2]? = some s ∧
      CallsFor a (g.followSets g.firstSets) s endMark .accept ∧
      CallsFor a (g.followSets g.firstSets) s 5 (.reduce 3 0) := by
  have hread : ((Grammar.read .spaced "S -> A b B | c\nA -> S\nB -> ϵ").toOption.bind fun g =>
      g.automaton?.bind fun a => (buildTable a (g.followSets g.firstSets)).toOption.bind
        fun table => a.states[2]?.map fun _ => decide (table.action? 2 endMark = some .accept ∧
          table.action? 2 5 = some (.reduce 3 0))) = some true := by
    decide +kernel
  simp only [Option.bind_eq_some_iff, Option.map_eq_some_iff, toOption_eq_some,
    decide_eq_true_eq] at hread
  obtain ⟨g, hg, a, ha, table, htable, s, hs, haccept, hreduce⟩ := hread
  obtain ⟨a', ha', hfree, hcells⟩ := conflict_free_iff_tables (.read hg)
  obtain rfl : a = a' := Option.some.inj (ha.symm.trans ha')
  have hactions := (hcells table htable 2 s hs).1
  exact ⟨g, a, table, s, hg, ha, hfree.mpr ⟨table, htable⟩, htable, hs,
    (hactions endMark .accept).mp haccept, (hactions 5 (.reduce 3 0)).mp hreduce⟩

end Lookahead.SLR1
