import Lookahead.Proofs.Fallible
import Lookahead.Proofs.SortedMap
import Lookahead.SLR1.Table

/-!
What stands in the tables of an automaton: a cell holds an action exactly if some item of its state
calls for the action, and the gotos of a state are its edges over nonterminals.
-/

namespace Lookahead.SLR1

open LR0

variable {a : Automaton} {follow : FollowSets} {table : Table}

theorem fills_row (state : Nat) :
    Fills (fun (row : SortedMap Nat Action) t => row.find? t) (fill state) := by
  intro row t action row' h
  unfold fill at h
  split at h
  · next other hother =>
      split at h
      · next hsame =>
          cases h
          subst hsame
          refine ⟨.inr hother, fun x => ?_⟩
          split
          · next hx => exact hx ▸ hother
          · rfl
      · cases h
  · next hnone =>
      cases h
      exact ⟨.inl hnone, fun x => SortedMap.find?_insert _ _ _ _⟩

/-- A cell holds an action exactly when an item of the state calls for it. -/
theorem action?_iff (h : buildTable a follow = .ok table) {k t : Nat} {action : Action} :
    table.action? k t = some action ↔
      ∃ s, a.states[k]? = some s ∧ ∃ i ∈ s.items, (t, action) ∈ actionsOf a follow s i := by
  unfold buildTable at h
  obtain ⟨actions, hactions, h⟩ := bind_eq_ok.mp h
  cases h
  have hrows := forall₂_of_mapM_eq_ok hactions
  have hlength : actions.length = a.states.size := by simpa using hrows.length_eq.symm
  simp only [Table.action?, List.getElem?_toArray, Option.bind_eq_some_iff]
  cases hs : a.states[k]? with
  | none =>
      have hnone : actions[k]? = none := by
        rw [List.getElem?_eq_none_iff, hlength]
        exact Array.getElem?_eq_none_iff.mp hs
      simp [hnone]
  | some s =>
      obtain ⟨hlt, rfl⟩ := Array.getElem?_eq_some_iff.mp hs
      have hrow : actionRow a follow a.states[k] k = .ok actions[k] := by
        have hget := hrows.get (i := k) (by simpa using hlt) (by omega)
        simpa using hget
      have hmem := (fills_row k).look_foldlM hrow t action
      simp only [SortedMap.find?_empty, reduceCtorEq, false_or, List.mem_flatMap] at hmem
      simp [hlength, hlt, hmem, SortedSet.mem_def]

theorem shift_mem_actionsOf {s : State} {i : Item} {t target : Nat} :
    (t, Action.shift target) ∈ actionsOf a follow s i ↔
      a.grammar.nextSymbol i = some t ∧ a.grammar.isTerminal t = true ∧
        s.edges.find? t = some target := by
  unfold actionsOf
  split
  · next symbol hnext =>
      rw [hnext]
      split
      · next hterm =>
          simp only [Option.mem_toList, Option.map_eq_some_iff, Prod.mk.injEq,
            Action.shift.injEq, Option.some.injEq]
          constructor
          · rintro ⟨j, hedge, rfl, rfl⟩
            exact ⟨rfl, hterm, hedge⟩
          · rintro ⟨rfl, -, hedge⟩
            exact ⟨target, hedge, rfl, rfl⟩
      · next hterm =>
          simp only [List.not_mem_nil, Option.some.injEq, false_iff]
          rintro ⟨rfl, h, -⟩
          exact hterm h
  · next hnext =>
      rw [hnext]
      split <;> simp

theorem reduce_mem_actionsOf {s : State} {i : Item} {t left production : Nat} :
    (t, Action.reduce left production) ∈ actionsOf a follow s i ↔
      a.grammar.nextSymbol i = none ∧ i.left ≠ a.accept ∧ i.left = left ∧
        i.production = production ∧ t ∈ follow.ofSymbol left := by
  unfold actionsOf
  split
  · next hnext =>
      rw [hnext]
      split <;> simp
  · next hnext =>
      rw [hnext]
      split
      · next hleft => simp [hleft]
      · next hleft =>
          simp only [List.mem_map, Prod.mk.injEq, Action.reduce.injEq, ← SortedSet.mem_def]
          constructor
          · rintro ⟨t, ht, rfl, rfl, rfl⟩
            exact ⟨trivial, hleft, rfl, rfl, ht⟩
          · rintro ⟨-, -, rfl, rfl, ht⟩
            exact ⟨t, ht, rfl, rfl, rfl⟩

theorem accept_mem_actionsOf {s : State} {i : Item} {t : Nat} :
    (t, Action.accept) ∈ actionsOf a follow s i ↔
      a.grammar.nextSymbol i = none ∧ i.left = a.accept ∧ t = endMark := by
  unfold actionsOf
  split
  · next hnext =>
      rw [hnext]
      split <;> simp
  · next hnext =>
      rw [hnext]
      split
      · next hleft => simp [hleft]
      · next hleft => simp [hleft]

/-- A goto cell holds the state that an edge over a nonterminal leads to. -/
theorem goto?_iff (h : buildTable a follow = .ok table) {k left j : Nat} :
    table.goto? k left = some j ↔
      ∃ s, a.states[k]? = some s ∧ a.grammar.isNonterminal left = true ∧
        s.edges.find? left = some j := by
  unfold buildTable at h
  obtain ⟨actions, -, h⟩ := bind_eq_ok.mp h
  cases h
  have hrow (s : State) : (gotoRow a s).find? left = some j ↔
      a.grammar.isNonterminal left = true ∧ s.edges.find? left = some j := by
    have hnodup : ((s.edges.entries.filter fun e => a.grammar.isNonterminal e.1).map
        (·.1)).Nodup :=
      s.edges.nodup_keys.sublist (List.filter_sublist.map _)
    rw [gotoRow, SortedMap.find?_ofList hnodup, List.mem_filter, SortedMap.find?_eq_some_iff]
    exact and_comm
  simp [Table.goto?, Option.bind_eq_some_iff, hrow]

end Lookahead.SLR1
