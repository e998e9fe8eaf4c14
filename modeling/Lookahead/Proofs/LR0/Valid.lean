import Lookahead.Proofs.Grammar.Derivation
import Lookahead.Proofs.LR0.Automaton

/-!
Which items can be at work once a string of symbols has been read. An item is valid for a string if
the rules of the automaton lead to it along the string, and the state that the string leads to holds
exactly the items that are valid for it. What an item has seen is the end of the string, and the rest
of the string is one for which its left side is awaited.
-/

namespace Lookahead

namespace Grammar

variable {g : Grammar}

def seen (g : Grammar) (i : Item) : List Nat :=
  Body.visible ((g.body i.left i.production).take i.position)

def ahead (g : Grammar) (i : Item) : List Nat := (g.body i.left i.production).drop i.position

theorem nextSymbol_eq_head? (i : Item) : g.nextSymbol i = (g.ahead i).head? := by
  rw [ahead, List.head?_drop, nextSymbol]

theorem ahead_advance (i : Item) : g.ahead i.advance = (g.ahead i).tail := by
  simp [ahead, Item.advance]

theorem ahead_eq_cons {i : Item} {s : Nat} (hnext : g.nextSymbol i = some s) :
    g.ahead i = s :: g.ahead i.advance := by
  rw [nextSymbol_eq_head?] at hnext
  rw [ahead_advance]
  exact (List.cons_head?_tail hnext).symm

theorem seen_advance {i : Item} {s : Nat} (hnext : g.nextSymbol i = some s) (hs : s ≠ epsilon) :
    g.seen i.advance = g.seen i ++ [s] := by
  unfold seen Item.advance
  simp only [nextSymbol] at hnext ⊢
  rw [List.take_add_one, hnext]
  simp [Body.visible, hs]

theorem seen_of_complete {i : Item} (h : g.nextSymbol i = none) :
    g.seen i = (g.body i.left i.production).visible := by
  have hle := List.getElem?_eq_none_iff.mp h
  rw [seen, List.take_of_length_le hle]

theorem seen_initialItem (left production : Nat) : g.seen (g.initialItem left production) = [] := by
  unfold seen initialItem
  simp only [Body.visible]
  rw [← List.prefix_iff_eq_take.mp (List.takeWhile_prefix _)]
  apply List.filter_eq_nil_iff.mpr
  intro s hs
  have hall := List.all_eq_true.mp (List.all_takeWhile (p := (· == epsilon))) s hs
  simpa using hall

theorem ahead_initialItem (hg : g.WellFormed) {left production : Nat}
    (h : production < (g.bodies left).length) :
    g.ahead (g.initialItem left production) = (g.body left production).visible := by
  have hbody : g.body left production ∈ g.bodies left := (holds_initialItem h).body_mem
  unfold ahead initialItem
  by_cases hempty : g.body left production = [epsilon]
  · simp [hempty]
  · have hvisible := (hg.fits hbody).visible_eq hempty
    have hnone : (g.body left production).takeWhile (· == epsilon) = [] := by
      cases hcons : g.body left production with
      | nil => rfl
      | cons s rest =>
          have hs : s ∈ (g.body left production).visible := by
            rw [hvisible, hcons]
            exact List.mem_cons_self
          have hne := (Body.mem_visible.mp hs).2
          simp [hne]
    simp [hnone, hvisible]

end Grammar

namespace LR0

open Grammar

/-- The item can be at work when the string has been read. -/
inductive Automaton.Valid (a : Automaton) : List Nat → Item → Prop
  | start : a.Valid [] (a.grammar.initialItem a.accept 0)
  | move {string : List Nat} {i : Item} {s : Nat} (source : a.Valid string i)
      (next : a.grammar.nextSymbol i = some s) : a.Valid (string ++ [s]) i.advance
  | expand {string : List Nat} {i j : Item} {left : Nat} (source : a.Valid string i)
      (next : a.grammar.nextSymbol i = some left)
      (isNonterminal : a.grammar.isNonterminal left = true)
      (member : j ∈ a.grammar.initialItems left) : a.Valid string j

variable {a : Automaton}

/-- Before anything is read, the valid items are those of the first state. -/
theorem valid_nil {i : Item} :
    i ∈ a.grammar.closure (.singleton (a.grammar.initialItem a.accept 0)) ↔ a.Valid [] i := by
  rw [mem_closure]
  constructor
  · intro h
    induction h with
    | kernel hmem => exact SortedSet.mem_singleton.mp hmem ▸ .start
    | expand _ hnext hnon hmem ih => exact .expand ih hnext hnon hmem
  · intro h
    generalize hstring : ([] : List Nat) = string at h
    induction h with
    | start => exact .kernel (SortedSet.mem_singleton.mpr rfl)
    | move _ _ _ => simp at hstring
    | expand _ hnext hnon hmem ih => exact .expand (ih hstring) hnext hnon hmem

/-- The items for a longer string are those for the shorter one that await its last symbol, moved
over it, and what these call for. -/
theorem valid_append_singleton {string : List Nat} {s : Nat} {i : Item} :
    a.Valid (string ++ [s]) i ↔ a.grammar.Spawned
      (fun i => ∃ j, a.Valid string j ∧ a.grammar.nextSymbol j = some s ∧ j.advance = i) i := by
  constructor
  · intro h
    generalize hlonger : string ++ [s] = longer at h
    induction h with
    | start => simp at hlonger
    | move hsource hnext _ =>
        obtain ⟨rfl, hs⟩ := List.append_inj' hlonger rfl
        cases hs
        exact .kernel ⟨_, hsource, hnext, rfl⟩
    | expand _ hnext hnon hmem ih => exact .expand (ih hlonger) hnext hnon hmem
  · intro h
    induction h with
    | kernel hmem =>
        obtain ⟨j, hj, hnext, rfl⟩ := hmem
        exact .move hj hnext
    | expand _ hnext hnon hmem ih => exact .expand ih hnext hnon hmem

/-- An item stays valid as its dot moves along. -/
theorem Automaton.Valid.move_along {string before after : List Nat} {i : Item}
    (h : a.Valid string i) (hahead : a.grammar.ahead i = before ++ after) :
    a.Valid (string ++ before) { i with position := i.position + before.length } := by
  induction before generalizing string i with
  | nil => simpa using h
  | cons s before ih =>
      have hnext : a.grammar.nextSymbol i = some s := by
        rw [nextSymbol_eq_head?, hahead]
        rfl
      have htail : a.grammar.ahead i.advance = before ++ after := by
        rw [ahead_advance, hahead]
        rfl
      have hmoved := ih (h.move hnext) htail
      simpa [Item.advance, Nat.add_assoc, Nat.add_comm 1] using hmoved

/-- Once all symbols ahead have been read, the item is complete. -/
theorem Automaton.Valid.move_over {string upper : List Nat} {i : Item}
    (h : a.Valid string i) (hahead : a.grammar.ahead i = upper) :
    ∃ j, a.Valid (string ++ upper) j ∧ j.left = i.left ∧ j.production = i.production ∧
      a.grammar.nextSymbol j = none := by
  have hwhole : a.grammar.ahead i = upper ++ [] := by rw [hahead, List.append_nil]
  refine ⟨_, h.move_along hwhole, rfl, rfl, List.getElem?_eq_none ?_⟩
  have hlength := congrArg List.length hahead
  simp only [ahead, List.length_drop] at hlength
  exact Nat.sub_le_iff_le_add'.mp hlength.le

/-- From the items that are valid for a string, those over a symbol are valid for the string with this
symbol behind it. -/
theorem mem_goto_iff_valid {items : ItemSet} {string : List Nat}
    (h : ∀ i, i ∈ items ↔ a.Valid string i) {s : Nat} {i : Item} :
    i ∈ a.grammar.goto items s ↔ a.Valid (string ++ [s]) i := by
  rw [mem_goto, valid_append_singleton]
  simp only [h]

def Automaton.walk? (a : Automaton) (string : List Nat) : Option Nat :=
  string.foldlM a.transition 0

theorem Automaton.walk?_append_singleton {string : List Nat} {s k : Nat} :
    a.walk? (string ++ [s]) = some k ↔
      ∃ j, a.walk? string = some j ∧ a.transition j s = some k := by
  simp [Automaton.walk?, List.foldlM_append, Option.bind_eq_some_iff]

theorem Automaton.transition_eq_find? {k : Nat} {s : State} (hs : a.states[k]? = some s)
    (symbol : Nat) : a.transition k symbol = s.edges.find? symbol := by
  simp [Automaton.transition, hs]

/-- A string leads to the items that are valid for it. -/
theorem Automaton.Complete.valid_of_walk? {symbols : List Nat} (ha : a.Complete symbols)
    {string : List Nat} {k : Nat} (h : a.walk? string = some k) :
    ∃ s, a.states[k]? = some s ∧ ∀ i, i ∈ s.items ↔ a.Valid string i := by
  induction string using List.reverseRecOn generalizing k with
  | nil =>
      cases h
      obtain ⟨s, hs, hitems⟩ := ha.start
      exact ⟨s, hs, fun i => hitems ▸ valid_nil⟩
  | append_singleton string symbol ih =>
      obtain ⟨j, hj, hedge⟩ := walk?_append_singleton.mp h
      obtain ⟨s, hs, hvalid⟩ := ih hj
      rw [transition_eq_find? hs] at hedge
      obtain ⟨target, htarget, hitems⟩ := ha.target hs hedge
      exact ⟨target, htarget, fun i => hitems ▸ mem_goto_iff_valid hvalid⟩

/-- Whatever comes next in a string that can be read is awaited. -/
theorem Automaton.Valid.exists_awaiting {u v : List Nat} {s : Nat} {i : Item}
    (h : a.Valid (u ++ s :: v) i) : ∃ j, a.Valid u j ∧ a.grammar.nextSymbol j = some s := by
  induction v using List.reverseRecOn generalizing i with
  | nil =>
      have hspawned := valid_append_singleton.mp h
      induction hspawned with
      | kernel hmem =>
          obtain ⟨j, hj, hnext, -⟩ := hmem
          exact ⟨j, hj, hnext⟩
      | expand hsource _ _ _ ih => exact ih (valid_append_singleton.mpr hsource)
  | append_singleton v r ih =>
      rw [← List.cons_append, ← List.append_assoc] at h
      have hspawned := valid_append_singleton.mp h
      induction hspawned with
      | kernel hmem =>
          obtain ⟨j, hj, -⟩ := hmem
          exact ih hj
      | expand hsource _ _ _ ih => exact ih (valid_append_singleton.mpr hsource)

/-- Strings with the same valid items have the same ones after any further symbols. -/
theorem valid_append_congr {u v : List Nat} (h : ∀ i, a.Valid u i ↔ a.Valid v i)
    (rest : List Nat) : ∀ i, a.Valid (u ++ rest) i ↔ a.Valid (v ++ rest) i := by
  induction rest generalizing u v with
  | nil => simpa using h
  | cons s rest ih =>
      have hsnoc : ∀ i, a.Valid (u ++ [s]) i ↔ a.Valid (v ++ [s]) i := by
        intro i
        rw [valid_append_singleton, valid_append_singleton]
        simp only [h]
      simpa using ih hsnoc

/-! The items of an automaton for a grammar. -/

section IsFor

variable {g : Grammar} (ha : a.IsFor g)

include ha

theorem ahead_start : a.grammar.ahead
    (a.grammar.initialItem a.accept 0) = [g.start] := by
  have hlt : 0 < (a.grammar.bodies a.accept).length := by
    simp [ha.bodies_accept]
  have hbody : a.grammar.body a.accept 0 = [g.start] := by
    simp [Grammar.body, ha.bodies_accept]
  have hne : g.start ≠ epsilon := ha.start_ne_epsilon
  rw [ahead_initialItem ha.grammar_wellFormed hlt, hbody]
  simp [Body.visible, hne]

/-- An alternative of an awaited nonterminal is at work from its start. -/
theorem Automaton.Valid.initial {string : List Nat} {i : Item} {left production : Nat} {body : Body}
    (h : a.Valid string i) (hnext : a.grammar.nextSymbol i = some left)
    (hbody : (g.bodies left)[production]? = some body) :
    a.Valid string (a.grammar.initialItem left production) ∧
      a.grammar.body left production = body ∧
      a.grammar.ahead (a.grammar.initialItem left production) = body.visible := by
  have hnon := ha.wellFormed.isNonterminal_of_mem_bodies (List.mem_of_getElem? hbody)
  have hbodies : a.grammar.bodies left = g.bodies left :=
    ha.bodies_of_ne (ha.ne_accept (lt_size_of_isNonterminal hnon))
  have hlt : production < (a.grammar.bodies left).length := by
    rw [hbodies]
    exact (List.getElem?_eq_some_iff.mp hbody).1
  have hget : a.grammar.body left production = body := by
    simp [Grammar.body, hbodies, hbody]
  have hnon' : a.grammar.isNonterminal left = true :=
    ha.isNonterminal_of hnon
  refine ⟨.expand h hnext hnon' (mem_initialItems.mpr ⟨production, hlt, rfl⟩), hget, ?_⟩
  rw [ahead_initialItem ha.grammar_wellFormed hlt, hget]

theorem Automaton.Valid.exists_initial {string : List Nat} {i : Item} {left : Nat} {body : Body}
    (h : a.Valid string i)
    (hnext : a.grammar.nextSymbol i = some left) (hbody : body ∈ g.bodies left) :
    ∃ j, a.Valid string j ∧ j.left = left ∧
      a.grammar.body j.left j.production = body ∧
      a.grammar.ahead j = body.visible := by
  obtain ⟨production, hproduction⟩ := List.mem_iff_getElem?.mp hbody
  obtain ⟨hinitial, hget, hahead⟩ := h.initial ha hnext hproduction
  exact ⟨_, hinitial, rfl, hget, hahead⟩

/-- An alternative of an awaited nonterminal is complete once it has been read. -/
theorem Automaton.Valid.exists_complete {string : List Nat} {i : Item} {left production : Nat}
    {body : Body} (h : a.Valid string i) (hnext : a.grammar.nextSymbol i = some left)
    (hbody : (g.bodies left)[production]? = some body) :
    ∃ j, a.Valid (string ++ body.visible) j ∧ j.left = left ∧ j.production = production ∧
      a.grammar.nextSymbol j = none := by
  obtain ⟨hinitial, -, hahead⟩ := h.initial ha hnext hbody
  exact hinitial.move_over hahead

theorem Automaton.Valid.holds {string : List Nat} {i : Item}
    (h : a.Valid string i) : a.grammar.Holds i := by
  induction h with
  | start => exact holds_initialItem (by simp [ha.bodies_accept])
  | move _ hnext ih => exact ih.advance hnext
  | expand _ _ _ hmem _ =>
      obtain ⟨production, hlt, rfl⟩ := mem_initialItems.mp hmem
      exact holds_initialItem hlt

/-- All symbols of the alternatives but the empty string are symbols of the grammar itself. -/
theorem lt_size_of_mem_visible {left s : Nat} {body : Body}
    (hbody : body ∈ a.grammar.bodies left) (hs : s ∈ body.visible) :
    endMark < s ∧ s < g.size := by
  by_cases hleft : left = a.accept
  · rw [hleft, ha.bodies_accept] at hbody
    obtain rfl := List.mem_singleton.mp hbody
    obtain rfl := List.mem_singleton.mp (Body.mem_visible.mp hs).1
    refine ⟨?_, lt_size_of_isNonterminal ha.isNonterminal_start⟩
    exact (ha.grammar_wellFormed.fits
      (ha.bodies_accept ▸ List.mem_singleton_self _)).visible _ hs |>.1
  · rw [ha.bodies_of_ne hleft] at hbody
    exact (ha.wellFormed.fits hbody).visible s hs

namespace Automaton.Valid

variable {string : List Nat} {i : Item}

theorem mem_ahead (h : a.Valid string i) :
    ∀ s ∈ a.grammar.ahead i, endMark < s ∧ s < g.size := by
  have hinitial {left production : Nat}
      (hlt : production < (a.grammar.bodies left).length) :
      ∀ s ∈ a.grammar.ahead (a.grammar.initialItem left production),
        endMark < s ∧ s < g.size := by
    intro s hs
    rw [ahead_initialItem ha.grammar_wellFormed hlt] at hs
    exact lt_size_of_mem_visible ha (holds_initialItem hlt).body_mem hs
  induction h with
  | start => exact hinitial (by simp [ha.bodies_accept])
  | move _ _ ih =>
      intro s hs
      rw [ahead_advance] at hs
      exact ih s (List.mem_of_mem_tail hs)
  | expand _ _ _ hmem _ =>
      obtain ⟨production, hlt, rfl⟩ := mem_initialItems.mp hmem
      exact hinitial hlt

theorem next_lt {s : Nat} (h : a.Valid string i)
    (hnext : a.grammar.nextSymbol i = some s) : endMark < s ∧ s < g.size := by
  rw [nextSymbol_eq_head?] at hnext
  exact h.mem_ahead ha s (List.mem_of_head? hnext)

theorem next_mem_alphabet {s : Nat} (h : a.Valid string i)
    (hnext : a.grammar.nextSymbol i = some s) : s ∈ alphabet g := by
  obtain ⟨hend, hlt⟩ := h.next_lt ha hnext
  exact ha.mem_alphabet hend hlt

/-- Every string that the automaton can read leads to a state. -/
theorem exists_walk? (h : a.Valid string i) : ∃ k, a.walk? string = some k := by
  induction string using List.reverseRecOn generalizing i with
  | nil => exact ⟨0, rfl⟩
  | append_singleton string symbol ih =>
      obtain ⟨j, hj, hnext⟩ := h.exists_awaiting
      obtain ⟨k, hk⟩ := ih hj
      obtain ⟨s, hs, hvalid⟩ := ha.complete.valid_of_walk? hk
      obtain ⟨k', hedge⟩ := ha.complete.leads hs (hj.next_mem_alphabet ha hnext)
        ((hvalid j).mpr hj) hnext
      exact ⟨k', walk?_append_singleton.mpr ⟨k, hk, (transition_eq_find? hs symbol).trans hedge⟩⟩

theorem exists_state (h : a.Valid string i) :
    ∃ (k : Nat) (s : State), a.states[k]? = some s ∧ ∀ j, j ∈ s.items ↔ a.Valid string j := by
  obtain ⟨k, hk⟩ := h.exists_walk? ha
  exact ⟨k, ha.complete.valid_of_walk? hk⟩

/-- What an item has seen ends the string, and the left side is awaited before that. The item of the
added nonterminal has seen the whole string. -/
theorem origin (h : a.Valid string i) :
    ∃ front, string = front ++ a.grammar.seen i ∧
      (i.left = a.accept ∧ front = [] ∨ i.left ≠ a.accept ∧
        ∃ j, a.Valid front j ∧
          a.grammar.nextSymbol j = some i.left) := by
  induction h with
  | start => exact ⟨[], by rw [seen_initialItem, List.append_nil], .inl ⟨rfl, rfl⟩⟩
  | @move string i s hsource hnext ih =>
      obtain ⟨front, hstring, horigin⟩ := ih
      have hne := ne_epsilon_of_lt (hsource.next_lt ha hnext).1
      exact ⟨front, by rw [seen_advance hnext hne, hstring, List.append_assoc], horigin⟩
  | expand hsource hnext _ hmem _ =>
      obtain ⟨production, -, rfl⟩ := mem_initialItems.mp hmem
      have hne := ha.ne_accept (hsource.next_lt ha hnext).2
      exact ⟨_, by rw [seen_initialItem, List.append_nil], .inr ⟨hne, _, hsource, hnext⟩⟩

theorem endMark_lt (h : a.Valid string i) : ∀ s ∈ string, endMark < s := by
  induction h with
  | start => simp
  | move hsource hnext ih =>
      intro s hs
      rcases List.mem_append.mp hs with hs | hs
      · exact ih s hs
      · obtain rfl := List.mem_singleton.mp hs
        exact (hsource.next_lt ha hnext).1
  | expand _ _ _ _ ih => exact ih

/-- Some sentence goes on with what the item has ahead. -/
theorem exists_derives (h : a.Valid string i) :
    ∃ after, g.Derives [g.start, endMark]
      (string ++ (a.grammar.ahead i ++ after)) := by
  induction h with
  | start =>
      refine ⟨[endMark], ?_⟩
      rw [ahead_start ha]
      exact .refl
  | @move string i s _ hnext ih =>
      obtain ⟨after, hder⟩ := ih
      refine ⟨after, ?_⟩
      rw [ahead_eq_cons hnext] at hder
      simpa using hder
  | @expand string i j left hsource hnext _ hmem ih =>
      obtain ⟨after, hder⟩ := ih
      obtain ⟨production, hlt, rfl⟩ := mem_initialItems.mp hmem
      have hleft : left ≠ a.accept := ha.ne_accept (hsource.next_lt ha hnext).2
      have hbody := (holds_initialItem hlt).body_mem
      rw [ahead_initialItem ha.grammar_wellFormed hlt]
      simp only [initialItem, ha.bodies_of_ne hleft] at hbody
      refine ⟨a.grammar.ahead i.advance ++ after, ?_⟩
      rw [ahead_eq_cons hnext] at hder
      simpa using hder.tail (produces_of_mem hbody string _)

/-- Only the start symbol itself leads to acceptance. -/
theorem eq_start (h : a.Valid string i) (hleft : i.left = a.accept)
    (hcomplete : a.grammar.nextSymbol i = none) : string = [g.start] := by
  obtain ⟨front, hstring, ⟨-, rfl⟩ | ⟨hne, -⟩⟩ := h.origin ha
  · have hbody : a.grammar.body i.left i.production = [g.start] := by
      have hmem := (h.holds ha).body_mem
      rw [hleft, ha.bodies_accept] at hmem
      rw [hleft]
      exact List.mem_singleton.mp hmem
    have hne : g.start ≠ epsilon := ha.start_ne_epsilon
    rw [hstring, seen_of_complete hcomplete, hbody]
    simp [Body.visible, hne]
  · exact absurd hleft hne

/-- A complete item other than that of the added nonterminal has its alternative at the end of the
string. -/
theorem complete_origin (h : a.Valid string i)
    (hleft : i.left ≠ a.accept)
    (hcomplete : a.grammar.nextSymbol i = none) :
    g.body i.left i.production ∈ g.bodies i.left ∧
      ∃ front, string = front ++ (g.body i.left i.production).visible ∧
        ∃ j, a.Valid front j ∧
          a.grammar.nextSymbol j = some i.left := by
  have hmem := (h.holds ha).body_mem
  rw [ha.bodies_of_ne hleft, ha.body_of_ne hleft] at hmem
  obtain ⟨front, hstring, ⟨heq, -⟩ | ⟨-, hawaited⟩⟩ := h.origin ha
  · exact absurd heq hleft
  · rw [seen_of_complete hcomplete, ha.body_of_ne hleft] at hstring
    exact ⟨hmem, front, hstring, hawaited⟩

end Automaton.Valid

end IsFor

end LR0
end Lookahead
