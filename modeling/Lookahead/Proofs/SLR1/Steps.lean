import Lookahead.Proofs.LR0.Valid
import Lookahead.Proofs.Machine.Steps
import Lookahead.Proofs.SLR1.Table
import Lookahead.Proofs.Sets.Follow
import Lookahead.SLR1.Machine

/-!
The turns of the shift-reduce machine, seen through the symbols on its stack. Each state on the
stack holds the items that are valid for the symbols up to it, so that what the machine does depends
only on the string of symbols and on the terminal at hand.
-/

namespace Lookahead.SLR1

open Machine Grammar LR0

/-- The states of a stack hold the items that are valid for the string of its symbols. -/
inductive Traces (a : Automaton) : List Entry → List Nat → Prop
  | nil : Traces a [] []
  | push {stack : List Entry} {string : List Nat} {symbol k : Nat} {s : State}
      (below : Traces a stack string) (state : a.states[k]? = some s)
      (valid : ∀ i, i ∈ s.items ↔ a.Valid (string ++ [symbol]) i) :
      Traces a (⟨symbol, k⟩ :: stack) (string ++ [symbol])

/-- With the terminal `t` at hand, an alternative at the end of the string may be replaced by its left
side: its item is valid and complete, and `t` is in the FOLLOW set of the left side. -/
def Reduces (a : Automaton) (follow : FollowSets) (t : Nat) (string string' : List Nat) : Prop :=
  ∃ front i, a.Valid string i ∧ a.grammar.nextSymbol i = none ∧ i.left ≠ a.accept ∧
    t ∈ follow.ofSymbol i.left ∧
    string = front ++ (a.grammar.body i.left i.production).visible ∧ string' = front ++ [i.left]

def Shifts (a : Automaton) (t : Nat) (string : List Nat) : Prop :=
  ∃ i, a.Valid string i ∧ a.grammar.nextSymbol i = some t ∧ a.grammar.isTerminal t = true

variable {a : Automaton} {symbols : List Nat} {follow : FollowSets} {table : Table}

namespace Traces

variable {stack : List Entry} {string : List Nat}

theorem length_eq (h : Traces a stack string) : stack.length = string.length := by
  induction h with
  | nil => rfl
  | push _ _ _ ih => simp [ih]

/-- The top state holds the items that are valid for the whole string. -/
theorem top (ha : a.Complete symbols) (h : Traces a stack string) :
    ∃ s, a.states[topState stack]? = some s ∧ ∀ i, i ∈ s.items ↔ a.Valid string i := by
  cases h with
  | nil =>
      obtain ⟨s, hs, hitems⟩ := ha.start
      exact ⟨s, hs, fun i => hitems ▸ valid_nil⟩
  | push _ hs hvalid => exact ⟨_, hs, hvalid⟩

theorem drop {front back : List Nat} (h : Traces a stack (front ++ back)) :
    Traces a (stack.drop back.length) front := by
  induction back using List.reverseRecOn generalizing stack with
  | nil => simpa using h
  | append_singleton back s ih =>
      generalize hstring : front ++ (back ++ [s]) = string at h
      cases h with
      | nil => simp at hstring
      | push hbelow _ _ =>
          rw [← List.append_assoc] at hstring
          obtain ⟨rfl, -⟩ := List.append_inj' hstring rfl
          simpa using ih hbelow

theorem push_edge (ha : a.Complete symbols) (h : Traces a stack string) {s : State}
    (hs : a.states[topState stack]? = some s) {symbol j : Nat}
    (hedge : s.edges.find? symbol = some j) :
    Traces a (⟨symbol, j⟩ :: stack) (string ++ [symbol]) := by
  obtain ⟨s₀, hs₀, hvalid⟩ := h.top ha
  obtain rfl : s = s₀ := Option.some.inj (hs.symm.trans hs₀)
  obtain ⟨target, htarget, hitems⟩ := ha.target hs hedge
  refine .push h htarget fun i => ?_
  rw [hitems]
  exact mem_goto_iff_valid hvalid

end Traces

/-- Every string that the automaton can read has a stack. -/
theorem exists_traces (ha : a.Complete symbols)
    (hsymbols : ∀ {string i s}, a.Valid string i → a.grammar.nextSymbol i = some s → s ∈ symbols)
    {string : List Nat} {i : Item} (hi : a.Valid string i) : ∃ stack, Traces a stack string := by
  induction string using List.reverseRecOn generalizing i with
  | nil => exact ⟨[], .nil⟩
  | append_singleton string s ih =>
      obtain ⟨j, hj, hnext⟩ := hi.exists_awaiting
      obtain ⟨stack, htraces⟩ := ih hj
      obtain ⟨state, hstate, hvalid⟩ := htraces.top ha
      obtain ⟨k, hedge⟩ := ha.leads hstate (hsymbols hj hnext) ((hvalid j).mpr hj) hnext
      exact ⟨_, htraces.push_edge ha hstate hedge⟩

/-- An alternative that the automaton can start to read can be reduced once it has been read. -/
theorem reduces_of_ahead {t : Nat} {string : List Nat} {i : Item} (hi : a.Valid string i)
    (hahead : a.grammar.ahead i = (a.grammar.body i.left i.production).visible)
    (hleft : i.left ≠ a.accept) (ht : t ∈ follow.ofSymbol i.left) :
    Reduces a follow t (string ++ (a.grammar.body i.left i.production).visible)
      (string ++ [i.left]) := by
  obtain ⟨last, hlast, hsame, hproduction, hdone⟩ := hi.move_over hahead
  exact ⟨string, last, hlast, hdone, hsame ▸ hleft, hsame ▸ ht, by rw [hsame, hproduction],
    by rw [hsame]⟩

section IsFor

variable {g : Grammar} (ha : a.IsFor g) (htable : buildTable a follow = .ok table)
  {stack : List Entry} {string : List Nat} {rest : List Token} {t : Nat}

include ha htable

/-- The edge that a reduction takes after its alternative is off the stack. -/
theorem exists_goto {i j : Item} {front : List Nat} (h : Traces a stack front)
    (hj : a.Valid front j) (hnext : a.grammar.nextSymbol j = some i.left)
    (hi : g.isNonterminal i.left = true) :
    ∃ k, table.goto? (topState stack) i.left = some k ∧
      Traces a (⟨i.left, k⟩ :: stack) (front ++ [i.left]) := by
  have hcomplete := ha.complete
  obtain ⟨s, hs, hvalid⟩ := h.top hcomplete
  obtain ⟨k, hedge⟩ := hcomplete.leads hs (hj.next_mem_alphabet ha hnext) ((hvalid j).mpr hj) hnext
  exact ⟨k, (goto?_iff htable).mpr ⟨s, hs, ha.isNonterminal_of hi, hedge⟩,
    h.push_edge hcomplete hs hedge⟩

/-- A reduction that the table calls for can be carried out. -/
theorem reduce_of_valid (rest : List Token) (h : Traces a stack string) {i : Item}
    (hi : a.Valid string i) (hcomplete : a.grammar.nextSymbol i = none)
    (hleft : i.left ≠ a.accept) :
    ∃ front stack', string = front ++ (g.body i.left i.production).visible ∧
      reduce g table ⟨stack, rest⟩ i.left i.production =
        .next (.reduce i.left i.production) ⟨stack', rest⟩ ∧
      Traces a stack' (front ++ [i.left]) := by
  obtain ⟨hbody, front, rfl, j, hj, hnext⟩ := hi.complete_origin ha hleft hcomplete
  have hnon := ha.wellFormed.isNonterminal_of_mem_bodies hbody
  obtain ⟨k, hgoto, htraces⟩ := exists_goto ha htable h.drop hj hnext hnon
  refine ⟨front, _, rfl, ?_, htraces⟩
  have hnames : (g.names? (i.left :: g.body i.left i.production)).isSome = true := by
    refine isSome_names? fun s hs => ?_
    rcases List.mem_cons.mp hs with rfl | hs
    · exact lt_size_of_isNonterminal hnon
    · exact (ha.wellFormed.fits hbody).lt_size ha.wellFormed s hs
  have hlength : ¬ stack.length < (g.body i.left i.production).visible.length := by
    rw [h.length_eq, List.length_append]
    omega
  simp [reduce, Option.isSome_iff_ne_none.mp hnames, hlength, hgoto]

/-- Where the string may go on with the terminal at hand, the machine shifts it. -/
theorem goes_shift (h : Traces a stack string)
    (hcurrent : (Config.mk stack rest).current = some t) (hshift : Shifts a t string) :
    ∃ j, Goes (turn g table) ⟨stack, rest⟩ ⟨⟨t, j⟩ :: stack, rest.tail⟩ ∧
      Traces a (⟨t, j⟩ :: stack) (string ++ [t]) := by
  have hcomplete := ha.complete
  obtain ⟨i, hi, hnext, hterm⟩ := hshift
  obtain ⟨s, hs, hvalid⟩ := h.top hcomplete
  have hmem : i ∈ s.items := (hvalid i).mpr hi
  obtain ⟨j, hedge⟩ := hcomplete.leads hs (hi.next_mem_alphabet ha hnext) hmem hnext
  have haction : table.action? (topState stack) t = some (.shift j) :=
    (action?_iff htable).mpr ⟨s, hs, i, hmem, shift_mem_actionsOf.mpr ⟨hnext, hterm, hedge⟩⟩
  refine ⟨j, ⟨.shift j, ?_⟩, h.push_edge hcomplete hs hedge⟩
  simp [turn, hcurrent, haction]

/-- Where an alternative may be reduced, the machine reduces it. -/
theorem goes_reduce (h : Traces a stack string)
    (hcurrent : (Config.mk stack rest).current = some t) {string' : List Nat}
    (hreduces : Reduces a follow t string string') :
    ∃ stack', Goes (turn g table) ⟨stack, rest⟩ ⟨stack', rest⟩ ∧ Traces a stack' string' := by
  obtain ⟨front, i, hi, hcomplete, hleft, hfollow, hstring, rfl⟩ := hreduces
  obtain ⟨s, hs, hvalid⟩ := h.top ha.complete
  have haction : table.action? (topState stack) t = some (.reduce i.left i.production) :=
    (action?_iff htable).mpr ⟨s, hs, i, (hvalid i).mpr hi,
      reduce_mem_actionsOf.mpr ⟨hcomplete, hleft, rfl, rfl, hfollow⟩⟩
  obtain ⟨front', stack', hstring', hreduce, htraces⟩ :=
    reduce_of_valid ha htable rest h hi hcomplete hleft
  rw [ha.body_of_ne hleft] at hstring
  obtain rfl : front' = front := List.append_cancel_right (hstring'.symm.trans hstring)
  refine ⟨stack', ⟨.reduce i.left i.production, ?_⟩, htraces⟩
  simp [turn, hcurrent, haction, hreduce]

theorem halt_accept (h : Traces a stack string)
    (hcurrent : (Config.mk stack rest).current = some endMark) {i : Item}
    (hi : a.Valid string i) (hleft : i.left = a.accept)
    (hcomplete : a.grammar.nextSymbol i = none) :
    turn g table ⟨stack, rest⟩ = .halt .accept true := by
  obtain ⟨s, hs, hvalid⟩ := h.top ha.complete
  have haction : table.action? (topState stack) endMark = some .accept :=
    (action?_iff htable).mpr ⟨s, hs, i, (hvalid i).mpr hi,
      accept_mem_actionsOf.mpr ⟨hcomplete, hleft, rfl⟩⟩
  simp [turn, hcurrent, haction]

/-- All that the machine can do in a configuration whose states fit its symbols, with the item that
calls for it. -/
theorem turn_inversion (h : Traces a stack string) (rest : List Token) :
    turn g table ⟨stack, rest⟩ = .halt .reject false ∨
    (turn g table ⟨stack, rest⟩ = .halt .accept true ∧
      (Config.mk stack rest).current = some endMark ∧ string = [g.start]) ∨
    (∃ t j, turn g table ⟨stack, rest⟩ = .next (.shift j) ⟨⟨t, j⟩ :: stack, rest.tail⟩ ∧
      (Config.mk stack rest).current = some t ∧ Shifts a t string ∧
      Traces a (⟨t, j⟩ :: stack) (string ++ [t])) ∨
    ∃ t front i stack', turn g table ⟨stack, rest⟩ =
        .next (.reduce i.left i.production) ⟨stack', rest⟩ ∧
      (Config.mk stack rest).current = some t ∧ a.Valid string i ∧
      a.grammar.nextSymbol i = none ∧ i.left ≠ a.accept ∧ t ∈ follow.ofSymbol i.left ∧
      string = front ++ (g.body i.left i.production).visible ∧
      Traces a stack' (front ++ [i.left]) := by
  have hcomplete := ha.complete
  obtain ⟨s, hs, hvalid⟩ := h.top hcomplete
  have hitem {t : Nat} {action : Action} (haction : table.action? (topState stack) t = some action) :
      ∃ i, a.Valid string i ∧ (t, action) ∈ actionsOf a follow s i := by
    obtain ⟨s', hs', i, hi, hmem⟩ := (action?_iff htable).mp haction
    obtain rfl : s = s' := Option.some.inj (hs.symm.trans hs')
    exact ⟨i, (hvalid i).mp hi, hmem⟩
  unfold turn
  split
  · exact .inl rfl
  · next t ht =>
      split
      · next j haction =>
          obtain ⟨i, hi, hmem⟩ := hitem haction
          obtain ⟨hnext, hterm, hedge⟩ := shift_mem_actionsOf.mp hmem
          exact .inr (.inr (.inl
            ⟨t, j, rfl, ht, ⟨i, hi, hnext, hterm⟩, h.push_edge hcomplete hs hedge⟩))
      · next left production haction =>
          obtain ⟨i, hi, hmem⟩ := hitem haction
          obtain ⟨hdone, hleft, rfl, rfl, hfollow⟩ := reduce_mem_actionsOf.mp hmem
          obtain ⟨front, stack', hstring, hreduce, htraces⟩ :=
            reduce_of_valid ha htable rest h hi hdone hleft
          exact .inr (.inr (.inr ⟨t, front, i, stack', hreduce, ht, hi, hdone, hleft, hfollow,
            hstring, htraces⟩))
      · next haction =>
          obtain ⟨i, hi, hmem⟩ := hitem haction
          obtain ⟨hdone, hleft, rfl⟩ := accept_mem_actionsOf.mp hmem
          exact .inr (.inl ⟨rfl, ht, hi.eq_start ha hleft hdone⟩)
      · exact .inl rfl

/-- What the machine can do, seen through the string alone. -/
theorem turn_cases (h : Traces a stack string) (rest : List Token) :
    turn g table ⟨stack, rest⟩ = .halt .reject false ∨
    (turn g table ⟨stack, rest⟩ = .halt .accept true ∧
      (Config.mk stack rest).current = some endMark ∧ string = [g.start]) ∨
    (∃ t j, turn g table ⟨stack, rest⟩ = .next (.shift j) ⟨⟨t, j⟩ :: stack, rest.tail⟩ ∧
      (Config.mk stack rest).current = some t ∧ Shifts a t string ∧
      Traces a (⟨t, j⟩ :: stack) (string ++ [t])) ∨
    ∃ t move stack' string', turn g table ⟨stack, rest⟩ = .next move ⟨stack', rest⟩ ∧
      (Config.mk stack rest).current = some t ∧ Reduces a follow t string string' ∧
      Traces a stack' string' := by
  rcases turn_inversion ha htable h rest with hreject | haccept | hshift |
    ⟨t, front, i, stack', hturn, ht, hi, hdone, hleft, hfollow, hstring, htraces⟩
  · exact .inl hreject
  · exact .inr (.inl haccept)
  · exact .inr (.inr (.inl hshift))
  · rw [← ha.body_of_ne hleft] at hstring
    exact .inr (.inr (.inr ⟨t, _, stack', _, hturn, ht,
      ⟨front, i, hi, hdone, hleft, hfollow, hstring, rfl⟩, htraces⟩))

end IsFor

end Lookahead.SLR1
