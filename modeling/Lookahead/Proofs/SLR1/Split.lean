import Lookahead.Proofs.Machine.Trace
import Lookahead.SLR1.Machine

/-!
The shift-reduce machine with the halves of its stack in two lists, the states in one and the symbols in
the other, both with their tops at the end. Nothing in the form of the lists keeps them in step: the loop
has to look for a state to go on from, and it cuts both lists for a reduction. It makes the moves of the
machine over entries all the same, whatever the grammar and the table, and its lists are the states and
the symbols of these entries.
-/

namespace Lookahead.SLR1

open Machine Grammar

/-! The two lists that a stack stands for. -/

/-- The symbols of a stack, from the bottom up. -/
def symbolsOf (stack : List Entry) : List Nat := stack.reverse.map Entry.symbol

/-- The states of a stack, from the bottom up, with state 0 below them all. -/
def statesOf (stack : List Entry) : List Nat := 0 :: stack.reverse.map Entry.state

theorem symbolsOf_cons (e : Entry) (stack : List Entry) :
    symbolsOf (e :: stack) = symbolsOf stack ++ [e.symbol] := by
  simp [symbolsOf]

theorem statesOf_cons (e : Entry) (stack : List Entry) :
    statesOf (e :: stack) = statesOf stack ++ [e.state] := by
  simp [statesOf]

theorem length_symbolsOf (stack : List Entry) : (symbolsOf stack).length = stack.length := by
  simp [symbolsOf]

theorem length_statesOf (stack : List Entry) : (statesOf stack).length = stack.length + 1 := by
  simp [statesOf]

/-- There is a state on top of every stack. -/
theorem getLast?_statesOf (stack : List Entry) :
    (statesOf stack).getLast? = some (topState stack) := by
  cases stack with
  | nil => rfl
  | cons e stack => simp [statesOf_cons, topState]

/-- Cutting the symbols from above takes as many entries off the stack. -/
theorem take_symbolsOf (stack : List Entry) (n : Nat) :
    (symbolsOf stack).take ((symbolsOf stack).length - n) = symbolsOf (stack.drop n) := by
  rw [length_symbolsOf, symbolsOf, symbolsOf, ← List.map_take, List.reverse_drop]

/-- The same for the states, of which state 0 is left when no entry is. -/
theorem take_statesOf {stack : List Entry} {n : Nat} (h : n ≤ stack.length) :
    (statesOf stack).take ((statesOf stack).length - n) = statesOf (stack.drop n) := by
  rw [length_statesOf, Nat.succ_sub h, statesOf, statesOf, List.take_succ_cons, ← List.map_take,
    List.reverse_drop]

/-- Each state of a stack is on top of what is left when the entries above it are gone. -/
theorem getElem?_statesOf (stack : List Entry) {n : Nat} (h : n ≤ stack.length) :
    (statesOf stack)[stack.length - n]? = some (topState (stack.drop n)) := by
  rw [← getLast?_statesOf, ← take_statesOf h, List.getLast?_eq_getElem?, List.length_take,
    List.getElem?_take, length_statesOf]
  have hlast : min (stack.length + 1 - n) (stack.length + 1) - 1 = stack.length - n := by omega
  rw [hlast, if_pos (by omega)]

/-! The loop over the two lists. -/

/-- The two halves of the stack, from the bottom up, and the input that is not read yet. -/
structure Split where
  states : List Nat
  symbols : List Nat
  rest : List Token

inductive SplitTurn where
  | next (move : Move) (config : Split)
  | halt (move : Move) (accepted : Bool)
  /-- There is no state to go on from. The loop ends without a move. -/
  | bottomless
  /-- The move would handle a symbol that the grammar does not have, or cut off more states than
  there are. -/
  | fault

namespace Split

def initial (g : Grammar) (tokens : List String) : Split := ⟨[0], [], g.input tokens⟩

def current (s : Split) : Option Nat := s.rest.head?.bind Token.terminal

/-- Cuts off as many symbols and as many states as the alternative has symbols, and puts its left side
and the state it leads to on top of what is left. -/
def reduce (g : Grammar) (table : Table) (s : Split) (left production : Nat) : SplitTurn :=
  let body := g.body left production
  if (g.names? (left :: body)).isNone then .fault
  else
    let count := body.visible.length
    if s.symbols.length < count then .halt (.reduce left production) false
    else if s.states.length < count then .fault
    else
      let symbols := s.symbols.take (s.symbols.length - count)
      let states := s.states.take (s.states.length - count)
      match states.getLast?.bind (table.goto? · left) with
      | some state => .next (.reduce left production) ⟨states ++ [state], symbols ++ [left], s.rest⟩
      | none => .halt (.reduce left production) false

def turn (g : Grammar) (table : Table) (s : Split) : SplitTurn :=
  match s.states.getLast? with
  | none => .bottomless
  | some state =>
    match s.current.bind (table.action? state) with
    | some (.shift next) =>
      .next (.shift next) ⟨s.states ++ [next], s.symbols ++ s.current.toList, s.rest.tail⟩
    | some (.reduce left production) => s.reduce g table left production
    | some .accept => .halt .accept true
    | none => .halt .reject false

/-- The rounds of the loop from one pair of lists to another, with the lists and the move of each. -/
inductive Passes (g : Grammar) (table : Table) : Split → List (Split × Move) → Split → Prop
  | refl {s : Split} : Passes g table s [] s
  | next {s s' last : Split} {move : Move} {record : List (Split × Move)}
      (first : s.turn g table = .next move s') (following : Passes g table s' record last) :
      Passes g table s ((s, move) :: record) last

end Split

/-! The loop goes the way of the machine. -/

def Split.of (c : Config Entry) : Split := ⟨statesOf c.stack, symbolsOf c.stack, c.rest⟩

def SplitTurn.of : Turn Entry → SplitTurn
  | .next move c => .next move (.of c)
  | .halt move accepted => .halt move accepted
  | .fault => .fault

theorem SplitTurn.of_eq_next {turn : Turn Entry} {move : Move} {s : Split} :
    SplitTurn.of turn = .next move s ↔ ∃ c, turn = .next move c ∧ s = .of c := by
  cases turn <;> simp [SplitTurn.of, eq_comm]

namespace Split

variable {g : Grammar} {table : Table}

theorem of_initial (g : Grammar) (tokens : List String) : of (SLR1.initial g tokens) = initial g tokens :=
  rfl

/-- A reduction leaves of the two lists what it leaves of the stack. -/
theorem reduce_of (c : Config Entry) (left production : Nat) :
    (of c).reduce g table left production = .of (SLR1.reduce g table c left production) := by
  unfold Split.reduce SLR1.reduce
  simp only [of, length_symbolsOf, length_statesOf]
  split
  · rfl
  split
  · rfl
  next hcount =>
  have hle : (g.body left production).visible.length ≤ c.stack.length := Nat.le_of_not_lt hcount
  have hsymbols := take_symbolsOf c.stack (g.body left production).visible.length
  have hstates := take_statesOf hle
  rw [length_symbolsOf] at hsymbols
  rw [length_statesOf] at hstates
  rw [if_neg (by omega), hsymbols, hstates, getLast?_statesOf, Option.bind_some]
  cases hgoto : table.goto? (topState (c.stack.drop (g.body left production).visible.length)) left with
  | none => rfl
  | some state => simp [SplitTurn.of, of, statesOf_cons, symbolsOf_cons]

/-- One round of the loop is one turn of the machine. -/
theorem turn_of (c : Config Entry) : (of c).turn g table = .of (SLR1.turn g table c) := by
  have hstate : (of c).states.getLast? = some (topState c.stack) := getLast?_statesOf c.stack
  have hcurrent : (of c).current = c.current := rfl
  rw [Split.turn, SLR1.turn, hstate, hcurrent]
  dsimp only
  cases hread : c.current with
  | none => rfl
  | some t =>
      dsimp only [Option.bind_some]
      cases haction : table.action? (topState c.stack) t with
      | none => rfl
      | some action =>
          cases action with
          | shift next => simp [SplitTurn.of, of, statesOf_cons, symbolsOf_cons]
          | reduce left production => exact reduce_of c left production
          | accept => rfl

/-- The loop passes through the split stacks of the configurations that the machine passes through, with
the same moves, and comes to its end as the machine does. -/
theorem passes_of_iff {c : Config Entry} {record : List (Split × Move)} {last : Split} :
    Passes g table (of c) record last ↔
      ∃ steps c', Machine.Passes (SLR1.turn g table) c steps c' ∧
        record = steps.map (fun step => (of step.config, step.move)) ∧ last = of c' := by
  constructor
  · intro h
    generalize hs : of c = s at h
    induction h generalizing c with
    | refl => exact ⟨[], c, .refl, rfl, hs.symm⟩
    | next hfirst _ ih =>
        subst hs
        rw [turn_of] at hfirst
        obtain ⟨c₁, hturn, rfl⟩ := SplitTurn.of_eq_next.mp hfirst
        obtain ⟨steps, c', hpasses, rfl, rfl⟩ := ih rfl
        exact ⟨_, c', .next hturn hpasses, rfl, rfl⟩
  · rintro ⟨steps, c', hpasses, rfl, rfl⟩
    induction hpasses with
    | refl => exact .refl
    | next hfirst _ ih => exact .next (by rw [turn_of, hfirst]; rfl) ih

end Split
end Lookahead.SLR1
