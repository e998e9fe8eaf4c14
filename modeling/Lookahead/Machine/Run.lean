import Lookahead.Machine.Token

/-!
Runs of stack machines. A machine is a function from a configuration to its next turn, and a run
keeps every configuration it went through together with the move made there.
-/

namespace Lookahead.Machine

/-- A stack, with its top first, and the input that is not read yet. -/
structure Config (σ : Type) where
  stack : List σ
  rest : List Token
  deriving DecidableEq

namespace Config

/-- The terminal at hand, if the next token is one. -/
def current {σ : Type} (c : Config σ) : Option Nat := c.rest.head?.bind Token.terminal

end Config

inductive Move where
  /-- The terminal on the stack is the one at hand. -/
  | matched (terminal : Nat)
  | produce (left production : Nat)
  | shift (state : Nat)
  | reduce (left production : Nat)
  | accept
  | reject
  deriving DecidableEq

inductive Turn (σ : Type) where
  | next (move : Move) (config : Config σ)
  | halt (move : Move) (accepted : Bool)
  /-- The move would handle a symbol that the grammar does not have. -/
  | fault
  deriving DecidableEq

structure Step (σ : Type) where
  config : Config σ
  move : Move
  deriving DecidableEq

structure Trace (σ : Type) where
  steps : List (Step σ)
  accepted : Bool
  deriving DecidableEq

inductive Run (σ : Type) where
  | halted (trace : Trace σ)
  | faulted
  /-- The machine has not halted within the turns it was given. -/
  | unfinished
  deriving DecidableEq

namespace Run

variable {σ : Type}

def cons (step : Step σ) : Run σ → Run σ
  | halted trace => halted { trace with steps := step :: trace.steps }
  | faulted => faulted
  | unfinished => unfinished

def trace? : Run σ → Option (Trace σ)
  | halted trace => some trace
  | faulted | unfinished => none

@[simp] theorem cons_eq_unfinished {step : Step σ} {r : Run σ} :
    r.cons step = unfinished ↔ r = unfinished := by
  cases r <;> simp [cons]

end Run

/-- Runs a machine for at most `limit` turns. -/
def run {σ : Type} (turn : Config σ → Turn σ) : Nat → Config σ → Run σ
  | 0, _ => .unfinished
  | limit + 1, c =>
    match turn c with
    | .next move next => (run turn limit next).cons ⟨c, move⟩
    | .halt move accepted => .halted ⟨[⟨c, move⟩], accepted⟩
    | .fault => .faulted

/-- A run that is over within some turns is the same within more of them. -/
theorem run_eq_of_le {σ : Type} {turn : Config σ → Turn σ} {m n : Nat} {c : Config σ}
    (finished : run turn m c ≠ .unfinished) (le : m ≤ n) : run turn n c = run turn m c := by
  induction m generalizing n c with
  | zero => exact absurd rfl finished
  | succ m ih =>
    cases n with
    | zero => omega
    | succ n =>
      simp only [run] at finished ⊢
      split
      · next move next h =>
        rw [h] at finished
        rw [ih (by simpa using finished) (by omega)]
      · rfl
      · rfl

/-- Turns enough for every run that ends in practice. -/
def turnLimit : Nat := 18446744073709551616

end Lookahead.Machine
