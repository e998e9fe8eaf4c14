/-!
Repeating a step until it changes nothing.
-/

namespace Lookahead

/-- Applies `step` until it returns what it was given, at most `limit` times. The number counts the
applications, with the last one that changed nothing. -/
def settle {σ : Type} [DecidableEq σ] (step : σ → σ) : Nat → σ → σ × Nat
  | 0, s => (s, 0)
  | limit + 1, s =>
    let next := step s
    if next = s then (s, 1)
    else
      let (result, count) := settle step limit next
      (result, count + 1)

end Lookahead
