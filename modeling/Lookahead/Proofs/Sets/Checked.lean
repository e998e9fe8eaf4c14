import Lookahead.Proofs.Sets.Follow

/-!
The sets found with every index looked at before it is used. The sweeps here have no result once an
index is outside the table, the start symbol's or that of a nonterminal. On a well-formed grammar they
always have one, the one that the plain sweeps give.
-/

namespace Lookahead

def settle? {σ : Type} [DecidableEq σ] (step? : σ → Option σ) : Nat → σ → Option (σ × Nat)
  | 0, s => some (s, 0)
  | limit + 1, s => do
    let next ← step? s
    if next = s then return (s, 1)
    else
      let (result, count) ← settle? step? limit next
      return (result, count + 1)

/-- Where no step fails, the loop with failing steps comes to the same state. -/
theorem settle?_eq_some {σ : Type} [DecidableEq σ] {P : σ → Prop} {step? : σ → Option σ}
    {step : σ → σ} (hstep : ∀ s, P s → step? s = some (step s) ∧ P (step s)) (limit : Nat) {s : σ}
    (hs : P s) : settle? step? limit s = some (settle step limit s) := by
  induction limit generalizing s with
  | zero => rfl
  | succ limit ih =>
      obtain ⟨heq, hnext⟩ := hstep s hs
      simp only [settle?, settle, heq, Option.bind_eq_bind, Option.bind_some]
      split
      · rfl
      · rw [ih hnext]
        rfl

/-- A fold whose steps do not fail as long as an invariant holds. -/
theorem foldlM_eq_some {σ α : Type} {P : σ → Prop} {f? : σ → α → Option σ} {f : σ → α → σ}
    {l : List α} (hf : ∀ a ∈ l, ∀ s, P s → f? s a = some (f s a) ∧ P (f s a)) {s : σ} (hs : P s) :
    l.foldlM f? s = some (l.foldl f s) ∧ P (l.foldl f s) := by
  induction l generalizing s with
  | nil => exact ⟨rfl, hs⟩
  | cons a l ih =>
      obtain ⟨heq, hnext⟩ := hf a (by simp) s hs
      rw [List.foldlM_cons, List.foldl_cons, heq]
      exact ih (fun b hb => hf b (by simp [hb])) hnext

namespace Grammar

variable {g : Grammar}

def updateFirst? (table : FirstTable) (n : Nonterminal) : Option FirstTable :=
  if n.index < table.size then some (updateFirst table n) else none

def sweepFirst? (g : Grammar) (table : FirstTable) : Option FirstTable :=
  g.nonterminals.foldlM updateFirst? table

def firstSets? (g : Grammar) : Option FirstSets :=
  (settle? g.sweepFirst? g.sweepLimit g.initialFirst).map fun (table, sweeps) => ⟨table, sweeps⟩

def initialFollow? (g : Grammar) : Option FollowTable :=
  if g.start < g.size then some g.initialFollow else none

def stepOver? (g : Grammar) (first : FirstSets) (s : Nat) (table : FollowTable)
    (trailer : SortedSet Nat) : Option (FollowTable × SortedSet Nat) :=
  if g.isNonterminal s = true → s < table.size then some (g.stepOver first s table trailer)
  else none

def followBody? (g : Grammar) (first : FirstSets) (left : Nat) (table : FollowTable)
    (body : Body) : Option FollowTable := do
  let after ← table[left]?
  let (table, _) ← body.foldrM
    (fun s (table, trailer) => g.stepOver? first s table trailer) (table, after)
  return table

def sweepFollow? (g : Grammar) (first : FirstSets) (table : FollowTable) : Option FollowTable :=
  g.nonterminals.foldlM (fun table n => n.bodies.foldlM (g.followBody? first n.index) table) table

def followSets? (g : Grammar) (first : FirstSets) : Option FollowSets := do
  let initial ← g.initialFollow?
  let (table, sweeps) ← settle? (g.sweepFollow? first) g.sweepLimit initial
  return ⟨table, sweeps⟩

theorem WellFormed.index_lt_size (hg : g.WellFormed) {n : Nonterminal} (hn : n ∈ g.nonterminals) :
    n.index < g.size :=
  lt_size_of_isNonterminal (hg.isNonterminal_index hn)

theorem firstSets?_eq_some (hg : g.WellFormed) : g.firstSets? = some g.firstSets := by
  have hsweep (table : FirstTable) (htable : table.size = g.size) :
      g.sweepFirst? table = some (g.sweepFirst table) ∧ (g.sweepFirst table).size = g.size := by
    refine foldlM_eq_some (P := fun table : FirstTable => table.size = g.size) ?_ htable
    intro n hn table htable
    have hlt : n.index < table.size := htable ▸ hg.index_lt_size hn
    exact ⟨if_pos hlt, by simpa [updateFirst] using htable⟩
  rw [firstSets?, settle?_eq_some hsweep g.sweepLimit (by simp [initialFirst])]
  rfl

section Follow

variable {first : FirstSets}

theorem foldrM_stepOver? (first : FirstSets) {table : FollowTable} (htable : table.size = g.size)
    (after : SortedSet Nat) (body : Body) :
    body.foldrM (fun s (table, trailer) => g.stepOver? first s table trailer) (table, after) =
        some (body.foldr (fun s (table, trailer) => g.stepOver first s table trailer)
          (table, after)) ∧
      (body.foldr (fun s (table, trailer) => g.stepOver first s table trailer)
        (table, after)).1.size = g.size := by
  induction body with
  | nil => exact ⟨rfl, htable⟩
  | cons s body ih =>
      obtain ⟨heq, hsize⟩ := ih
      rw [List.foldrM_cons, heq, List.foldr_cons]
      constructor
      · apply if_pos
        intro hs
        rw [hsize]
        exact lt_size_of_isNonterminal hs
      · rw [size_stepOver]
        exact hsize

theorem followBody?_eq_some {left : Nat} (hleft : left < g.size) {table : FollowTable}
    (htable : table.size = g.size) (body : Body) :
    g.followBody? first left table body = some (g.followBody first left table body) ∧
      (g.followBody first left table body).size = g.size := by
  have hget : table[left]? = some (table.ofSymbol left) := by
    simp [FollowTable.ofSymbol, htable, hleft]
  obtain ⟨heq, hsize⟩ := foldrM_stepOver? first htable (table.ofSymbol left) body
  refine ⟨?_, hsize⟩
  rw [followBody?, hget, Option.bind_eq_bind, Option.bind_some, heq]
  rfl

/-- No set is looked for that is not there while the FOLLOW sets are made. -/
theorem followSets?_eq_some (hg : g.WellFormed) :
    g.followSets? first = some (g.followSets first) := by
  have hsweep (table : FollowTable) (htable : table.size = g.size) :
      g.sweepFollow? first table = some (g.sweepFollow first table) ∧
        (g.sweepFollow first table).size = g.size := by
    refine foldlM_eq_some (P := fun table : FollowTable => table.size = g.size) ?_ htable
    intro n hn table htable
    refine foldlM_eq_some (P := fun table : FollowTable => table.size = g.size) ?_ htable
    intro body _ table htable
    exact followBody?_eq_some (hg.index_lt_size hn) htable body
  have hinitial : g.initialFollow? = some g.initialFollow := if_pos hg.start_lt_size
  rw [followSets?, hinitial, Option.bind_eq_bind, Option.bind_some,
    settle?_eq_some hsweep g.sweepLimit (by simp [initialFollow, FollowTable.add])]
  rfl

end Follow

end Grammar
end Lookahead
