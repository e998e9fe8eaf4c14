import Lookahead.Proofs.Sets.Follow

/-!
The sweeps as loops without a limit that look at the sizes of sets only. A set is taken to be unchanged
if it has as many members as before, and the loop goes on for as long as a sweep has seen a set of
another size. Sets only ever grow, so that a set of the same size is the same set, and both loops end
with the sets, and after the number of sweeps, that the repetition with a limit gives.
-/

namespace Lookahead

open Grammar

/-- A set with no more members than a part of it is the part. -/
theorem SortedSet.eq_of_length {α : Type} [Ord α] [Std.TransOrd α] [Std.LawfulEqOrd α]
    {s t : SortedSet α} (h : ∀ a ∈ s, a ∈ t) (hlength : t.toList.length = s.toList.length) :
    t = s := by
  have hpart : s.toList.Subperm t.toList := List.subperm_of_subset s.nodup h
  have hperm := hpart.perm_of_length_le hlength.le
  ext a
  exact hperm.mem_iff.symm

namespace FirstSet

def count (f : FirstSet) : Nat := f.terminals.toList.length + f.nullable.toNat

/-- A set that has all of another one and the same size is that one. -/
theorem eq_of_count {a b : FirstSet} (h : ∀ o, a.Has o → b.Has o) (hcount : b.count = a.count) :
    b = a := by
  obtain ⟨terminals, nullable⟩ := a
  obtain ⟨terminals', nullable'⟩ := b
  have hterminals : ∀ t ∈ terminals, t ∈ terminals' := fun t => h (.some t)
  have hnullable : nullable = true → nullable' = true := h .none
  have hle := (List.subperm_of_subset terminals.nodup hterminals).length_le
  have hle' : nullable.toNat ≤ nullable'.toNat := by
    cases nullable with
    | false => exact Nat.zero_le _
    | true => rw [hnullable rfl]
  simp only [count] at hcount
  have hsame : terminals' = terminals := SortedSet.eq_of_length hterminals (by omega)
  have hsame' : nullable' = nullable := by
    have htoNat : nullable'.toNat = nullable.toNat := by omega
    cases nullable <;> cases nullable' <;> simp_all
  rw [hsame, hsame']

end FirstSet

namespace Grammar

variable {g : Grammar}

def updateFirstBySize (state : FirstTable × Bool) (n : Nonterminal) : FirstTable × Bool :=
  let first := state.1.ofBodies n.bodies
  if first.count = (state.1.ofSymbol n.index).count then state
  else (state.1.setIfInBounds n.index first, true)

def sweepFirstBySize (g : Grammar) (table : FirstTable) : FirstTable × Bool :=
  g.nonterminals.foldl updateFirstBySize (table, false)

/-- Steps over a symbol of a body, and says whether the set of the symbol has another size then. -/
def stepOverBySize (g : Grammar) (first : FirstSets) (s : Nat)
    (state : FollowTable × SortedSet Nat × Bool) : FollowTable × SortedSet Nat × Bool :=
  let (table, trailer, changed) := state
  let (next, trailer) := g.stepOver first s table trailer
  (next, trailer,
    changed || decide ((next.ofSymbol s).toList.length ≠ (table.ofSymbol s).toList.length))

def followBodyBySize (g : Grammar) (first : FirstSets) (left : Nat) (state : FollowTable × Bool)
    (body : Body) : FollowTable × Bool :=
  let (table, _, changed) :=
    body.foldr (g.stepOverBySize first) (state.1, state.1.ofSymbol left, state.2)
  (table, changed)

def sweepFollowBySize (g : Grammar) (first : FirstSets) (table : FollowTable) :
    FollowTable × Bool :=
  g.nonterminals.foldl (fun state n => n.bodies.foldl (g.followBodyBySize first n.index) state)
    (table, false)

/-! Looking at sizes is as good as looking at the sets. -/

theorem reports_updateFirst (hg : g.WellFormed) {n : Nonterminal} (hn : n ∈ g.nonterminals) :
    Reports (FirstTable.Grounded g) (updateFirst · n) (updateFirstBySize · n) := by
  intro table changed h
  have hlt : n.index < table.size := by
    rw [h.size_eq]
    exact lt_size_of_isNonterminal (hg.isNonterminal_index hn)
  unfold updateFirstBySize
  dsimp only
  split
  · next hcount =>
      have hsame : table.ofBodies n.bodies = table.ofSymbol n.index :=
        FirstSet.eq_of_count (h.borneOut n hn) hcount
      have hfixed : updateFirst table n = table := by
        apply FirstTable.Grounded.determines g _ _ (Grounded.updateFirst h hg hn) h
        rintro ⟨s, o⟩
        simp only [FirstTable.Says, ofSymbol_updateFirst hlt, hsame]
        split
        · next hs => rw [hs]
        · rfl
      simp [hfixed]
  · next hcount =>
      have hne : updateFirst table n ≠ table := by
        intro hfixed
        have hset := ofSymbol_updateFirst hlt n.index
        rw [hfixed, if_pos rfl] at hset
        exact hcount (congrArg FirstSet.count hset.symm)
      rw [decide_eq_true hne, Bool.or_true]
      rfl

theorem sweepFirstBySize_eq (hg : g.WellFormed) {table : FirstTable}
    (h : FirstTable.Grounded g table) :
    g.sweepFirstBySize table = (g.sweepFirst table, decide (g.sweepFirst table ≠ table)) := by
  have hreports := Adds.reports_foldl (FirstTable.Grounded.determines g) (adds_updateFirst hg)
    fun n hn => reports_updateFirst hg hn
  exact (hreports table false h).trans (by rw [Bool.false_or]; rfl)

/-- The loop over the FIRST sets ends. -/
theorem sweepsTo_firstSets (hg : g.WellFormed) :
    SweepsTo g.sweepFirstBySize g.initialFirst g.firstSets.table g.firstSets.sweeps :=
  (adds_sweepFirst hg).settle_sweepsTo (fun _ fact h => says_sweepFirst_or_mem hg h fact)
    (fun _ h => sweepFirst_eq_of_says hg h) (fun _ h => sweepFirstBySize_eq hg h)
    card_firstFacts_lt (grounded_initialFirst hg)

theorem knows_stepOver (s : Nat) (table : FollowTable) (trailer : SortedSet Nat)
    (fact : Nat × Nat) (hfact : table.Knows fact) :
    (g.stepOver g.firstSets s table trailer).1.Knows fact := by
  unfold stepOver
  split
  · exact hfact
  · split
    · exact FollowTable.mem_ofSymbol_add.mpr (.inl hfact)
    · exact hfact

/-- Only the set of the symbol itself can change. -/
theorem ofSymbol_stepOver_of_ne {s i : Nat} (hi : i ≠ s) (table : FollowTable)
    (trailer : SortedSet Nat) :
    (g.stepOver g.firstSets s table trailer).1.ofSymbol i = table.ofSymbol i := by
  unfold stepOver
  split
  · rfl
  · split
    · ext t
      rw [FollowTable.mem_ofSymbol_add]
      simp [hi]
    · rfl

theorem length_ofSymbol_stepOver {s : Nat} {table : FollowTable} {trailer : SortedSet Nat} :
    ((g.stepOver g.firstSets s table trailer).1.ofSymbol s).toList.length ≠
        (table.ofSymbol s).toList.length ↔
      (g.stepOver g.firstSets s table trailer).1 ≠ table := by
  rw [not_iff_not]
  constructor
  · intro hlength
    have hsame : (g.stepOver g.firstSets s table trailer).1.ofSymbol s = table.ofSymbol s :=
      SortedSet.eq_of_length (fun t ht => knows_stepOver s table trailer (s, t) ht) hlength
    refine FollowTable.determines_of_size table.size _ _ (size_stepOver s table trailer) rfl ?_
    rintro ⟨i, t⟩
    by_cases hi : i = s
    · simp only [FollowTable.Knows, hi, hsame]
    · simp only [FollowTable.Knows, ofSymbol_stepOver_of_ne hi]
  · intro hsame
    rw [hsame]

/-- The flag is raised over a body exactly if the body adds to the table. -/
theorem foldr_stepOverBySize (table : FollowTable) (after : SortedSet Nat) (changed : Bool)
    (body : Body) :
    body.foldr (g.stepOverBySize g.firstSets) (table, after, changed) =
      ((g.stepThrough table after body).1, (g.stepThrough table after body).2,
        changed || decide ((g.stepThrough table after body).1 ≠ table)) := by
  induction body with
  | nil => simp [stepThrough]
  | cons s body ih =>
      have hgrows (fact : Nat × Nat) (hfact : table.Knows fact) :
          (g.stepThrough table after body).1.Knows fact :=
        mem_stepThrough_table.mpr (.inl hfact)
      have hne := (FollowTable.determines_of_size table.size).ne_iff rfl
        (size_stepThrough table after body) hgrows
        (knows_stepOver (g := g) s _ (g.stepThrough table after body).2)
      rw [List.foldr_cons, ih, stepThrough_cons, stepOverBySize]
      dsimp only
      rw [decide_eq_decide.mpr length_ofSymbol_stepOver, Bool.or_assoc, ← Bool.decide_or,
        decide_eq_decide.mpr hne]

/-- For a body too, the sizes of the sets tell whether they changed. -/
theorem reports_followBody (left : Nat) (body : Body) :
    Reports (FollowTable.Grounded g) (g.followBody g.firstSets left · body)
      (g.followBodyBySize g.firstSets left · body) := by
  intro table changed _
  have hfold := foldr_stepOverBySize (g := g) table (table.ofSymbol left) changed body
  rw [← followBody_eq] at hfold
  simp only [followBodyBySize, hfold]

theorem sweepFollowBySize_eq (hg : g.WellFormed) {table : FollowTable}
    (h : FollowTable.Grounded g table) :
    g.sweepFollowBySize g.firstSets table =
      (g.sweepFollow g.firstSets table, decide (g.sweepFollow g.firstSets table ≠ table)) := by
  have hdetermines := FollowTable.Grounded.determines g
  have hbodies (n : Nonterminal) (hn : n ∈ g.nonterminals) :
      Reports (FollowTable.Grounded g)
        (fun table => n.bodies.foldl (g.followBody g.firstSets n.index) table)
        (fun state => n.bodies.foldl (g.followBodyBySize g.firstSets n.index) state) :=
    Adds.reports_foldl hdetermines
      (fun _ hbody => adds_followBody hg (hg.bodies_index hn ▸ hbody))
      fun body _ => reports_followBody n.index body
  have hreports := Adds.reports_foldl hdetermines (fun _ hn => adds_followBodies hg hn) hbodies
  exact (hreports table false h).trans (by rw [Bool.false_or]; rfl)

/-- The loop over the FOLLOW sets ends. -/
theorem sweepsTo_followSets (hg : g.WellFormed) :
    SweepsTo (g.sweepFollowBySize g.firstSets) g.initialFollow (g.followSets g.firstSets).table
      (g.followSets g.firstSets).sweeps :=
  (adds_sweepFollow hg).settle_sweepsTo (fun _ fact h => knows_sweepFollow_or_mem hg h fact)
    (fun _ h => sweepFollow_eq_of_knows hg h) (fun _ h => sweepFollowBySize_eq hg h)
    card_followFacts_lt (grounded_initialFollow hg)

end Grammar
end Lookahead
