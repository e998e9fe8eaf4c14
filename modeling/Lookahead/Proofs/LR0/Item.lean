import Lookahead.LR0.Automaton
import Lookahead.Proofs.Grammar.WellFormed
import Lookahead.Proofs.Sets.Settle

/-!
What the closure of a set of items holds: the items that the awaited nonterminals call for, those
that these call for, and so on. The rounds of the closure find all of them, since each round takes up
a nonterminal that no round before it took up.
-/

namespace Lookahead.Grammar

variable {g : Grammar}

/-- The item is one of the kernel, or starts an alternative of a nonterminal that such an item
awaits. -/
inductive Spawned (g : Grammar) (kernel : Item → Prop) : Item → Prop
  | kernel {i : Item} (member : kernel i) : Spawned g kernel i
  | expand {i j : Item} {left : Nat} (source : Spawned g kernel i)
      (next : g.nextSymbol i = some left) (isNonterminal : g.isNonterminal left = true)
      (member : j ∈ g.initialItems left) : Spawned g kernel j

/-- A round adds the items that start the alternatives of the awaited nonterminals. -/
theorem mem_expand {items : ItemSet} {i : Item} :
    i ∈ g.expand items ↔ i ∈ items ∨ ∃ j ∈ items, ∃ left, g.nextSymbol j = some left ∧
      g.isNonterminal left = true ∧ i ∈ g.initialItems left := by
  simp only [expand, awaited, SortedSet.mem_union, SortedSet.mem_ofList, List.mem_flatMap,
    ← SortedSet.mem_def, List.mem_filter, List.mem_filterMap]
  constructor
  · rintro (h | ⟨left, ⟨⟨j, hj, hnext⟩, hnon⟩, hi⟩)
    · exact .inl h
    · exact .inr ⟨j, hj, left, hnext, hnon, hi⟩
  · rintro (h | ⟨j, hj, left, hnext, hnon, hi⟩)
    · exact .inl h
    · exact .inr ⟨left, ⟨⟨j, hj, hnext⟩, hnon⟩, hi⟩

def TakenUp (g : Grammar) (items : ItemSet) (left : Nat) : Prop :=
  ∀ i ∈ g.initialItems left, i ∈ items

theorem adds_expand : Adds (fun _ => True) g.TakenUp g.expand where
  keeps _ _ := trivial
  grows _ _ _ h := fun i hi => mem_expand.mpr (.inl (h i hi))

/-- The rounds of the closure are enough. -/
theorem expand_closure (items : ItemSet) : g.expand (g.closure items) = g.closure items := by
  have hcard : (Finset.range g.size).card ≤ g.size + 1 := by simp
  refine adds_expand.settle_fixed ?_ ?_ hcard trivial
  · intro items left _ h
    by_cases hleft : left < g.size
    · exact .inr (Finset.mem_range.mpr hleft)
    · have hnone : g.symbols[left]? = none := Array.getElem?_eq_none (Nat.le_of_not_lt hleft)
      left
      intro i hi
      simp [initialItems, bodies, nonterminal?, hnone] at hi
  · intro items _ hback
    refine SortedSet.ext fun i => ⟨fun hi => ?_, fun hi => mem_expand.mpr (.inl hi)⟩
    rcases mem_expand.mp hi with hi | ⟨j, hj, left, hnext, hnon, hi⟩
    · exact hi
    · refine hback left (fun k hk => ?_) i hi
      exact mem_expand.mpr (.inr ⟨j, hj, left, hnext, hnon, hk⟩)

theorem mem_closure {items : ItemSet} {i : Item} :
    i ∈ g.closure items ↔ g.Spawned (· ∈ items) i := by
  constructor
  · have hadds : Adds (fun s : ItemSet => ∀ i ∈ s, g.Spawned (· ∈ items) i)
        (fun s i => i ∈ s) g.expand := by
      constructor
      · intro s hs i hi
        rcases mem_expand.mp hi with hi | ⟨j, hj, left, hnext, hnon, hi⟩
        · exact hs i hi
        · exact .expand (hs j hj) hnext hnon hi
      · exact fun s i _ hi => mem_expand.mpr (.inl hi)
    exact hadds.settle_keeps (g.size + 1) (fun i hi => .kernel hi) i
  · intro h
    have hadds : Adds (fun _ => True) (fun (s : ItemSet) i => i ∈ s) g.expand :=
      ⟨fun _ _ => trivial, fun s i _ hi => mem_expand.mpr (.inl hi)⟩
    induction h with
    | kernel hmem => exact hadds.settle_grows (g.size + 1) trivial hmem
    | expand _ hnext hnon hmem ih =>
        rw [← expand_closure]
        exact mem_expand.mpr (.inr ⟨_, ih, _, hnext, hnon, hmem⟩)

theorem mem_moved {items : ItemSet} {symbol : Nat} {i : Item} :
    i ∈ g.moved items symbol ↔ ∃ j ∈ items, g.nextSymbol j = some symbol ∧ j.advance = i := by
  simp only [moved, SortedSet.mem_ofList, List.mem_map, List.mem_filter, ← SortedSet.mem_def,
    beq_iff_eq, and_assoc]

/-- Over a symbol come the items that await it, moved, and what these call for. -/
theorem mem_goto {items : ItemSet} {symbol : Nat} {i : Item} :
    i ∈ g.goto items symbol ↔
      g.Spawned (fun i => ∃ j ∈ items, g.nextSymbol j = some symbol ∧ j.advance = i) i := by
  rw [goto, mem_closure]
  simp only [mem_moved]

/-- A set of items leads on over a symbol exactly if one of them awaits it. -/
theorem goto_isEmpty {items : ItemSet} {symbol : Nat} :
    (g.goto items symbol).isEmpty = false ↔ ∃ j ∈ items, g.nextSymbol j = some symbol := by
  rw [Bool.eq_false_iff, ne_eq, SortedSet.isEmpty_iff, not_forall]
  simp only [not_not]
  constructor
  · rintro ⟨i, hi⟩
    have hspawned := mem_goto.mp hi
    induction hspawned with
    | kernel hmem =>
        obtain ⟨j, hj, hnext, -⟩ := hmem
        exact ⟨j, hj, hnext⟩
    | expand hsource _ _ _ ih => exact ih (mem_goto.mpr hsource)
  · rintro ⟨j, hj, hnext⟩
    exact ⟨j.advance, mem_goto.mpr (.kernel ⟨j, hj, hnext, rfl⟩)⟩

theorem mem_initialItems {left : Nat} {i : Item} :
    i ∈ g.initialItems left ↔
      ∃ production < (g.bodies left).length, i = g.initialItem left production := by
  simp [initialItems, eq_comm]

def Holds (g : Grammar) (i : Item) : Prop :=
  ∃ body, (g.bodies i.left)[i.production]? = some body ∧ i.position ≤ body.length

theorem Holds.body_eq {i : Item} (h : g.Holds i) :
    (g.bodies i.left)[i.production]? = some (g.body i.left i.production) := by
  obtain ⟨body, hbody, _⟩ := h
  simp [Grammar.body, hbody]

theorem Holds.body_mem {i : Item} (h : g.Holds i) :
    g.body i.left i.production ∈ g.bodies i.left :=
  List.mem_of_getElem? h.body_eq

theorem holds_initialItem {left production : Nat} (h : production < (g.bodies left).length) :
    g.Holds (g.initialItem left production) := by
  refine ⟨g.body left production, ?_, List.takeWhile_sublist _ |>.length_le⟩
  simp [initialItem, Grammar.body, h]

theorem Holds.advance {i : Item} {symbol : Nat} (h : g.Holds i)
    (hnext : g.nextSymbol i = some symbol) : g.Holds i.advance := by
  refine ⟨_, h.body_eq, ?_⟩
  have hlt := (List.getElem?_eq_some_iff.mp hnext).1
  simpa [Item.advance] using hlt

/-- What items of the grammar call for are items of the grammar. -/
theorem Spawned.holds {kernel : Item → Prop} (h : ∀ i, kernel i → g.Holds i) {i : Item}
    (hi : g.Spawned kernel i) : g.Holds i := by
  induction hi with
  | kernel hmem => exact h _ hmem
  | expand _ _ _ hmem _ =>
      obtain ⟨production, hlt, rfl⟩ := mem_initialItems.mp hmem
      exact holds_initialItem hlt

theorem holds_goto {items : ItemSet} (h : ∀ i ∈ items, g.Holds i) {symbol : Nat} {i : Item}
    (hi : i ∈ g.goto items symbol) : g.Holds i := by
  apply (mem_goto.mp hi).holds
  rintro _ ⟨j, hj, hnext, rfl⟩
  exact (h j hj).advance hnext

end Lookahead.Grammar
