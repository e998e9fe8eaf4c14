import Lookahead.Proofs.LR0.Item
import Mathlib.Order.Bounds.Defs

/-!
The closure is the least saturated set of items above the one it is taken of. A loop that takes its items
from a queue, one at a time and each of them once, ends with the same set as the rounds of the closure:
what is in the set has been taken or is still queued, and an item that joins the queue leaves the finite
stock of items that start an alternative.
-/

namespace Lookahead.Grammar

variable {g : Grammar}

/-- With every item that awaits a nonterminal, the set has the items that start its alternatives. -/
def Saturated (g : Grammar) (items : Set Item) : Prop :=
  ∀ i ∈ items, ∀ left, g.nextSymbol i = some left → g.isNonterminal left = true →
    ∀ production < (g.bodies left).length, g.initialItem left production ∈ items

/-! The least saturated set. -/

theorem saturated_closure (items : ItemSet) : g.Saturated {i | i ∈ g.closure items} := by
  intro i hi left hnext hnon production hlt
  exact mem_closure.mpr (.expand (mem_closure.mp hi) hnext hnon
    (mem_initialItems.mpr ⟨production, hlt, rfl⟩))

/-- The closure is part of every saturated set that has the items. -/
theorem closure_subset {items : ItemSet} {s : Set Item} (hitems : ∀ i ∈ items, i ∈ s)
    (hs : g.Saturated s) : ∀ i ∈ g.closure items, i ∈ s := by
  intro i hi
  induction mem_closure.mp hi with
  | kernel hmem => exact hitems _ hmem
  | expand hsource hnext hnon hmem ih =>
      obtain ⟨production, hlt, rfl⟩ := mem_initialItems.mp hmem
      exact hs _ (ih (mem_closure.mpr hsource)) _ hnext hnon production hlt

theorem subset_closure (items : ItemSet) : ∀ i ∈ items, i ∈ g.closure items :=
  fun _ hi => mem_closure.mpr (.kernel hi)

theorem closure_mono {items items' : ItemSet} (h : ∀ i ∈ items, i ∈ items') :
    ∀ i ∈ g.closure items, i ∈ g.closure items' :=
  closure_subset (s := {i | i ∈ g.closure items'}) (fun i hi => subset_closure items' i (h i hi))
    (saturated_closure items')

theorem closure_closure (items : ItemSet) : g.closure (g.closure items) = g.closure items := by
  ext i
  exact ⟨closure_subset (s := {i | i ∈ g.closure items}) (fun _ hi => hi) (saturated_closure items) i,
    subset_closure _ i⟩

theorem Saturated.union {s t : Set Item} (hs : g.Saturated s) (ht : g.Saturated t) : g.Saturated (s ∪ t) := by
  rintro i (hi | hi) left hnext hnon production hlt
  · exact .inl (hs i hi left hnext hnon production hlt)
  · exact .inr (ht i hi left hnext hnon production hlt)

/-- An item is called for by one item, so that a union calls for nothing that neither part calls for. -/
theorem closure_union (items items' : ItemSet) :
    g.closure (items ∪ items') = g.closure items ∪ g.closure items' := by
  ext i
  rw [SortedSet.mem_union]
  constructor
  · refine closure_subset (s := {i | i ∈ g.closure items} ∪ {i | i ∈ g.closure items'}) ?_
      ((saturated_closure items).union (saturated_closure items')) i
    intro i hi
    exact (SortedSet.mem_union.mp hi).imp (subset_closure items i) (subset_closure items' i)
  · rintro (hi | hi)
    · exact closure_mono (fun i hi => SortedSet.mem_union.mpr (.inl hi)) i hi
    · exact closure_mono (fun i hi => SortedSet.mem_union.mpr (.inr hi)) i hi

/-! The queue. -/

def enqueue (state : ItemSet × List Item) (i : Item) : ItemSet × List Item :=
  if i ∈ state.1 then state else (state.1.insert i, state.2 ++ [i])

/-- What an item calls for: the items that start an alternative of the nonterminal it awaits. -/
def calledFor (g : Grammar) (i : Item) : List Item :=
  ((g.nextSymbol i).filter g.isNonterminal).elim [] g.initialItems

/-- The loop that takes items from the head of the queue and enqueues what they call for, until the queue
is empty: from this set and this queue it comes to that set. -/
inductive WorksTo (g : Grammar) : ItemSet → List Item → ItemSet → Prop
  | done {items : ItemSet} : WorksTo g items [] items
  | next {items result : ItemSet} {i : Item} {queue : List Item}
      (following : WorksTo g ((g.calledFor i).foldl enqueue (items, queue)).1
        ((g.calledFor i).foldl enqueue (items, queue)).2 result) :
      WorksTo g items (i :: queue) result

/-- The loop comes to one set at most. -/
theorem WorksTo.unique {items result result' : ItemSet} {queue : List Item}
    (h : g.WorksTo items queue result) (h' : g.WorksTo items queue result') : result = result' := by
  induction h with
  | done =>
      cases h'
      rfl
  | next _ ih =>
      cases h' with
      | next following => exact ih following

theorem mem_calledFor {i j : Item} :
    j ∈ g.calledFor i ↔ ∃ left, g.nextSymbol i = some left ∧ g.isNonterminal left = true ∧
      j ∈ g.initialItems left := by
  unfold calledFor
  cases g.nextSymbol i with
  | none => simp
  | some left => cases hleft : g.isNonterminal left <;> simp [Option.filter, hleft]

theorem mem_foldl_enqueue {l : List Item} {items : ItemSet} {queue : List Item} {i : Item} :
    i ∈ (l.foldl enqueue (items, queue)).1 ↔ i ∈ items ∨ i ∈ l := by
  induction l generalizing items queue with
  | nil => simp
  | cons j l ih =>
      rw [List.foldl_cons, enqueue]
      split
      · next hj =>
          rw [ih, List.mem_cons]
          constructor
          · tauto
          · rintro (hi | rfl | hi)
            exacts [.inl hi, .inl hj, .inr hi]
      · rw [ih, SortedSet.mem_insert, List.mem_cons]
        tauto

/-- What is new to the set joins the queue. -/
theorem mem_queue_foldl_enqueue {l : List Item} {items : ItemSet} {queue : List Item} {i : Item} :
    i ∈ (l.foldl enqueue (items, queue)).2 ↔ i ∈ queue ∨ i ∈ l ∧ i ∉ items := by
  induction l generalizing items queue with
  | nil => simp
  | cons j l ih =>
      rw [List.foldl_cons, enqueue]
      split
      · next hj =>
          rw [ih, List.mem_cons]
          constructor
          · tauto
          · rintro (hi | ⟨rfl | hi, hnot⟩)
            exacts [.inl hi, absurd hj hnot, .inr ⟨hi, hnot⟩]
      · next hj =>
          rw [ih, SortedSet.mem_insert, List.mem_append, List.mem_singleton, List.mem_cons]
          by_cases hi : i = j
          · subst hi
            simp [show i ∉ items from hj]
          · simp [hi]

/-! The loop ends. -/

def stock (g : Grammar) : Finset Item := ((List.range g.size).flatMap g.initialItems).toFinset

/-- An item outside the set counts twice, since it lengthens the queue when it joins the set. -/
def workLeft (g : Grammar) (state : ItemSet × List Item) : Nat :=
  2 * (g.stock.filter (· ∉ state.1)).card + state.2.length

theorem mem_stock_of_mem_calledFor {i j : Item} (h : j ∈ g.calledFor i) : j ∈ g.stock := by
  obtain ⟨left, -, hnon, hj⟩ := mem_calledFor.mp h
  rw [stock, List.mem_toFinset, List.mem_flatMap]
  exact ⟨left, List.mem_range.mpr (lt_size_of_isNonterminal hnon), hj⟩

theorem workLeft_enqueue_le {i : Item} (hi : i ∈ g.stock) (state : ItemSet × List Item) :
    g.workLeft (enqueue state i) ≤ g.workLeft state := by
  unfold enqueue
  split
  · exact le_rfl
  · next hnew =>
      have hsubset : g.stock.filter (· ∉ state.1.insert i) ⊆ g.stock.filter (· ∉ state.1) := by
        intro j hj
        rw [Finset.mem_filter, SortedSet.mem_insert, not_or] at hj
        exact Finset.mem_filter.mpr ⟨hj.1, hj.2.2⟩
      have hless : (g.stock.filter (· ∉ state.1.insert i)).card <
          (g.stock.filter (· ∉ state.1)).card := by
        apply Finset.card_lt_card
        apply (Finset.ssubset_iff_of_subset hsubset).mpr
        exact ⟨i, Finset.mem_filter.mpr ⟨hi, hnew⟩, by simp⟩
      simp only [workLeft, List.length_append, List.length_singleton]
      omega

theorem workLeft_foldl_enqueue_le {l : List Item} (hl : ∀ i ∈ l, i ∈ g.stock)
    (state : ItemSet × List Item) : g.workLeft (l.foldl enqueue state) ≤ g.workLeft state := by
  induction l generalizing state with
  | nil => exact le_rfl
  | cons i l ih =>
      obtain ⟨hi, hl⟩ := List.forall_mem_cons.mp hl
      exact (ih hl _).trans (workLeft_enqueue_le hi state)

/-- What the loop keeps true on its way from `source`: the set has what it started with and only what
that calls for, and every item of the set is queued or has been taken. -/
structure AtWork (g : Grammar) (source items : ItemSet) (queue : List Item) : Prop where
  extends_source : ∀ i ∈ source, i ∈ items
  spawned : ∀ i ∈ items, g.Spawned (· ∈ source) i
  queue_subset : ∀ i ∈ queue, i ∈ items
  taken : ∀ i ∈ items, i ∈ queue ∨ ∀ j ∈ g.calledFor i, j ∈ items

theorem AtWork.next {source items : ItemSet} {i : Item} {queue : List Item}
    (h : g.AtWork source items (i :: queue)) :
    g.AtWork source ((g.calledFor i).foldl enqueue (items, queue)).1
      ((g.calledFor i).foldl enqueue (items, queue)).2 where
  extends_source j hj := mem_foldl_enqueue.mpr (.inl (h.extends_source j hj))
  spawned j hj := by
    rcases mem_foldl_enqueue.mp hj with hj | hj
    · exact h.spawned j hj
    · obtain ⟨left, hnext, hnon, hj⟩ := mem_calledFor.mp hj
      exact .expand (h.spawned i (h.queue_subset i List.mem_cons_self)) hnext hnon hj
  queue_subset j hj := by
    rcases mem_queue_foldl_enqueue.mp hj with hj | ⟨hj, -⟩
    · exact mem_foldl_enqueue.mpr (.inl (h.queue_subset j (List.mem_cons_of_mem i hj)))
    · exact mem_foldl_enqueue.mpr (.inr hj)
  taken j hj := by
    simp only [mem_foldl_enqueue, mem_queue_foldl_enqueue]
    by_cases hold : j ∈ items
    · rcases h.taken j hold with hqueue | htaken
      · rcases List.mem_cons.mp hqueue with rfl | hqueue
        · exact .inr fun k hk => .inr hk
        · exact .inl (.inl hqueue)
      · exact .inr fun k hk => .inl (htaken k hk)
    · exact .inl (.inr ⟨(mem_foldl_enqueue.mp hj).resolve_left hold, hold⟩)

/-- Once the queue is empty, the set is the closure. -/
theorem AtWork.eq_closure {source items : ItemSet} (h : g.AtWork source items []) :
    items = g.closure source := by
  have hsaturated : g.Saturated {i | i ∈ items} := by
    intro i hi left hnext hnon production hlt
    have htaken := (h.taken i hi).resolve_left List.not_mem_nil
    exact htaken _ (mem_calledFor.mpr
      ⟨left, hnext, hnon, mem_initialItems.mpr ⟨production, hlt, rfl⟩⟩)
  ext i
  exact ⟨fun hi => mem_closure.mpr (h.spawned i hi),
    closure_subset (s := {i | i ∈ items}) h.extends_source hsaturated i⟩

theorem AtWork.worksTo {source items : ItemSet} {queue : List Item}
    (h : g.AtWork source items queue) : g.WorksTo items queue (g.closure source) := by
  induction hwork : g.workLeft (items, queue) using Nat.strong_induction_on
    generalizing items queue with
  | _ n ih =>
      cases queue with
      | nil => exact h.eq_closure ▸ .done
      | cons i queue =>
          have hle := workLeft_foldl_enqueue_le (fun _ hj => mem_stock_of_mem_calledFor hj)
            (items, queue) (l := g.calledFor i)
          refine .next (ih _ ?_ h.next rfl)
          simp only [workLeft, List.length_cons] at hle hwork ⊢
          omega

theorem atWork_start (items : ItemSet) : g.AtWork items items items.toList where
  extends_source _ hi := hi
  spawned _ hi := .kernel hi
  queue_subset _ hi := SortedSet.mem_def.mpr hi
  taken _ hi := .inl (SortedSet.mem_def.mp hi)

/-- Whatever the grammar and the items, the loop over the queue ends with the closure and nothing else,
and the closure is the least saturated set that has the items. It therefore grows with the items, adds
nothing to itself, and is that of the one part and that of the other taken together. -/
theorem closure_is_least (g : Grammar) (items : ItemSet) :
    (∀ result, g.WorksTo items items.toList result ↔ result = g.closure items) ∧
    IsLeast {s : Set Item | {i | i ∈ items} ⊆ s ∧ g.Saturated s} {i | i ∈ g.closure items} ∧
    (∀ items' : ItemSet, (∀ i ∈ items, i ∈ items') →
      ∀ i ∈ g.closure items, i ∈ g.closure items') ∧
    g.closure (g.closure items) = g.closure items ∧
    ∀ items', g.closure (items ∪ items') = g.closure items ∪ g.closure items' := by
  have hworks := (atWork_start (g := g) items).worksTo
  refine ⟨fun result => ⟨fun h => h.unique hworks, fun h => h ▸ hworks⟩, ⟨⟨?_, ?_⟩, ?_⟩,
    fun _ h => closure_mono h, closure_closure items, closure_union items⟩
  · exact subset_closure items
  · exact saturated_closure items
  · rintro s ⟨hitems, hs⟩
    exact closure_subset hitems hs

/-! `S -> S S | ϵ`, and an item whose left side the grammar does not have. -/

theorem closure_with_foreign_item :
    ∃ g : Grammar, g.bodies 2 = [[2, 2], [epsilon]] ∧ g.size < 7 ∧
      g.WorksTo (.ofList [⟨2, 0, 0⟩, ⟨7, 1, 3⟩]) [⟨2, 0, 0⟩, ⟨7, 1, 3⟩]
        (.ofList [⟨2, 0, 0⟩, ⟨2, 1, 1⟩, ⟨7, 1, 3⟩]) ∧
      (∀ s : Set Item, {⟨2, 0, 0⟩, ⟨7, 1, 3⟩} ⊆ s → g.Saturated s → ⟨2, 1, 1⟩ ∈ s) ∧
      ⟨2, 1, 1⟩ ∈ g.closure (.ofList [⟨2, 0, 0⟩, ⟨2, 0, 2⟩, ⟨7, 1, 3⟩]) := by
  obtain ⟨hworks, ⟨-, hleast⟩, hmono, -⟩ := closure_is_least
    (((∅ : Grammar).addNonterminal "S").addBodies 2 [[2, 2], []]) (.ofList [⟨2, 0, 0⟩, ⟨7, 1, 3⟩])
  refine ⟨_, by decide, by decide, (hworks _).mpr (by decide +kernel), fun s hs hsaturated => ?_,
    hmono _ (by decide +kernel) _ (by decide +kernel)⟩
  exact hleast ⟨fun i hi => hs (by simpa using hi), hsaturated⟩ (by decide +kernel)

end Lookahead.Grammar
