import Lookahead.Proofs.Grammar.Readable
import Lookahead.Proofs.LR0.Collection
import Mathlib.Computability.EpsilonNFA

/-!
The automaton is the canonical collection. The items themselves are the states of a nondeterministic
automaton, which moves a dot over a symbol or, without reading anything, goes from an item to the
alternatives of the nonterminal that it awaits. After any string the one state that the collection has
come to holds all the items that the nondeterministic automaton can have come to.
-/

namespace Lookahead.LR0

open Grammar

variable {g : Grammar} {a : Automaton}

/-! The exploration ends by itself. -/

/-- Takes up the sets found, in the order in which they were found, until the edges of all of them are
known. -/
inductive Explores (g : Grammar) (symbols : List Nat) : Array ItemSet → Array (SortedMap Nat Nat) →
    Array ItemSet → Array (SortedMap Nat Nat) → Prop
  | done {found : Array ItemSet} {rows : Array (SortedMap Nat Nat)}
      (finished : found[rows.size]? = none) : Explores g symbols found rows found rows
  | next {found found' : Array ItemSet} {rows rows' : Array (SortedMap Nat Nat)} {source : ItemSet}
      (taken : found[rows.size]? = some source)
      (following : Explores g symbols (symbols.foldl (follow g source) (found, ∅)).1
        (rows.push (symbols.foldl (follow g source) (found, ∅)).2) found' rows') :
      Explores g symbols found rows found' rows'

/-- With a limit that is large enough, the exploration does what the loop without a limit does. -/
theorem Explored.explores {symbols : List Nat} (limit : Nat) {found : Array ItemSet}
    {rows : Array (SortedMap Nat Nat)} (h : Explored g symbols found rows)
    (hlimit : Nat.pow 2 (allItems g).length ≤ limit + rows.size) :
    Explores g symbols found rows (explore g symbols limit found rows).1
      (explore g symbols limit found rows).2 := by
  induction limit generalizing found rows with
  | zero =>
      have hsize := h.distinct.size_le
      exact .done (Array.getElem?_eq_none (by omega))
  | succ limit ih =>
      rw [explore]
      split
      · next hnone => exact .done hnone
      · next source hsource =>
          obtain ⟨-, hnext⟩ := h.push hsource
          exact .next hsource (ih hnext (by rw [Array.size_push]; omega))

theorem explores_build (hg : g.WellFormed) (hstart : g.isNonterminal g.start = true)
    (name : String) :
    Explores (augment g name) (alphabet g) #[firstItems g name] #[]
      ((build g name).states.map State.items) ((build g name).states.map State.edges) := by
  rw [items_build hg hstart, edges_build hg hstart]
  exact (explored_first hg hstart name).explores _ (by simp)

/-! The automaton of single items. -/

/-- An item moves its dot over the symbol it awaits, or gives way to an alternative of the nonterminal
it awaits. -/
def Automaton.singleItems (a : Automaton) : εNFA Nat Item where
  step
    | i, some s => {j | a.grammar.nextSymbol i = some s ∧ j = i.advance}
    | i, none => {j | ∃ left, a.grammar.nextSymbol i = some left ∧
        a.grammar.isNonterminal left = true ∧ j ∈ a.grammar.initialItems left}
  start := {a.grammar.initialItem a.accept 0}
  accept := Set.univ

theorem mem_eval_of_step_none {string : List Nat} {i j : Item}
    (hi : i ∈ a.singleItems.eval string) (hj : j ∈ a.singleItems.step i none) :
    j ∈ a.singleItems.eval string := by
  induction string using List.reverseRecOn with
  | nil => exact εNFA.εClosure.step i j hj hi
  | append_singleton string s _ =>
      rw [εNFA.eval_append_singleton, εNFA.mem_stepSet_iff] at hi ⊢
      obtain ⟨source, hsource, hi⟩ := hi
      exact ⟨source, hsource, εNFA.εClosure.step i j hj hi⟩

/-- The items that the automaton of single items comes to are valid. -/
theorem valid_of_mem_eval {string : List Nat} {i : Item} (h : i ∈ a.singleItems.eval string) :
    a.Valid string i := by
  have hexpand {string : List Nat} {i j : Item} (hi : a.Valid string i)
      (hj : j ∈ a.singleItems.step i none) : a.Valid string j := by
    obtain ⟨left, hnext, hnon, hmem⟩ := hj
    exact .expand hi hnext hnon hmem
  induction string using List.reverseRecOn generalizing i with
  | nil =>
      rw [εNFA.eval_nil] at h
      induction h with
      | base i hi =>
          obtain rfl : i = a.grammar.initialItem a.accept 0 := hi
          exact .start
      | step i j hj _ ih => exact hexpand ih hj
  | append_singleton string s ih =>
      rw [εNFA.eval_append_singleton, εNFA.mem_stepSet_iff] at h
      obtain ⟨source, hsource, h⟩ := h
      induction h with
      | base i hi =>
          obtain ⟨hnext, rfl⟩ := hi
          exact .move (ih hsource) hnext
      | step i j hj _ ihclosure => exact hexpand ihclosure hj

/-- The items valid for a string are those that the automaton of single items comes to. -/
theorem mem_eval_iff_valid {string : List Nat} {i : Item} :
    i ∈ a.singleItems.eval string ↔ a.Valid string i := by
  refine ⟨valid_of_mem_eval, fun h => ?_⟩
  induction h with
  | start => exact εNFA.εClosure.base _ rfl
  | move _ hnext ih =>
      rw [εNFA.eval_append_singleton, εNFA.mem_stepSet_iff]
      exact ⟨_, ih, εNFA.εClosure.base _ ⟨hnext, rfl⟩⟩
  | expand _ hnext hnon hmem ih => exact mem_eval_of_step_none ih ⟨_, hnext, hnon, hmem⟩

/-! The collection. -/

structure Automaton.Augments (a : Automaton) (g : Grammar) : Prop where
  accept_eq : a.accept = g.size
  isTerminal_eq : ∀ s, a.grammar.isTerminal s = g.isTerminal s
  bodies_accept : a.grammar.bodies a.accept = [[g.start]]
  bodies_of_ne : ∀ left, left ≠ a.accept → a.grammar.bodies left = g.bodies left

theorem Automaton.IsFor.augments (ha : a.IsFor g) : a.Augments g :=
  ⟨ha.accept_eq, ha.isTerminal_eq, ha.bodies_accept, fun _ hne => ha.bodies_of_ne hne⟩

/-- The states are the sets of items that can be reached from the closure of the start item, each of
them once, and from each state the symbols that are awaited there lead on, and no others. -/
structure Automaton.IsCanonical (a : Automaton) (g : Grammar) : Prop extends a.Augments g where
  start : ∃ s, a.states[0]? = some s ∧
    s.items = a.grammar.closure (.singleton (a.grammar.initialItem a.accept 0))
  distinct : ∀ (j k : Nat) (s s' : State), a.states[j]? = some s → a.states[k]? = some s' →
    s.items = s'.items → j = k
  reached : ∀ k < a.states.size, ∃ string, a.walk? string = some k
  edge_iff : ∀ (k : Nat) (s : State) (symbol : Nat), a.states[k]? = some s → symbol < g.size →
    symbol ≠ epsilon → symbol ≠ endMark →
      ((∃ j, a.transition k symbol = some j) ↔ ∃ i ∈ s.items, a.grammar.nextSymbol i = some symbol)
  target : ∀ (k j : Nat) (s : State) (symbol : Nat), a.states[k]? = some s →
    a.transition k symbol = some j →
      ∃ s', a.states[j]? = some s' ∧ s'.items = a.grammar.goto s.items symbol
  label : ∀ k symbol j, a.transition k symbol = some j →
    symbol < g.size ∧ symbol ≠ epsilon ∧ symbol ≠ endMark

theorem Automaton.Collects.index_unique {symbols : List Nat} (h : a.Collects symbols) {j k : Nat}
    {s s' : State} (hs : a.states[j]? = some s) (hs' : a.states[k]? = some s')
    (hitems : s.items = s'.items) : j = k := by
  have hj : (a.states.toList.map State.items)[j]? = some s.items := by
    simp [hs]
  have hk : (a.states.toList.map State.items)[k]? = some s.items := by
    simp [hs', hitems]
  have hlt := (List.getElem?_eq_some_iff.mp hj).1
  exact (List.getElem?_inj hlt h.nodup).mp (hj.trans hk.symm)

section IsFor

variable (ha : a.IsFor g) (hcollects : a.Collects (alphabet g))

include ha hcollects

/-- A state that holds the items valid for a string is the state that the string leads to. -/
theorem exists_walk?_of_state {k : Nat} {s : State} (hs : a.states[k]? = some s) :
    ∃ string, a.walk? string = some k := by
  obtain ⟨string, ⟨i, hi⟩, hvalid⟩ := hcollects.reached hs
  obtain ⟨j, hj⟩ := hi.exists_walk? ha
  obtain ⟨s', hs', hvalid'⟩ := ha.complete.valid_of_walk? hj
  have hitems : s'.items = s.items := by
    ext i
    rw [hvalid, hvalid']
  exact ⟨string, hcollects.index_unique hs' hs hitems ▸ hj⟩

theorem exists_valid_of_walk? {string : List Nat} {k : Nat} (h : a.walk? string = some k) :
    ∃ i, a.Valid string i := by
  induction string using List.reverseRecOn generalizing k with
  | nil => exact ⟨_, .start⟩
  | append_singleton string symbol _ =>
      obtain ⟨j, hj, hedge⟩ := Automaton.walk?_append_singleton.mp h
      obtain ⟨s, hs, hvalid⟩ := ha.complete.valid_of_walk? hj
      rw [Automaton.transition_eq_find? hs] at hedge
      obtain ⟨-, i, hi, hnext⟩ := hcollects.awaited hs hedge
      exact ⟨_, .move ((hvalid i).mp hi) hnext⟩

theorem walk?_eq_none_iff {string : List Nat} :
    a.walk? string = none ↔ ∀ i, ¬ a.Valid string i := by
  constructor
  · intro hnone i hi
    obtain ⟨k, hk⟩ := hi.exists_walk? ha
    rw [hk] at hnone
    cases hnone
  · intro hvalid
    rw [Option.eq_none_iff_forall_ne_some]
    intro k hk
    obtain ⟨i, hi⟩ := exists_valid_of_walk? ha hcollects hk
    exact hvalid i hi

/-- An automaton for the grammar that has no state or edge too many is the canonical one. -/
theorem isCanonical : a.IsCanonical g where
  toAugments := ha.augments
  start := ha.complete.start
  distinct _ _ _ _ hs hs' hitems := hcollects.index_unique hs hs' hitems
  reached _ hk := exists_walk?_of_state ha hcollects (Array.getElem?_eq_getElem hk)
  edge_iff k s symbol hs hlt hne hend := by
    constructor
    · rintro ⟨j, hedge⟩
      rw [Automaton.transition_eq_find? hs] at hedge
      exact (hcollects.awaited hs hedge).2
    · rintro ⟨i, hi, hnext⟩
      have hmark : endMark < symbol := by
        simp only [epsilon, endMark] at hne hend ⊢
        omega
      obtain ⟨j, hedge⟩ := ha.complete.leads hs (ha.mem_alphabet hmark hlt) hi hnext
      exact ⟨j, (Automaton.transition_eq_find? hs symbol).trans hedge⟩
  target k j s symbol hs hedge := by
    rw [Automaton.transition_eq_find? hs] at hedge
    exact ha.complete.target hs hedge
  label k symbol j hedge := by
    obtain ⟨s, hs, hedge⟩ := Option.bind_eq_some_iff.mp hedge
    obtain ⟨string, -, hvalid⟩ := hcollects.reached hs
    obtain ⟨-, i, hi, hnext⟩ := hcollects.awaited hs hedge
    obtain ⟨hmark, hlt⟩ := ((hvalid i).mp hi).next_lt ha hnext
    exact ⟨hlt, ne_epsilon_of_lt hmark, hmark.ne'⟩

end IsFor

theorem exists_build (hg : g.Readable) : ∃ name, g.automaton? = some (build g name) := by
  obtain ⟨symbol, hsymbol⟩ := (isNonterminal_iff.mp hg.isNonterminal_start).2
  have hname : g.name? g.start = some symbol.name := by
    simp [name?, hsymbol, Symbol.name]
  exact ⟨symbol.name, by rw [automaton?, hname]; rfl⟩

/-- Every grammar that was read has its automaton: the exploration and the closures it takes end, what
they end with is the canonical collection, and it simulates the automaton of single items. -/
theorem automaton_is_canonical (hg : g.Readable) :
    ∃ a, g.automaton? = some a ∧
      Explores a.grammar (alphabet g)
        #[a.grammar.closure (.singleton (a.grammar.initialItem a.accept 0))] #[]
        (a.states.map State.items) (a.states.map State.edges) ∧
      (∀ items, a.grammar.expand (a.grammar.closure items) = a.grammar.closure items) ∧
      a.IsCanonical g ∧
      ∀ string,
        (∀ k, a.walk? string = some k →
          ∃ s, a.states[k]? = some s ∧ {i | i ∈ s.items} = a.singleItems.eval string) ∧
        (a.walk? string = none ↔ a.singleItems.eval string = ∅) := by
  have hwf := hg.wellFormed
  have hstart := hg.isNonterminal_start
  obtain ⟨name, hbuild⟩ := exists_build hg
  have ha := isFor_build hwf hstart name
  have hcollects := collects_build hwf hstart name
  refine ⟨build g name, hbuild, explores_build hwf hstart name,
    expand_closure, isCanonical ha hcollects, fun string => ⟨fun k hk => ?_, ?_⟩⟩
  · obtain ⟨s, hs, hvalid⟩ := ha.complete.valid_of_walk? hk
    refine ⟨s, hs, Set.ext fun i => ?_⟩
    exact (hvalid i).trans mem_eval_iff_valid.symm
  · rw [walk?_eq_none_iff ha hcollects, Set.eq_empty_iff_forall_notMem]
    simp only [mem_eval_iff_valid]

/-! After `E + T` the sum may be complete or the product may go on. No string begins with `E T`. -/

theorem expression_collection :
    ∃ g a, Grammar.read .spaced "E -> E + T | T\nT -> T * F | F\nF -> ( E ) | i" = .ok g ∧
      g.automaton? = some a ∧ a.states.size = 12 ∧ a.IsCanonical g ∧
      a.singleItems.eval [2, 5, 3] = {⟨2, 0, 3⟩, ⟨3, 0, 1⟩} ∧ a.singleItems.eval [2, 3] = ∅ := by
  have hread : ((Grammar.read .spaced
      "E -> E + T | T\nT -> T * F | F\nF -> ( E ) | i").toOption.bind fun g =>
      g.automaton?.map fun a => decide (a.states.size = 12 ∧ a.walk? [2, 3] = none ∧
        ((a.walk? [2, 5, 3]).bind (a.states[·]?)).map (fun s => s.items.toList) =
          some [⟨2, 0, 3⟩, ⟨3, 0, 1⟩])) = some true := by
    decide +kernel
  simp only [Option.bind_eq_some_iff, Option.map_eq_some_iff, toOption_eq_some,
    decide_eq_true_eq] at hread
  obtain ⟨g, hg, a, ha, hsize, hnone, s, ⟨k, hk, hs⟩, hitems⟩ := hread
  obtain ⟨a', ha', -, -, hcanonical, hstring⟩ := automaton_is_canonical (.read hg)
  obtain rfl : a = a' := Option.some.inj (ha.symm.trans ha')
  obtain ⟨s', hs', heval⟩ := (hstring [2, 5, 3]).1 k hk
  obtain rfl : s = s' := Option.some.inj (hs.symm.trans hs')
  refine ⟨g, a, hg, ha, hsize, hcanonical, ?_, (hstring [2, 3]).2.mp hnone⟩
  rw [← heval]
  ext i
  simp [SortedSet.mem_def, hitems]

end Lookahead.LR0
