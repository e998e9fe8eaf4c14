import Lookahead.Proofs.LR0.Valid

/-!
What the exploration finds, and nothing else. Every state can be reached from the first one and so
holds the items that are valid for some string, no two states hold the same items, and every edge of a
state carries a symbol that one of its items awaits.
-/

namespace Lookahead.LR0

open Grammar Relation

variable {g : Grammar}

def LeadsTo (g : Grammar) (symbols : List Nat) (source target : ItemSet) : Prop :=
  ∃ symbol ∈ symbols, (g.goto source symbol).isEmpty = false ∧ target = g.goto source symbol

def AllReached (g : Grammar) (symbols : List Nat) (first : ItemSet) (found : Array ItemSet) : Prop :=
  ∀ items ∈ found.toList, ReflTransGen (LeadsTo g symbols) first items

def LeadsOn (g : Grammar) (symbols : List Nat) (source : ItemSet) (row : SortedMap Nat Nat) : Prop :=
  ∀ symbol, (row.find? symbol).isSome = true →
    symbol ∈ symbols ∧ (g.goto source symbol).isEmpty = false

section Explore

variable {symbols : List Nat} {first source : ItemSet} {found : Array ItemSet}
  {row : SortedMap Nat Nat}

theorem mem_locate {items other : ItemSet} (h : other ∈ (locate found items).1.toList) :
    other ∈ found.toList ∨ other = items := by
  unfold locate at h
  split at h
  · exact .inl h
  · simpa using h

/-- A set that is found by following a symbol is reached over this symbol. -/
theorem follow_reached (hsource : ReflTransGen (LeadsTo g symbols) first source)
    (hfound : AllReached g symbols first found) (hrow : LeadsOn g symbols source row) {symbol : Nat}
    (hsymbol : symbol ∈ symbols) :
    AllReached g symbols first (follow g source (found, row) symbol).1 ∧
      LeadsOn g symbols source (follow g source (found, row) symbol).2 := by
  unfold follow
  dsimp only
  split
  · exact ⟨hfound, hrow⟩
  · next hne =>
      have hne : (g.goto source symbol).isEmpty = false := by simpa using hne
      constructor
      · intro items hitems
        rcases mem_locate hitems with hitems | rfl
        · exact hfound items hitems
        · exact hsource.tail ⟨symbol, hsymbol, hne, rfl⟩
      · intro x hx
        rw [SortedMap.find?_insert] at hx
        split at hx
        · next hsame => exact hsame ▸ ⟨hsymbol, hne⟩
        · exact hrow x hx

theorem foldl_follow_reached (hsource : ReflTransGen (LeadsTo g symbols) first source)
    {l : List Nat} (hl : l ⊆ symbols) (hfound : AllReached g symbols first found)
    (hrow : LeadsOn g symbols source row) :
    AllReached g symbols first (l.foldl (follow g source) (found, row)).1 ∧
      LeadsOn g symbols source (l.foldl (follow g source) (found, row)).2 := by
  induction l generalizing found row with
  | nil => exact ⟨hfound, hrow⟩
  | cons symbol l ih =>
      obtain ⟨hsymbol, hl⟩ := List.cons_subset.mp hl
      obtain ⟨hfound', hrow'⟩ := follow_reached hsource hfound hrow hsymbol
      exact ih hl hfound' hrow'

structure Collected (g : Grammar) (symbols : List Nat) (first : ItemSet) (found : Array ItemSet)
    (rows : Array (SortedMap Nat Nat)) : Prop where
  reached : AllReached g symbols first found
  leadsOn : ∀ {k : Nat} {source : ItemSet} {row : SortedMap Nat Nat}, found[k]? = some source →
    rows[k]? = some row → LeadsOn g symbols source row

theorem Collected.push {rows : Array (SortedMap Nat Nat)} (h : Collected g symbols first found rows)
    (hexplored : Explored g symbols found rows) (hsource : found[rows.size]? = some source) :
    Collected g symbols first (symbols.foldl (follow g source) (found, ∅)).1
      (rows.push (symbols.foldl (follow g source) (found, ∅)).2) := by
  have hmem : source ∈ found.toList := by simpa using Array.mem_of_getElem? hsource
  have hempty : LeadsOn g symbols source ∅ := by simp [LeadsOn]
  obtain ⟨hreached, hrow⟩ :=
    foldl_follow_reached (h.reached source hmem) (List.Subset.refl _) h.reached hempty
  obtain ⟨hkeeps, -⟩ := hexplored.push hsource
  refine ⟨hreached, fun {k other row} hk hother => ?_⟩
  rw [Array.getElem?_push] at hother
  split at hother
  · next hsize =>
      subst hsize
      cases hother
      rw [hkeeps hsource] at hk
      cases hk
      exact hrow
  · -- the row was known before, and so was its set
    have hlt := (Array.getElem?_eq_some_iff.mp hother).1
    have hbefore := Array.getElem?_eq_getElem (hlt.trans_le hexplored.size_le)
    rw [hkeeps hbefore] at hk
    exact h.leadsOn (hbefore.trans hk) hother

/-- The exploration finds no set that cannot be reached, and enters no symbol that leads nowhere. -/
theorem Collected.explore {rows : Array (SortedMap Nat Nat)} (limit : Nat)
    (h : Collected g symbols first found rows) (hexplored : Explored g symbols found rows) :
    Collected g symbols first (explore g symbols limit found rows).1
      (explore g symbols limit found rows).2 := by
  induction limit generalizing found rows with
  | zero => exact h
  | succ limit ih =>
      rw [LR0.explore]
      split
      · exact h
      · next source hsource => exact ih (h.push hexplored hsource) (hexplored.push hsource).2

end Explore

/-- A set that can be reached from the first one holds what is valid for some string. -/
theorem exists_string_of_reached {a : Automaton} {symbols : List Nat} {items : ItemSet}
    (h : ReflTransGen (LeadsTo a.grammar symbols)
      (a.grammar.closure (.singleton (a.grammar.initialItem a.accept 0))) items) :
    ∃ string, (∃ i, a.Valid string i) ∧ ∀ i, i ∈ items ↔ a.Valid string i := by
  induction h with
  | refl => exact ⟨[], ⟨_, .start⟩, fun _ => valid_nil⟩
  | tail _ hleads ih =>
      obtain ⟨string, -, hvalid⟩ := ih
      obtain ⟨symbol, -, hne, rfl⟩ := hleads
      obtain ⟨j, hj, hnext⟩ := goto_isEmpty.mp hne
      exact ⟨string ++ [symbol], ⟨_, .move ((hvalid j).mp hj) hnext⟩,
        fun _ => mem_goto_iff_valid hvalid⟩

/-- The states of the automaton are the distinct sets of valid items, and an edge of a state stands
for a symbol that is awaited there. -/
structure Automaton.Collects (a : Automaton) (symbols : List Nat) : Prop where
  nodup : (a.states.toList.map State.items).Nodup
  reached : ∀ {k : Nat} {s : State}, a.states[k]? = some s →
    ∃ string, (∃ i, a.Valid string i) ∧ ∀ i, i ∈ s.items ↔ a.Valid string i
  awaited : ∀ {k symbol j : Nat} {s : State}, a.states[k]? = some s →
    s.edges.find? symbol = some j →
      symbol ∈ symbols ∧ ∃ i ∈ s.items, a.grammar.nextSymbol i = some symbol

section Build

variable (hg : g.WellFormed) (hstart : g.isNonterminal g.start = true) (name : String)

include hg hstart

theorem collected_exploration : Collected (augment g name) (alphabet g) (firstItems g name)
    (exploration g name).1 (exploration g name).2 := by
  apply Collected.explore
  · constructor
    · intro items hitems
      obtain rfl : items = firstItems g name := by simpa using hitems
      exact .refl
    · intro k source row _ hrow
      simp at hrow
  · exact explored_first hg hstart name

theorem items_build : (build g name).states.map State.items = (exploration g name).1 := by
  have hsize := (explored_exploration hg hstart name).2.1
  rw [states_build]
  apply Array.ext
  · simp [hsize]
  · intro k _ _
    simp

theorem edges_build : (build g name).states.map State.edges = (exploration g name).2 := by
  have hsize := (explored_exploration hg hstart name).2.1
  rw [states_build]
  apply Array.ext
  · simp [hsize]
  · intro k _ _
    simp

/-- The automaton that is built has no state twice, none that cannot be reached, and no edge over a
symbol that is not awaited. -/
theorem collects_build : (build g name).Collects (alphabet g) := by
  obtain ⟨hexplored, -⟩ := explored_exploration hg hstart name
  have hcollected := collected_exploration hg hstart name
  have hstate {k : Nat} {s : State} (hs : (build g name).states[k]? = some s) :
      (exploration g name).1[k]? = some s.items ∧ (exploration g name).2[k]? = some s.edges := by
    rw [states_build] at hs
    obtain ⟨items, edges, hitems, hedges, rfl⟩ := Array.getElem?_zipWith_eq_some.mp hs
    exact ⟨hitems, hedges⟩
  refine ⟨?_, fun hs => ?_, fun hs hedge => ?_⟩
  · rw [← Array.toList_map, items_build hg hstart]
    exact hexplored.distinct.nodup
  · have hmem := Array.mem_of_getElem? (hstate hs).1
    exact exists_string_of_reached (a := build g name) (hcollected.reached _ (by simpa using hmem))
  · obtain ⟨hitems, hedges⟩ := hstate hs
    obtain ⟨hsymbol, hne⟩ := hcollected.leadsOn hitems hedges _ (by rw [hedge]; rfl)
    exact ⟨hsymbol, goto_isEmpty.mp hne⟩

end Build

end Lookahead.LR0
