import Lookahead.Proofs.LR0.Item
import Lookahead.Proofs.SortedMap
import Mathlib.Data.Finset.Powerset

/-!
The automaton is complete: its first state is the closure of the start item, and from each state
every symbol that an item awaits leads to the state that holds the items moved over it. The
exploration is never cut short, since the sets it finds are distinct and there are no more sets of
items than it may take up.
-/

namespace Lookahead.LR0

open Grammar

variable {g : Grammar}

def Keeps (found found' : Array ItemSet) : Prop :=
  ∀ ⦃k : Nat⦄ ⦃items : ItemSet⦄, found[k]? = some items → found'[k]? = some items

theorem Keeps.refl (found : Array ItemSet) : Keeps found found := fun _ _ h => h

theorem Keeps.trans {a b c : Array ItemSet} (h : Keeps a b) (h' : Keeps b c) : Keeps a c :=
  fun _ _ hk => h' (h hk)

structure Distinct (g : Grammar) (found : Array ItemSet) : Prop where
  nodup : found.toList.Nodup
  holds : ∀ items ∈ found.toList, ∀ i ∈ items, g.Holds i

/-- A set is found where it stands, or it is put behind the others. -/
theorem locate_spec {found : Array ItemSet} {items : ItemSet} (hfound : Distinct g found)
    (hitems : ∀ i ∈ items, g.Holds i) :
    Keeps found (locate found items).1 ∧ Distinct g (locate found items).1 ∧
      (locate found items).1[(locate found items).2]? = some items := by
  unfold locate
  split
  · next k hk =>
      obtain ⟨hlt, hsame, -⟩ := Array.findIdx?_eq_some_iff_getElem.mp hk
      refine ⟨.refl _, hfound, ?_⟩
      simp only [decide_eq_true_eq] at hsame
      rw [Array.getElem?_eq_getElem hlt, hsame]
  · next hnone =>
      have hnew : items ∉ found.toList := by
        intro hmem
        have hall := Array.findIdx?_eq_none_iff.mp hnone items (by simpa using hmem)
        simp at hall
      refine ⟨fun k _ hk => ?_, ⟨?_, ?_⟩, by simp⟩
      · have hlt := (Array.getElem?_eq_some_iff.mp hk).1
        rw [Array.getElem?_push, if_neg (by omega), hk]
      · rw [Array.toList_push]
        refine List.nodup_append.mpr ⟨hfound.nodup, by simp, fun a ha b hb => ?_⟩
        rintro rfl
        exact hnew (List.mem_singleton.mp hb ▸ ha)
      · intro other hother
        rw [Array.toList_push, List.mem_append, List.mem_singleton] at hother
        rcases hother with hother | rfl
        · exact hfound.holds other hother
        · exact hitems

def PointsTo (g : Grammar) (source : ItemSet) (found : Array ItemSet) (row : SortedMap Nat Nat) :
    Prop :=
  ∀ ⦃symbol k : Nat⦄, row.find? symbol = some k → found[k]? = some (g.goto source symbol)

theorem PointsTo.keeps {source : ItemSet} {found found' : Array ItemSet}
    {row : SortedMap Nat Nat} (h : PointsTo g source found row) (hkeeps : Keeps found found') :
    PointsTo g source found' row :=
  fun _ _ hk => hkeeps (h hk)

/-- Following a symbol leaves the sets that were found in their places, and enters in the row where the
symbol leads. -/
theorem follow_spec {source : ItemSet} (hsource : ∀ i ∈ source, g.Holds i)
    {found : Array ItemSet} {row : SortedMap Nat Nat} (hfound : Distinct g found)
    (hrow : PointsTo g source found row) (symbol : Nat) :
    Keeps found (follow g source (found, row) symbol).1 ∧
      Distinct g (follow g source (found, row) symbol).1 ∧
      PointsTo g source (follow g source (found, row) symbol).1
        (follow g source (found, row) symbol).2 ∧
      ∀ x, (row.find? x).isSome = true ∨
          x = symbol ∧ (g.goto source symbol).isEmpty = false →
        ((follow g source (found, row) symbol).2.find? x).isSome = true := by
  unfold follow
  dsimp only
  split
  · next hempty =>
      refine ⟨.refl _, hfound, hrow, ?_⟩
      rintro x (hx | ⟨-, hne⟩)
      · exact hx
      · rw [hempty] at hne
        cases hne
  · have hgoto (i : Item) (hi : i ∈ g.goto source symbol) : g.Holds i := holds_goto hsource hi
    obtain ⟨hkeeps, hdistinct, hplace⟩ := locate_spec hfound hgoto
    refine ⟨hkeeps, hdistinct, fun x k hk => ?_, fun x hx => ?_⟩
    · rw [SortedMap.find?_insert] at hk
      split at hk
      · next hsame =>
          cases hk
          rw [← hsame]
          exact hplace
      · exact hkeeps (hrow hk)
    · rw [SortedMap.find?_insert]
      split
      · rfl
      · next hne => exact hx.resolve_right fun h => hne h.1.symm

theorem foldl_follow_spec {source : ItemSet} (hsource : ∀ i ∈ source, g.Holds i)
    (symbols : List Nat) {found : Array ItemSet} {row : SortedMap Nat Nat}
    (hfound : Distinct g found) (hrow : PointsTo g source found row) :
    Keeps found (symbols.foldl (follow g source) (found, row)).1 ∧
      Distinct g (symbols.foldl (follow g source) (found, row)).1 ∧
      PointsTo g source (symbols.foldl (follow g source) (found, row)).1
        (symbols.foldl (follow g source) (found, row)).2 ∧
      ∀ x, (row.find? x).isSome = true ∨ x ∈ symbols ∧ (g.goto source x).isEmpty = false →
        ((symbols.foldl (follow g source) (found, row)).2.find? x).isSome = true := by
  induction symbols generalizing found row with
  | nil => exact ⟨.refl _, hfound, hrow, by simp⟩
  | cons symbol symbols ih =>
      obtain ⟨hkeeps, hdistinct, hpoints, hleads⟩ := follow_spec hsource hfound hrow symbol
      obtain ⟨hkeeps', hdistinct', hpoints', hleads'⟩ := ih hdistinct hpoints
      refine ⟨hkeeps.trans hkeeps', hdistinct', hpoints', ?_⟩
      rintro x (hx | ⟨hx, hne⟩)
      · exact hleads' x (.inl (hleads x (.inl hx)))
      · rcases List.mem_cons.mp hx with rfl | hx
        · exact hleads' x (.inl (hleads x (.inr ⟨rfl, hne⟩)))
        · exact hleads' x (.inr ⟨hx, hne⟩)

/-- What the exploration keeps true: the rows that are known belong to the sets found first. -/
structure Explored (g : Grammar) (symbols : List Nat) (found : Array ItemSet)
    (rows : Array (SortedMap Nat Nat)) : Prop where
  distinct : Distinct g found
  size_le : rows.size ≤ found.size
  points : ∀ {k : Nat} {source : ItemSet} {row : SortedMap Nat Nat}, found[k]? = some source →
    rows[k]? = some row → PointsTo g source found row
  leads : ∀ {k : Nat} {source : ItemSet} {row : SortedMap Nat Nat} {symbol : Nat},
    found[k]? = some source → rows[k]? = some row → symbol ∈ symbols →
    (g.goto source symbol).isEmpty = false → (row.find? symbol).isSome = true

/-- One more row: the sets that its symbols lead to are known then, in their places. -/
theorem Explored.push {symbols : List Nat} {found : Array ItemSet}
    {rows : Array (SortedMap Nat Nat)} (h : Explored g symbols found rows) {source : ItemSet}
    (hsource : found[rows.size]? = some source) :
    Keeps found (symbols.foldl (follow g source) (found, ∅)).1 ∧
      Explored g symbols (symbols.foldl (follow g source) (found, ∅)).1
        (rows.push (symbols.foldl (follow g source) (found, ∅)).2) := by
  have hmem : source ∈ found.toList := by simpa using Array.mem_of_getElem? hsource
  have hempty : PointsTo g source found ∅ := fun _ _ hk => by simp at hk
  obtain ⟨hkeeps, hdistinct, hpoints, hleads⟩ :=
    foldl_follow_spec (h.distinct.holds source hmem) symbols h.distinct hempty
  generalize symbols.foldl (follow g source) (found, ∅) = next at hkeeps hdistinct hpoints hleads ⊢
  -- a row other than the new one belongs to a set that was found before
  have hold {k : Nat} {other : ItemSet} (hk : next.1[k]? = some other) (hlt : k < rows.size) :
      found[k]? = some other := by
    have hbefore := Array.getElem?_eq_getElem (hlt.trans_le h.size_le)
    rw [← hk, hkeeps hbefore, hbefore]
  have hnew {other : ItemSet} (hk : next.1[rows.size]? = some other) : other = source := by
    rw [hkeeps hsource] at hk
    exact (Option.some.inj hk).symm
  refine ⟨hkeeps, hdistinct, ?_, fun {k other row} hk hrow => ?_, fun {k other row x} hk hrow => ?_⟩
  · rw [Array.size_push]
    exact (Array.getElem?_eq_some_iff.mp (hkeeps hsource)).1
  · rw [Array.getElem?_push] at hrow
    split at hrow
    · next hsize =>
        subst hsize
        cases hrow
        rw [hnew hk]
        exact hpoints
    · have hlt := (Array.getElem?_eq_some_iff.mp hrow).1
      exact (h.points (hold hk hlt) hrow).keeps hkeeps
  · rw [Array.getElem?_push] at hrow
    split at hrow
    · next hsize =>
        subst hsize
        cases hrow
        rw [hnew hk]
        exact fun hx hne => hleads x (.inr ⟨hx, hne⟩)
    · have hlt := (Array.getElem?_eq_some_iff.mp hrow).1
      exact h.leads (hold hk hlt) hrow

theorem mem_allItems {i : Item} (h : g.Holds i) : i ∈ allItems g := by
  obtain ⟨body, hbody, hle⟩ := h
  have hleft : i.left < g.size := by
    obtain ⟨n, hn, -⟩ := mem_bodies_iff.mp (List.mem_of_getElem? hbody)
    exact lt_size_of_getElem? hn
  simp only [allItems, List.mem_flatMap, List.mem_range, List.mem_map, Prod.exists,
    List.mem_zipIdx_iff_getElem?]
  exact ⟨i.left, hleft, body, i.production, hbody, i.position, by omega, rfl⟩

/-- There are no more distinct sets than there are sets of items. -/
theorem Distinct.size_le {found : Array ItemSet} (h : Distinct g found) :
    found.size ≤ Nat.pow 2 (allItems g).length := by
  have hinj : Function.Injective fun items : ItemSet => items.toList.toFinset := by
    intro s t hst
    apply SortedSet.ext
    intro i
    have hi := congrArg (i ∈ ·) hst
    simpa [SortedSet.mem_def] using hi
  have hsub : (found.toList.map fun items => items.toList.toFinset).toFinset ⊆
      (allItems g).toFinset.powerset := by
    intro items hitems
    obtain ⟨source, hsource, rfl⟩ := List.mem_map.mp (List.mem_toFinset.mp hitems)
    apply Finset.mem_powerset.mpr
    intro i hi
    exact List.mem_toFinset.mpr (mem_allItems (h.holds source hsource i (List.mem_toFinset.mp hi)))
  calc found.size = (found.toList.map fun items => items.toList.toFinset).toFinset.card := by
        rw [List.toFinset_card_of_nodup (h.nodup.map hinj)]
        simp
    _ ≤ (allItems g).toFinset.powerset.card := Finset.card_le_card hsub
    _ = 2 ^ (allItems g).toFinset.card := Finset.card_powerset _
    _ ≤ 2 ^ (allItems g).length := Nat.pow_le_pow_right (by omega) (List.toFinset_card_le _)

/-- Such a limit is enough. The sets are distinct sets of items of the grammar, and the exploration ends
with a row for each of them. -/
theorem explore_spec {symbols : List Nat} (limit : Nat) {found : Array ItemSet}
    {rows : Array (SortedMap Nat Nat)} (h : Explored g symbols found rows)
    (hlimit : Nat.pow 2 (allItems g).length ≤ limit + rows.size) :
    Keeps found (explore g symbols limit found rows).1 ∧
      Explored g symbols (explore g symbols limit found rows).1
        (explore g symbols limit found rows).2 ∧
      (explore g symbols limit found rows).1.size = (explore g symbols limit found rows).2.size := by
  induction limit generalizing found rows with
  | zero =>
      refine ⟨.refl _, h, le_antisymm ?_ h.size_le⟩
      have := h.distinct.size_le
      simp only [explore]
      omega
  | succ limit ih =>
      rw [explore]
      split
      · next hnone =>
          refine ⟨.refl _, h, le_antisymm ?_ h.size_le⟩
          exact Array.getElem?_eq_none_iff.mp hnone
      · next source hsource =>
          obtain ⟨hkeeps, hnext⟩ := h.push hsource
          obtain ⟨hkeeps', hexplored, hsize⟩ := ih hnext (by rw [Array.size_push]; omega)
          exact ⟨hkeeps.trans hkeeps', hexplored, hsize⟩

/-- The first state holds what the start item calls for, and every symbol of the alphabet that an
item of a state awaits leads to a state with the items moved over it. -/
structure Automaton.Complete (a : Automaton) (symbols : List Nat) : Prop where
  start : ∃ s, a.states[0]? = some s ∧
    s.items = a.grammar.closure (.singleton (a.grammar.initialItem a.accept 0))
  target : ∀ {k j symbol : Nat} {s : State}, a.states[k]? = some s →
    s.edges.find? symbol = some j →
    ∃ s', a.states[j]? = some s' ∧ s'.items = a.grammar.goto s.items symbol
  leads : ∀ {k symbol : Nat} {s : State} {i : Item}, a.states[k]? = some s → symbol ∈ symbols →
    i ∈ s.items → a.grammar.nextSymbol i = some symbol → ∃ j, s.edges.find? symbol = some j

/-- An automaton whose states are the explored sets with their rows is complete. -/
theorem complete_of_explored {a : Automaton} {symbols : List Nat} {found : Array ItemSet}
    {rows : Array (SortedMap Nat Nat)} (hstates : a.states = found.zipWith State.mk rows)
    (h : Explored a.grammar symbols found rows) (hsize : found.size = rows.size)
    (hfirst : found[0]? =
      some (a.grammar.closure (.singleton (a.grammar.initialItem a.accept 0)))) :
    a.Complete symbols := by
  have hstate {k : Nat} {s : State} (hs : a.states[k]? = some s) :
      found[k]? = some s.items ∧ rows[k]? = some s.edges := by
    rw [hstates] at hs
    obtain ⟨items, edges, hitems, hedges, rfl⟩ := Array.getElem?_zipWith_eq_some.mp hs
    exact ⟨hitems, hedges⟩
  have hfound {k : Nat} {items : ItemSet} (hk : found[k]? = some items) :
      ∃ s, a.states[k]? = some s ∧ s.items = items := by
    have hlt := (Array.getElem?_eq_some_iff.mp hk).1
    rw [hsize] at hlt
    rw [hstates]
    exact ⟨_, Array.getElem?_zipWith_eq_some.mpr
      ⟨items, _, hk, Array.getElem?_eq_getElem hlt, rfl⟩, rfl⟩
  refine ⟨hfound hfirst, ?_, ?_⟩
  · intro k j symbol s hs hedge
    obtain ⟨hitems, hedges⟩ := hstate hs
    exact hfound (h.points hitems hedges hedge)
  · intro k symbol s i hs hsymbol hi hnext
    obtain ⟨hitems, hedges⟩ := hstate hs
    exact Option.isSome_iff_exists.mp
      (h.leads hitems hedges hsymbol (goto_isEmpty.mpr ⟨i, hi, hnext⟩))

/-! The grammar of the automaton. -/

def firstItems (g : Grammar) (name : String) : ItemSet :=
  (augment g name).closure (.singleton ((augment g name).initialItem g.size 0))

def exploration (g : Grammar) (name : String) : Array ItemSet × Array (SortedMap Nat Nat) :=
  explore (augment g name) (alphabet g) (Nat.pow 2 (allItems (augment g name)).length)
    #[firstItems g name] #[]

theorem states_build (g : Grammar) (name : String) :
    (build g name).states = (exploration g name).1.zipWith State.mk (exploration g name).2 := rfl

section Augment

variable (hg : g.WellFormed) (hstart : g.isNonterminal g.start = true) (name : String)

include hstart

theorem augment_eq : augment g name =
    (g.addNonterminal (g.freshName name)).addBody g.size [g.start] := by
  have hne : g.start ≠ epsilon := (isNonterminal_iff.mp hstart).1
  have hsame : ((g.addNonterminal (g.freshName name)).addBody g.size [g.start]).start = g.start := by
    rw [addBody, start_updateBodies, addNonterminal, if_neg hne]
  unfold augment
  generalize (g.addNonterminal (g.freshName name)).addBody g.size [g.start] = added at hsame
  cases added
  exact congrArg _ hsame.symm

theorem isTerminal_augment (s : Nat) : (augment g name).isTerminal s = g.isTerminal s := by
  rw [augment_eq hstart, addBody, isTerminal_updateBodies, isTerminal_addNonterminal]

theorem size_augment : (augment g name).size = g.size + 1 := by
  rw [augment_eq hstart, addBody, size_updateBodies, size_addNonterminal]

theorem name?_augment (s : Nat) :
    (augment g name).name? s = if s = g.size then some (g.freshName name) else g.name? s := by
  rw [augment_eq hstart, addBody, name?_updateBodies, name?_addNonterminal]

include hg

theorem isNonterminal_augment {s : Nat} : (augment g name).isNonterminal s = true ↔
    s = g.size ∨ g.isNonterminal s = true := by
  have hne := hg.size_ne_epsilon
  rw [augment_eq hstart, addBody, isNonterminal_updateBodies, isNonterminal_addNonterminal]
  simp only [Bool.or_eq_true, Bool.and_eq_true, bne_iff_ne, beq_iff_eq]
  constructor
  · rintro (⟨-, h⟩ | h)
    · exact .inl h
    · exact .inr h
  · rintro (rfl | h)
    · exact .inl ⟨hne, rfl⟩
    · exact .inr h

/-- The added nonterminal has the start symbol for its only alternative, and the others keep theirs. -/
theorem bodies_augment (left : Nat) : (augment g name).bodies left =
    if left = g.size then [[g.start]] else g.bodies left := by
  have hne : g.start ≠ epsilon := (isNonterminal_iff.mp hstart).1
  have hnormal : Body.normalize [g.start] = [g.start] := by
    simp [Body.normalize, Body.visible, hne]
  have hsize : (g.addNonterminal (g.freshName name)).isNonterminal g.size = true := by
    simp [isNonterminal_addNonterminal, hg.size_ne_epsilon]
  rw [augment_eq hstart, addBody, bodies_updateBodies, bodies_addNonterminal, hnormal]
  simp only [hsize, and_true]
  split
  · next h => rw [h, bodies_size, List.nil_append]
  · rfl

theorem wellFormed_augment : (augment g name).WellFormed := by
  rw [augment_eq hstart]
  refine (hg.addNonterminal (index?_freshName name)).addBody fun s hs hne => ?_
  obtain rfl := List.mem_singleton.mp hs
  have hlt := lt_size_of_isNonterminal hstart
  have hend : g.start ≠ endMark := by
    intro heq
    rw [heq, not_isNonterminal_of_isTerminal hg.isTerminal_endMark] at hstart
    cases hstart
  rw [size_addNonterminal]
  simp only [epsilon, endMark] at hne hend ⊢
  omega

theorem holds_firstItems : ∀ i ∈ firstItems g name, (augment g name).Holds i := by
  intro i hi
  apply (mem_closure.mp hi).holds
  intro j hj
  obtain rfl := SortedSet.mem_singleton.mp hj
  exact holds_initialItem (by simp [bodies_augment hg hstart])

theorem explored_first : Explored (augment g name) (alphabet g) #[firstItems g name] #[] := by
  refine ⟨⟨by simp, by simpa using holds_firstItems hg hstart name⟩, by simp, ?_, ?_⟩
  · intro k source row _ hrow
    simp at hrow
  · intro k source row symbol _ hrow
    simp at hrow

theorem explored_exploration :
    Explored (augment g name) (alphabet g) (exploration g name).1 (exploration g name).2 ∧
      (exploration g name).1.size = (exploration g name).2.size ∧
      (exploration g name).1[0]? = some (firstItems g name) := by
  obtain ⟨hkeeps, hexplored, hsize⟩ := explore_spec
    (Nat.pow 2 (allItems (augment g name)).length) (explored_first hg hstart name) (by simp)
  have hfirst : #[firstItems g name][0]? = some (firstItems g name) := by simp
  exact ⟨hexplored, hsize, hkeeps hfirst⟩

theorem complete_build : (build g name).Complete (alphabet g) := by
  obtain ⟨hexplored, hsize, hfirst⟩ := explored_exploration hg hstart name
  exact complete_of_explored (states_build g name) hexplored hsize hfirst

/-- The items of every state are items of the grammar of the automaton. -/
theorem holds_build {k : Nat} {s : State} (hs : (build g name).states[k]? = some s) :
    ∀ i ∈ s.items, (build g name).grammar.Holds i := by
  have hexplored := (explored_exploration hg hstart name).1
  rw [states_build] at hs
  obtain ⟨items, edges, hitems, -, rfl⟩ := Array.getElem?_zipWith_eq_some.mp hs
  exact hexplored.distinct.holds items (by simpa using Array.mem_of_getElem? hitems)

end Augment

/-- The automaton is a complete one for the grammar, whose alternatives it has along with that of the
added nonterminal. -/
structure Automaton.IsFor (a : Automaton) (g : Grammar) : Prop where
  wellFormed : g.WellFormed
  isNonterminal_start : g.isNonterminal g.start = true
  grammar_wellFormed : a.grammar.WellFormed
  accept_eq : a.accept = g.size
  isTerminal_eq : ∀ s, a.grammar.isTerminal s = g.isTerminal s
  isNonterminal_of : ∀ {s : Nat}, g.isNonterminal s = true → a.grammar.isNonterminal s = true
  bodies_accept : a.grammar.bodies a.accept = [[g.start]]
  bodies_of_ne : ∀ {left : Nat}, left ≠ a.accept → a.grammar.bodies left = g.bodies left
  complete : a.Complete (alphabet g)

/-- The automaton that is built from a grammar is one for this grammar. -/
theorem isFor_build (hg : g.WellFormed) (hstart : g.isNonterminal g.start = true) (name : String) :
    (build g name).IsFor g where
  wellFormed := hg
  isNonterminal_start := hstart
  grammar_wellFormed := wellFormed_augment hg hstart name
  accept_eq := rfl
  isTerminal_eq := isTerminal_augment hstart name
  isNonterminal_of hs := (isNonterminal_augment hg hstart name).mpr (.inr hs)
  bodies_accept := (bodies_augment hg hstart name g.size).trans (if_pos rfl)
  bodies_of_ne {left} hne := (bodies_augment hg hstart name left).trans (if_neg hne)
  complete := complete_build hg hstart name

namespace Automaton.IsFor

variable {a : Automaton} (ha : a.IsFor g)

include ha

theorem ne_accept {s : Nat} (h : s < g.size) : s ≠ a.accept := by
  rw [ha.accept_eq]
  exact h.ne

theorem body_of_ne {left : Nat} (h : left ≠ a.accept) (production : Nat) :
    a.grammar.body left production = g.body left production := by
  rw [Grammar.body, ha.bodies_of_ne h, Grammar.body]

theorem start_ne_epsilon : g.start ≠ epsilon := (isNonterminal_iff.mp ha.isNonterminal_start).1

theorem mem_alphabet {s : Nat} (hend : endMark < s) (hlt : s < g.size) : s ∈ alphabet g := by
  simp only [alphabet, List.mem_append, List.mem_filter, terminals, List.mem_range, List.mem_map,
    decide_eq_true_eq]
  rcases isTerminal_or_isNonterminal hlt (ne_epsilon_of_lt hend) with hterm | hnon
  · exact .inl ⟨⟨hlt, hterm⟩, hend.ne'⟩
  · obtain ⟨n, hn, hindex, -⟩ := ha.wellFormed.exists_nonterminal hnon
    exact .inr ⟨n, hn, hindex⟩

end Automaton.IsFor

end Lookahead.LR0
