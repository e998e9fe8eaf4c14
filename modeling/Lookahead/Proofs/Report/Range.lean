import Lookahead.Proofs.Analysis
import Lookahead.Proofs.Report.Grid
import Lookahead.Proofs.Report.Named
import Lookahead.Proofs.Sets.Checked
import Lookahead.Proofs.SLR1.Stack
import Lookahead.Report.Trace
import Lookahead.Report.View

/-!
No lookup goes out of range on a grammar that was read. The added nonterminal of the automaton has a
number that only the grammar of the automaton knows. Its item accepts and is never reduced, no edge
carries it, and nothing that is written with the grammar itself comes to name it.
-/

namespace Lookahead

open Grammar LR0 Machine

variable {g : Grammar}

section Automaton

variable {a : LR0.Automaton} (ha : a.IsFor g)

include ha

/-- Symbols of the grammar are symbols of the grammar of its automaton. -/
theorem LR0.Automaton.IsFor.lt_size {s : Nat} (h : s < g.size) : s < a.grammar.size := by
  by_cases hs : s = epsilon
  · rw [hs]
    exact ha.grammar_wellFormed.epsilon_lt_size
  · rcases isTerminal_or_isNonterminal h hs with hterm | hnon
    · rw [← ha.isTerminal_eq] at hterm
      exact lt_size_of_isTerminal hterm
    · exact lt_size_of_isNonterminal (ha.isNonterminal_of hnon)

variable (hcollects : a.Collects (alphabet g)) {k : Nat} {s : LR0.State}
  (hs : a.states[k]? = some s)

include hcollects hs

/-- The left sides of the items of a state. Only that of the added nonterminal is new. -/
theorem left_lt_size {i : Item} (hi : i ∈ s.items) :
    i.left < a.grammar.size ∧ (i.left ≠ a.accept → i.left < g.size) := by
  obtain ⟨string, -, hvalid⟩ := hcollects.reached hs
  have hbody := (((hvalid i).mp hi).holds ha).body_mem
  refine ⟨lt_size_of_isNonterminal (ha.grammar_wellFormed.isNonterminal_of_mem_bodies hbody), ?_⟩
  intro hleft
  rw [ha.bodies_of_ne hleft] at hbody
  exact lt_size_of_isNonterminal (ha.wellFormed.isNonterminal_of_mem_bodies hbody)

theorem edge_lt_size {symbol j : Nat} (hedge : s.edges.find? symbol = some j) :
    symbol < g.size := by
  obtain ⟨string, -, hvalid⟩ := hcollects.reached hs
  obtain ⟨-, i, hi, hnext⟩ := hcollects.awaited hs hedge
  exact (((hvalid i).mp hi).next_lt ha hnext).2

/-- An action that an item of a state calls for stands on a terminal of the grammar, and reduces no
alternative of the added nonterminal. -/
theorem lt_size_of_mem_actionsOf {i : Item} (hi : i ∈ s.items) {t : Nat} {action : SLR1.Action}
    (h : (t, action) ∈ SLR1.actionsOf a (g.followSets g.firstSets) s i) :
    t < g.size ∧ ∀ left production, action = .reduce left production → left < g.size := by
  cases action with
  | shift target =>
      obtain ⟨-, hterm, -⟩ := SLR1.shift_mem_actionsOf.mp h
      rw [ha.isTerminal_eq] at hterm
      exact ⟨lt_size_of_isTerminal hterm, by simp⟩
  | reduce left production =>
      obtain ⟨-, hleft, rfl, rfl, ht⟩ := SLR1.reduce_mem_actionsOf.mp h
      refine ⟨lt_size_of_isTerminal (ha.wellFormed.isTerminal_of_mem_followers ht), ?_⟩
      rintro _ _ ⟨⟩
      exact (left_lt_size ha hcollects hs hi).2 hleft
  | accept =>
      obtain ⟨-, -, rfl⟩ := SLR1.accept_mem_actionsOf.mp h
      exact ⟨ha.wellFormed.endMark_lt_size, by simp⟩

end Automaton

namespace SLR1

theorem Action.isSome_text? (hg : g.WellFormed) {action : Action}
    (h : ∀ left production, action = .reduce left production → left < g.size) :
    (action.text? g).isSome = true := by
  cases action with
  | shift state => rfl
  | reduce left production =>
      obtain ⟨rule, hrule⟩ := Option.isSome_iff_exists.mp
        (isSome_ruleText? hg (h left production rfl) production)
      simp [Action.text?, hrule]
  | accept => rfl

theorem Action.isSome_latex? (hg : g.WellFormed) {action : Action}
    (h : ∀ left production, action = .reduce left production → left < g.size) :
    (action.latex? g).isSome = true := by
  cases action with
  | shift state => rfl
  | reduce left production =>
      have hsymbol : ∀ s ∈ g.body left production, (symbolLatex? g s).isSome = true := by
        intro s hs
        obtain ⟨name, hname⟩ := Option.isSome_iff_exists.mp
          (isSome_name? (hg.lt_size_of_mem_body left production s hs))
        simp [symbolLatex?, hname]
      obtain ⟨right, hright⟩ := Option.isSome_iff_exists.mp (isSome_mapM hsymbol)
      obtain ⟨name, hname⟩ := Option.isSome_iff_exists.mp (isSome_name? (h left production rfl))
      simp [Action.latex?, hname, hright]
  | accept => rfl

theorem isSome_collision_message? {a : LR0.Automaton} (ha : a.IsFor g)
    (hcollects : a.Collects (alphabet g)) {c : Collision}
    (hc : buildTable a (g.followSets g.firstSets) = .error c) :
    (c.message? a.grammar).isSome = true := by
  obtain ⟨k, s, hs, ⟨i, hi, hfirst⟩, ⟨j, hj, hsecond⟩⟩ := mem_actionsOf_of_error hc
  obtain ⟨hterminal, hfirst⟩ := lt_size_of_mem_actionsOf ha hcollects hs hi hfirst
  obtain ⟨-, hsecond⟩ := lt_size_of_mem_actionsOf ha hcollects hs hj hsecond
  have htext {action : Action}
      (h : ∀ left production, action = .reduce left production → left < g.size) :
      ∃ text, action.text? a.grammar = some text :=
    Option.isSome_iff_exists.mp (Action.isSome_text? ha.grammar_wellFormed
      fun left production heq => ha.lt_size (h left production heq))
  obtain ⟨on, hon⟩ := Option.isSome_iff_exists.mp (isSome_name? (ha.lt_size hterminal))
  obtain ⟨first, hfirst⟩ := htext hfirst
  obtain ⟨second, hsecond⟩ := htext hsecond
  simp [Collision.message?, hon, hfirst, hsecond]

end SLR1

theorem lt_size_of_terminals : ∀ t ∈ g.terminals, t < g.size := by
  intro t ht
  exact List.mem_range.mp (List.mem_of_mem_filter ht)

def Machine.Turn.move? {σ : Type} : Turn σ → Option Move
  | .next move _ => some move
  | .halt move _ => some move
  | .fault => none

namespace Report

/-! What the written tables consist of, and how long their rows are. -/

theorem LL1Table.parts_of_eq_some {table : LL1.Table} {t : LL1Table}
    (h : LL1Table.of? g table = some t) :
    g.nonterminals.mapM (LL1Row.of? g table) = some t.rows ∧ g.names? g.terminals = some t.terminals := by
  obtain ⟨rows, hrows, h⟩ := Option.bind_eq_some_iff.mp h
  obtain ⟨terminals, hterminals, h⟩ := Option.bind_eq_some_iff.mp h
  cases h
  exact ⟨hrows, hterminals⟩

/-- Every row of the predictive table is as long as its headings. -/
theorem LL1Table.row_length {table : LL1.Table} {t : LL1Table} (h : LL1Table.of? g table = some t) :
    ∀ row ∈ t.grid, row.length = (t.grid.headD []).length := by
  obtain ⟨hrows, hterminals⟩ := LL1Table.parts_of_eq_some h
  have hlength : t.terminals.length = g.terminals.length := length_of_mapM_eq_some hterminals
  intro row hrow
  rcases List.mem_cons.mp hrow with rfl | hrow
  · rfl
  · obtain ⟨r, hr, rfl⟩ := List.mem_map.mp hrow
    obtain ⟨n, -, hr⟩ := exists_of_mem_mapM hrows hr
    obtain ⟨cells, hcells, rfl⟩ := Option.map_eq_some_iff.mp hr
    have hcells := length_of_mapM_eq_some hcells
    simp [LL1Table.grid, LL1Row.text, hcells, hlength]

theorem SLR1Row.parts_of_eq_some {table : SLR1.Table} {state : Nat} {r : SLR1Row}
    (h : SLR1Row.of? g table state = some r) :
    SLR1Row.cells? g table state (SLR1.Action.text? g) = some r.actions ∧
      r.gotos = g.nonterminals.map fun n => table.goto? state n.index := by
  obtain ⟨actions, hactions, h⟩ := Option.bind_eq_some_iff.mp h
  obtain ⟨latex, -, h⟩ := Option.bind_eq_some_iff.mp h
  cases h
  exact ⟨hactions, rfl⟩

theorem SLR1Table.parts_of_eq_some {table : SLR1.Table} {t : SLR1Table}
    (h : SLR1Table.of? g table = some t) :
    g.names? g.terminals = some t.terminals ∧
      g.names? (g.nonterminals.map Nonterminal.index) = some t.nonterminals ∧
      (List.range table.stateCount).mapM (SLR1Row.of? g table) = some t.rows := by
  obtain ⟨terminals, hterminals, h⟩ := Option.bind_eq_some_iff.mp h
  obtain ⟨nonterminals, hnonterminals, h⟩ := Option.bind_eq_some_iff.mp h
  obtain ⟨rows, hrows, h⟩ := Option.bind_eq_some_iff.mp h
  cases h
  exact ⟨hterminals, hnonterminals, hrows⟩

theorem SLR1Table.row_length {table : SLR1.Table} {t : SLR1Table}
    (h : SLR1Table.of? g table = some t) :
    ∀ row ∈ t.grid, row.length = (t.grid.headD []).length := by
  obtain ⟨hterminals, hnonterminals, hrows⟩ := SLR1Table.parts_of_eq_some h
  have hterminals : t.terminals.length = g.terminals.length := length_of_mapM_eq_some hterminals
  have hnonterminals : t.nonterminals.length = g.nonterminals.length := by
    simpa using length_of_mapM_eq_some hnonterminals
  intro row hrow
  rcases List.mem_cons.mp hrow with rfl | hrow
  · rfl
  · obtain ⟨⟨r, state⟩, hr, rfl⟩ := List.mem_map.mp hrow
    obtain ⟨_, -, hr⟩ := exists_of_mem_mapM hrows (List.fst_mem_of_mem_zipIdx hr)
    obtain ⟨hactions, hgotos⟩ := SLR1Row.parts_of_eq_some hr
    have hactions : r.actions.length = g.terminals.length := length_of_mapM_eq_some hactions
    have hgotos : r.gotos.length = g.nonterminals.length := by
      rw [hgotos, List.length_map]
    simp [SLR1Table.grid, SLR1Row.text, SLR1Row.gotoTexts, hactions, hgotos, hterminals,
      hnonterminals]

section Views

variable (hg : g.WellFormed)

include hg

theorem isSome_productions : (Productions.of? g).isSome = true := by
  have hrules : ∀ n ∈ g.nonterminals, (do
      let rights ← n.bodies.mapM g.names?
      return (⟨n.name, rights⟩ : NamedRule)).isSome = true := by
    intro n hn
    have hbodies : ∀ body ∈ n.bodies, (g.names? body).isSome = true := by
      intro body hbody
      rw [← hg.bodies_index hn] at hbody
      exact isSome_names? ((hg.fits hbody).lt_size hg)
    obtain ⟨rights, hrights⟩ := Option.isSome_iff_exists.mp (isSome_mapM hbodies)
    simp [hrights]
  obtain ⟨rules, hrules⟩ := Option.isSome_iff_exists.mp (isSome_mapM hrules)
  rw [Productions.of?, hrules]
  rfl

theorem isSome_sets {a : Analysis} (ha : g.analyze? = some a) : (Sets.of? g a).isSome = true := by
  obtain ⟨hfirst, hfollow, -⟩ := parts_of_analyze? ha
  rw [Sets.of?, Option.isSome_map]
  apply isSome_mapM
  intro n hn
  have hnames {l : SortedSet Nat} (hl : ∀ t ∈ l, g.isTerminal t = true) :
      ∃ names, sortedNames? g l = some names := by
    apply Option.isSome_iff_exists.mp
    rw [sortedNames?, Option.isSome_map]
    exact isSome_names? fun t ht => lt_size_of_isTerminal (hl t (SortedSet.mem_def.mpr ht))
  have hnon := hg.isNonterminal_index hn
  obtain ⟨first, hfirsts⟩ := hnames (l := (g.firstSets.ofSymbol n.index).terminals) fun t ht => by
    exact (grounded_firstSets hg).isTerminal_of_has (lt_size_of_isNonterminal hnon) ht
  obtain ⟨follow, hfollows⟩ := hnames (l := g.followers n.index) fun t ht =>
    hg.isTerminal_of_mem_followers ht
  have hfollows : sortedNames? g ((g.followSets g.firstSets).ofSymbol n.index) = some follow :=
    hfollows
  simp [SymbolSets.of?, hfirst, hfollow, hfirsts, hfollows]

theorem isSome_ll1Row {table : LL1.Table} (htable : LL1.IsTableOf table g) {n : Nonterminal}
    (hn : n ∈ g.nonterminals) : (LL1Row.of? g table n).isSome = true := by
  rw [LL1Row.of?, Option.isSome_map]
  apply isSome_mapM
  intro t _
  unfold LL1Row.cell?
  split
  · rfl
  · next p hp =>
      obtain ⟨body, hbody, -⟩ := (htable n.index t p).mp hp
      obtain ⟨right, hright⟩ := Option.isSome_iff_exists.mp (isSome_names?
        ((hg.fits (List.mem_of_getElem? hbody)).lt_size hg))
      rw [hg.bodies_index hn] at hbody
      simp [hbody, hright]

/-- The predictive table can be written, and its grid has a cell in every column. -/
theorem exists_ll1Table {table : LL1.Table} (htable : LL1.IsTableOf table g) :
    ∃ t, LL1Table.of? g table = some t ∧ Grid.render? t.grid = some t.text := by
  obtain ⟨rows, hrows⟩ := Option.isSome_iff_exists.mp
    (isSome_mapM (l := g.nonterminals) fun n hn => isSome_ll1Row hg htable hn)
  obtain ⟨terminals, hterminals⟩ :=
    Option.isSome_iff_exists.mp (isSome_names? (lt_size_of_terminals (g := g)))
  have ht : LL1Table.of? g table = some ⟨terminals, rows⟩ := by
    simp [LL1Table.of?, hrows, hterminals]
  exact ⟨_, ht, Grid.render?_eq_some (LL1Table.row_length ht)⟩

variable {a : LR0.Automaton} (ha : a.IsFor g) (hcollects : a.Collects (alphabet g))

omit hg

include ha hcollects

theorem isSome_namedEdges {k : Nat} {s : LR0.State} (hs : a.states[k]? = some s) :
    (namedEdges? a.grammar s).isSome = true := by
  apply isSome_mapM
  rintro ⟨symbol, target⟩ hedge
  have hlt := edge_lt_size ha hcollects hs ((s.edges.find?_eq_some_iff symbol target).mpr hedge)
  obtain ⟨name, hname⟩ := Option.isSome_iff_exists.mp (isSome_name? (ha.lt_size hlt))
  simp [hname]

theorem isSome_automaton : (Automaton.of? a).isSome = true := by
  rw [Automaton.of?, Option.isSome_map]
  apply isSome_mapM
  intro s hmem
  obtain ⟨k, hs⟩ := List.mem_iff_getElem?.mp hmem
  rw [Array.getElem?_toList] at hs
  have hitems (p : Item → Bool) :=
    Option.isSome_iff_exists.mp (isSome_mapM (f := a.grammar.itemText?)
      (l := s.items.toList.filter p) fun i hi => isSome_itemText? ha.grammar_wellFormed
        (left_lt_size ha hcollects hs (SortedSet.mem_def.mpr (List.mem_of_mem_filter hi))).1)
  obtain ⟨kernel, hkernel⟩ := hitems a.isKernel
  obtain ⟨extension, hextension⟩ := hitems (!a.isKernel ·)
  obtain ⟨edges, hedges⟩ := Option.isSome_iff_exists.mp (isSome_namedEdges ha hcollects hs)
  simp [State.of?, hkernel, hextension, hedges]

theorem isSome_drawing : (Drawing.latex? a).isSome = true := by
  have hnode : ∀ p ∈ a.states.toList.zipIdx, (Drawing.node? a.grammar p.2 p.1).isSome = true := by
    rintro ⟨s, k⟩ hp
    have hs := SLR1.mem_zipIdx_states.mp hp
    obtain ⟨items, hitems⟩ := Option.isSome_iff_exists.mp
      (isSome_mapM (f := a.grammar.itemLatex?) (l := s.items.toList) fun i hi =>
        isSome_itemLatex? ha.grammar_wellFormed
          (left_lt_size ha hcollects hs (SortedSet.mem_def.mpr hi)).1)
    simp [Drawing.node?, hitems]
  have hedge : ∀ p ∈ a.states.toList.zipIdx, (Drawing.edges? a.grammar p.2 p.1).isSome = true := by
    rintro ⟨s, k⟩ hp
    rw [Drawing.edges?, Option.isSome_map]
    exact isSome_namedEdges ha hcollects (SLR1.mem_zipIdx_states.mp hp)
  obtain ⟨nodes, hnodes⟩ := Option.isSome_iff_exists.mp (isSome_mapM hnode)
  obtain ⟨edges, hedges⟩ := Option.isSome_iff_exists.mp (isSome_mapM hedge)
  simp [Drawing.latex?, hnodes, hedges]

variable {table : SLR1.Table}
  (htable : SLR1.buildTable a (g.followSets g.firstSets) = .ok table)

include htable

theorem isSome_cells (state : Nat) {spell : SLR1.Action → Option String}
    (hspell : ∀ action : SLR1.Action,
      (∀ left production, action = .reduce left production → left < g.size) →
        (spell action).isSome = true) :
    (SLR1Row.cells? g table state spell).isSome = true := by
  apply isSome_mapM
  intro t _
  cases haction : table.action? state t with
  | none => rfl
  | some action =>
      obtain ⟨s, hs, i, hi, hmem⟩ := (SLR1.action?_iff htable).mp haction
      exact hspell action (lt_size_of_mem_actionsOf ha hcollects hs hi hmem).2

/-- The shift-reduce table can be written, and all its cells are there to be laid out. -/
theorem exists_slr1Table :
    ∃ t, SLR1Table.of? g table = some t ∧ Grid.render? t.grid = some t.text := by
  have hwf := ha.wellFormed
  have hrow : ∀ state ∈ List.range table.stateCount, (SLR1Row.of? g table state).isSome = true := by
    intro state _
    obtain ⟨actions, hactions⟩ := Option.isSome_iff_exists.mp
      (isSome_cells ha hcollects htable state fun _ => SLR1.Action.isSome_text? hwf)
    obtain ⟨latex, hlatex⟩ := Option.isSome_iff_exists.mp
      (isSome_cells ha hcollects htable state fun _ => SLR1.Action.isSome_latex? hwf)
    simp [SLR1Row.of?, hactions, hlatex]
  obtain ⟨rows, hrows⟩ := Option.isSome_iff_exists.mp (isSome_mapM hrow)
  obtain ⟨terminals, hterminals⟩ :=
    Option.isSome_iff_exists.mp (isSome_names? (lt_size_of_terminals (g := g)))
  have hnon : ∀ s ∈ g.nonterminals.map Nonterminal.index, s < g.size := by
    intro s hs
    obtain ⟨n, hn, rfl⟩ := List.mem_map.mp hs
    exact hwf.index_lt_size hn
  obtain ⟨nonterminals, hnonterminals⟩ := Option.isSome_iff_exists.mp (isSome_names? hnon)
  have ht : SLR1Table.of? g table = some ⟨terminals, nonterminals, rows⟩ := by
    simp [SLR1Table.of?, hterminals, hnonterminals, hrows]
  exact ⟨_, ht, Grid.render?_eq_some (SLR1Table.row_length ht)⟩

end Views

/-! The machines. -/

/-- What a configuration shows, its stack and the move that is made in it, can be written. -/
structure Shown {σ : Type} (g : Grammar) (stack? : List σ → Option String)
    (turn : Config σ → Turn σ) (c : Config σ) : Prop where
  stack : (stack? c.stack).isSome = true
  move : ∃ move, (turn c).move? = some move ∧ (NamedMove.of? g move).isSome = true

theorem isSome_produce (hg : g.WellFormed) {left : Nat} (hleft : left < g.size)
    (production : Nat) : (NamedMove.of? g (.produce left production)).isSome = true := by
  obtain ⟨name, right, hname, hright⟩ := exists_names hg hleft production
  simp [NamedMove.of?, hname, hright]

theorem isSome_reduce (hg : g.WellFormed) {left : Nat} (hleft : left < g.size)
    (production : Nat) : (NamedMove.of? g (.reduce left production)).isSome = true := by
  obtain ⟨name, right, hname, hright⟩ := exists_names hg hleft production
  simp [NamedMove.of?, hname, hright]

/-- The predictive machine never comes to a symbol without a name. -/
theorem ll1_turn_ne_fault (hg : g.WellFormed) (table : LL1.Table) (c : Config Nat) :
    LL1.turn g table c ≠ .fault := by
  unfold LL1.turn
  split
  · split <;> simp
  · split
    · simp
    · next p _ => simp [isSome_names? (hg.lt_size_of_mem_body (LL1.top c) p)]

/-- Every configuration of a predictive run can be written. -/
theorem ll1_shown (hg : g.WellFormed) (hstart : g.isNonterminal g.start = true)
    {table : LL1.Table} (htable : LL1.IsTableOf table g) {tokens : List String}
    {steps : List (Step Nat)} {c : Config Nat}
    (h : Passes (LL1.turn g table) (LL1.initial g tokens) steps c) :
    Shown g (ll1Stack? g) (LL1.turn g table) c := by
  obtain ⟨before, after, word, -, -, -, hleft⟩ := LL1.leftmost_of_start hg hstart htable h
  have hstack : ∀ s ∈ c.stack, s < g.size := fun s hs =>
    (hg.mem_of_derives hstart hleft.derives s (by simp [hs])).2
  have htop : LL1.top c < g.size := by
    unfold LL1.top
    cases hc : c.stack with
    | nil => exact hg.endMark_lt_size
    | cons s stack => exact hstack s (by simp [hc])
  constructor
  · rw [ll1Stack?, Option.isSome_map]
    apply isSome_names?
    intro s hs
    rcases List.mem_cons.mp hs with rfl | hs
    · exact hg.endMark_lt_size
    · exact hstack s (List.mem_reverse.mp hs)
  · rcases LL1.turn_inversion g table c with ⟨hturn, -⟩ | hturn | hturn | ⟨hturn, -⟩ | ⟨i, hturn, -⟩
    · exact ⟨_, by rw [hturn]; rfl, rfl⟩
    · exact ⟨_, by rw [hturn]; rfl, rfl⟩
    · exact absurd hturn (ll1_turn_ne_fault hg table c)
    · refine ⟨_, by rw [hturn]; rfl, ?_⟩
      obtain ⟨name, hname⟩ := Option.isSome_iff_exists.mp (isSome_name? htop)
      simp [NamedMove.of?, hname]
    · exact ⟨_, by rw [hturn]; rfl, isSome_produce hg htop i⟩

theorem slr1_shown {a : LR0.Automaton} (ha : a.IsFor g) {table : SLR1.Table}
    (htable : SLR1.buildTable a (g.followSets g.firstSets) = .ok table) {tokens : List String}
    {steps : List (Step SLR1.Entry)} {c : Config SLR1.Entry}
    (h : Passes (SLR1.turn g table) (SLR1.initial g tokens) steps c) :
    Shown g (slr1Stack? g) (SLR1.turn g table) c := by
  have hg := ha.wellFormed
  obtain ⟨string, -, -, -, -, -, -, htraces, ⟨i, hi⟩, -⟩ :=
    SLR1.rightmost_of_passes ha htable .nil .start h
  obtain ⟨rest, hder⟩ := SLR1.exists_derives_of_valid ha hi
  have hstack : ∀ e ∈ c.stack, e.symbol < g.size := by
    intro e he
    have hsymbol : e.symbol ∈ string := by
      rw [← htraces.symbolsOf_eq, SLR1.symbolsOf]
      exact List.mem_map_of_mem (List.mem_reverse.mpr he)
    exact (hg.mem_of_derives ha.isNonterminal_start hder e.symbol (by simp [hsymbol])).2
  constructor
  · have hentry : ∀ e ∈ c.stack.reverse, (do
        return [← g.name? e.symbol, toString e.state]).isSome = true := by
      intro e he
      obtain ⟨name, hname⟩ := Option.isSome_iff_exists.mp
        (isSome_name? (hstack e (List.mem_reverse.mp he)))
      simp [hname]
    obtain ⟨entries, hentries⟩ := Option.isSome_iff_exists.mp (isSome_mapM hentry)
    rw [slr1Stack?, hentries]
    rfl
  · obtain ⟨stack, rest⟩ := c
    rcases SLR1.turn_inversion ha htable htraces rest with hturn | ⟨hturn, -⟩ | ⟨t, j, hturn, -⟩ |
      ⟨t, front, i, stack', hturn, -, hi, hdone, hleft, -⟩
    · exact ⟨_, by rw [hturn]; rfl, rfl⟩
    · exact ⟨_, by rw [hturn]; rfl, rfl⟩
    · exact ⟨_, by rw [hturn]; rfl, rfl⟩
    · have hbody := (hi.complete_origin ha hleft hdone).1
      have hlt := lt_size_of_isNonterminal (hg.isNonterminal_of_mem_bodies hbody)
      exact ⟨_, by rw [hturn]; rfl, isSome_reduce hg hlt i.production⟩

section Analysis

variable {a : Analysis}

theorem isSome_classification (hg : g.Readable) (ha : g.analyze? = some a)
    (hfor : a.automaton.IsFor g) (hcollects : a.automaton.Collects (alphabet g)) :
    (Classification.of? g a).isSome = true := by
  have hwf := hg.wellFormed
  have hll1 : ∀ c ∈ a.ll1Conflicts, (c.text? g).isSome = true := by
    intro c hc
    rw [ll1Conflicts_of_analyze? ha] at hc
    obtain ⟨hleft, hterminals⟩ := LL1.lt_size_of_mem_conflicts hwf hc
    exact LL1.Conflict.isSome_text? hwf hleft hterminals
  have hslr1 : ∀ c ∈ a.slr1Conflicts, (c.text? a.automaton.grammar).isSome = true := by
    intro c hc
    rw [(slr1Conflicts_of_analyze? hg ha).2] at hc
    obtain ⟨⟨k, s, hs, hitems⟩, hterminals⟩ := SLR1.mem_of_mem_conflicts hc
    apply SLR1.Conflict.isSome_text? hfor.grammar_wellFormed
    · intro i hi
      exact (left_lt_size hfor hcollects hs (hitems i hi)).1
    · intro t ht
      obtain ⟨left, ht⟩ := hterminals t ht
      exact hfor.lt_size (lt_size_of_isTerminal (hwf.isTerminal_of_mem_followers ht))
  obtain ⟨ll1, hll1⟩ := Option.isSome_iff_exists.mp (isSome_mapM hll1)
  obtain ⟨slr1, hslr1⟩ := Option.isSome_iff_exists.mp (isSome_mapM hslr1)
  simp [Classification.of?, hll1, hslr1]

/-- Every view can be written in every style. -/
theorem isSome_render (hg : g.Readable) (ha : g.analyze? = some a)
    (hfor : a.automaton.IsFor g) (hcollects : a.automaton.Collects (alphabet g))
    (style : Style) (view : View) : (render? g a style view).isSome = true := by
  have hwf := hg.wellFormed
  cases view with
  | productions =>
      obtain ⟨p, hp⟩ := Option.isSome_iff_exists.mp (isSome_productions hwf)
      simp [render?, hp]
  | sets =>
      obtain ⟨s, hs⟩ := Option.isSome_iff_exists.mp (isSome_sets hwf ha)
      simp [render?, hs]
  | classification =>
      obtain ⟨c, hc⟩ := Option.isSome_iff_exists.mp (isSome_classification hg ha hfor hcollects)
      simp [render?, hc]
  | ll1Table =>
      cases htable : a.ll1Table with
      | none => simp [render?, htable]
      | some table =>
          obtain ⟨t, ht, -⟩ := exists_ll1Table hwf (LL1.isTableOf_of_analyze? hwf ha htable)
          simp [render?, htable, ht]
  | automaton =>
      obtain ⟨m, hm⟩ := Option.isSome_iff_exists.mp (isSome_automaton hfor hcollects)
      obtain ⟨d, hd⟩ := Option.isSome_iff_exists.mp (isSome_drawing hfor hcollects)
      simp [render?, hm, hd]
  | slr1Table =>
      cases htable : a.slr1Table with
      | none => simp [render?, htable]
      | some table =>
          obtain ⟨-, -, hbuild⟩ := SLR1.isFor_of_analyze? hg ha htable
          obtain ⟨t, ht, -⟩ := exists_slr1Table hfor hcollects hbuild
          simp [render?, htable, ht]

end Analysis

/-- Every lookup that a grammar that was read gives rise to finds something. The sets come out the same
with every index looked at first, the collisions of both tables have messages, every view can be
written in every style and the grids of the tables have a cell in every column, and the machines with
their own tables can show every configuration they come to and every move they make. -/
theorem nothing_out_of_range (hg : g.Readable) :
    g.firstSets? = some g.firstSets ∧
    g.followSets? g.firstSets = some (g.followSets g.firstSets) ∧
    ∃ a, g.analyze? = some a ∧
      (∀ c, LL1.buildTable g a.first a.follow = .error c → (c.message? g).isSome = true) ∧
      (∀ c, SLR1.buildTable a.automaton a.follow = .error c →
        (c.message? a.automaton.grammar).isSome = true) ∧
      (∀ style view, (render? g a style view).isSome = true) ∧
      (∀ table, a.ll1Table = some table →
        (∃ t, LL1Table.of? g table = some t ∧ Grid.render? t.grid = some t.text) ∧
        ∀ tokens steps c, Passes (LL1.turn g table) (LL1.initial g tokens) steps c →
          Shown g (ll1Stack? g) (LL1.turn g table) c) ∧
      ∀ table, a.slr1Table = some table →
        (∃ t, SLR1Table.of? g table = some t ∧ Grid.render? t.grid = some t.text) ∧
        ∀ tokens steps c, Passes (SLR1.turn g table) (SLR1.initial g tokens) steps c →
          Shown g (slr1Stack? g) (SLR1.turn g table) c := by
  have hwf := hg.wellFormed
  have hstart := hg.isNonterminal_start
  refine ⟨firstSets?_eq_some hwf, followSets?_eq_some hwf, ?_⟩
  obtain ⟨a, ha⟩ := exists_analyze? hg
  obtain ⟨hfirst, hfollow, name, hautomaton⟩ := parts_of_analyze? ha
  have hfor : a.automaton.IsFor g := hautomaton ▸ isFor_build hwf hstart name
  have hcollects : a.automaton.Collects (alphabet g) :=
    hautomaton ▸ collects_build hwf hstart name
  refine ⟨a, ha, fun c hc => ?_, fun c hc => ?_, isSome_render hg ha hfor hcollects,
    fun table htable => ?_, fun table htable => ?_⟩
  · rw [hfirst, hfollow] at hc
    exact LL1.isSome_collision_message? hwf hc
  · rw [hfollow] at hc
    exact SLR1.isSome_collision_message? hfor hcollects hc
  · have hcells := LL1.isTableOf_of_analyze? hwf ha htable
    exact ⟨exists_ll1Table hwf hcells, fun tokens steps c => ll1_shown hwf hstart hcells⟩
  · obtain ⟨-, -, hbuild⟩ := SLR1.isFor_of_analyze? hg ha htable
    exact ⟨exists_slr1Table hfor hcollects hbuild, fun tokens steps c => slr1_shown hfor hbuild⟩

/-! Without its recursion `A` has no alternative left. -/

theorem in_range_without_alternatives :
    ∃ g a table, Grammar.read .spaced "S -> c | S a | A\nA -> A b" = .ok g ∧
      g.withoutLeftRecursion.bodies 3 = [] ∧ g.withoutLeftRecursion.analyze? = some a ∧
      a.slr1Table = some table ∧
      (∀ style view, (render? g.withoutLeftRecursion a style view).isSome = true) ∧
      ∀ tokens steps c, Passes (SLR1.turn g.withoutLeftRecursion table)
          (SLR1.initial g.withoutLeftRecursion tokens) steps c →
        Shown g.withoutLeftRecursion (slr1Stack? g.withoutLeftRecursion)
          (SLR1.turn g.withoutLeftRecursion table) c := by
  have hread : ((Grammar.read .spaced "S -> c | S a | A\nA -> A b").toOption.bind fun g =>
      g.withoutLeftRecursion.analyze?.bind fun a => a.slr1Table.map fun _ =>
        decide (g.withoutLeftRecursion.bodies 3 = [])) = some true := by
    decide +kernel
  simp only [Option.bind_eq_some_iff, Option.map_eq_some_iff, toOption_eq_some,
    decide_eq_true_eq] at hread
  obtain ⟨g, hg, a, ha, table, htable, hbodies⟩ := hread
  obtain ⟨-, -, a', ha', -, -, hrender, -, hslr1⟩ :=
    nothing_out_of_range (.withoutLeftRecursion (.read hg))
  obtain rfl : a = a' := Option.some.inj (ha.symm.trans ha')
  exact ⟨g, a, table, hg, hbodies, ha, htable, hrender, (hslr1 table htable).2⟩

end Report

end Lookahead
