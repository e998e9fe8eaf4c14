import Lookahead.Proofs.Reader.Words
import Lookahead.Proofs.Report.Columns
import Lookahead.Proofs.Report.Range

/-!
The plain tables of a grammar that was read, and the plain traces of its machines, are aligned grids.
All names are words, so what is made of them holds no other blanks than the spaces that are put between
them. Only tokens may hold others, and they stand in a column that does not end the line.
-/

namespace Lookahead

open Grammar Machine

/-! Texts in which names stand. -/

namespace Text

def Unbroken (s : String) : Prop := ∀ c ∈ s.toList, isBlank c = true → c = ' '

theorem IsWord.unbroken {s : String} (h : IsWord s.toList) : Unbroken s :=
  fun _ hc hblank => absurd hc (h.not_mem_of_isBlank hblank)

theorem not_isBlank_of_isDigit {c : Char} (h : c.isDigit = true) : isBlank c = false := by
  obtain ⟨hle, hge⟩ : 48 ≤ c.toNat ∧ c.toNat ≤ 57 := by
    simpa [Char.isDigit, UInt32.le_iff_toNat_le] using h
  simp only [isBlank, Bool.or_eq_false_iff, Bool.and_eq_false_iff, decide_eq_false_iff_not,
    beq_eq_false_iff_ne]
  omega

namespace Unbroken

theorem of_all {s : String} (h : s.toList.all (fun c => c == ' ' || !isBlank c) = true) :
    Unbroken s := by
  intro c hc hblank
  have hor := List.all_eq_true.mp h c hc
  simpa [hblank] using hor

theorem append {s s' : String} (h : Unbroken s) (h' : Unbroken s') : Unbroken (s ++ s') := by
  intro c hc
  rw [String.toList_append, List.mem_append] at hc
  exact hc.elim (h c) (h' c)

theorem intercalate {separator : String} (hseparator : Unbroken separator) {l : List String}
    (h : ∀ s ∈ l, Unbroken s) : Unbroken (separator.intercalate l) := by
  intro c hc
  rw [String.toList_intercalate] at hc
  rcases mem_of_mem_intercalate hc with hc | ⟨piece, hpiece, hc⟩
  · exact hseparator c hc
  · obtain ⟨s, hs, rfl⟩ := List.mem_map.mp hpiece
    exact h s hs c hc

theorem join {l : List String} (h : ∀ s ∈ l, Unbroken s) : Unbroken (String.join l) := by
  intro c hc
  rw [String.toList_join, List.mem_flatMap] at hc
  obtain ⟨s, hs, hc⟩ := hc
  exact h s hs c hc

theorem spaced {l : List String} (h : ∀ s ∈ l, Unbroken s) : Unbroken (" ".intercalate l) :=
  intercalate (.of_all (by decide)) h

theorem toString (n : Nat) : Unbroken (toString n) := by
  intro c hc hblank
  rw [Nat.toString_eq_repr, Nat.toList_repr] at hc
  rw [not_isBlank_of_isDigit (Nat.isDigit_of_mem_toDigits (by decide) (by decide) hc)] at hblank
  cases hblank

/-- Padding adds spaces only. -/
theorem padLeft {s : String} (h : Unbroken s) (width : Nat) : Unbroken (Grid.padLeft width s) := by
  intro c hc
  exact ((Grid.pads_padLeft width s).mem hc).elim (fun hc _ => hc) (h c)

theorem not_mem {s : String} (h : Unbroken s) {c : Char} (hblank : isBlank c = true) (hne : c ≠ ' ') :
    c ∉ s.toList :=
  fun hc => hne (h c hc hblank)

end Unbroken
end Text

open Text (Unbroken)

/-- Where spaces are the only blanks, every row stays on one line. -/
theorem Grid.OneLine.of_unbroken {row : List String} (h : ∀ cell ∈ row, Unbroken cell) :
    Grid.OneLine row where
  newline cell hcell := (h cell hcell).not_mem (by decide) (by decide)
  ending cell hcell := (h cell (List.mem_of_getLast? hcell)).not_mem (by decide) (by decide)

theorem NamedRule.unbroken_inlineText {rule : NamedRule} (hleft : Unbroken rule.left)
    (hright : ∀ right ∈ rule.rights, ∀ name ∈ right, Unbroken name) (width : Nat) :
    Unbroken (rule.inlineText width) := by
  have hrights : ∀ text ∈ rule.rights.map (" ".intercalate ·), Unbroken text := by
    intro text htext
    obtain ⟨right, hmem, rfl⟩ := List.mem_map.mp htext
    exact .spaced (hright right hmem)
  unfold inlineText
  split
  · exact .of_all rfl
  · next first more hsplit =>
      rw [hsplit] at hrights
      obtain ⟨hfirst, hmore⟩ := List.forall_mem_cons.mp hrights
      have harrow : Unbroken " -> " := .of_all (by decide)
      refine (((hleft.padLeft width).append harrow).append hfirst).append (.join fun text htext => ?_)
      obtain ⟨right, hmem, rfl⟩ := List.mem_map.mp htext
      exact .append (.of_all (by decide)) (hmore right hmem)

namespace Report

variable {g : Grammar}

/-! The tables. -/

section Worded

variable (hg : g.Worded)

include hg

/-- The names of a grammar that was read have no blanks in them. -/
theorem unbroken_of_name? {i : Nat} {name : String} (h : g.name? i = some name) : Unbroken name :=
  (hg i name h).unbroken

theorem unbroken_of_names? {l : List Nat} {names : List String} (h : g.names? l = some names) :
    ∀ name ∈ names, Unbroken name := by
  intro name hname
  obtain ⟨i, -, hi⟩ := exists_of_mem_mapM h hname
  exact unbroken_of_name? hg hi

theorem unbroken_ruleText? {left production : Nat} {text : String}
    (h : g.ruleText? left production = some text) : Unbroken text := by
  obtain ⟨name, hname, h⟩ := Option.bind_eq_some_iff.mp h
  obtain ⟨right, hright, h⟩ := Option.bind_eq_some_iff.mp h
  cases h
  have harrow : Unbroken " -> " := .of_all (by decide)
  exact ((unbroken_of_name? hg hname).append harrow).append (.spaced (unbroken_of_names? hg hright))

theorem unbroken_action {action : SLR1.Action} {text : String} (h : action.text? g = some text) :
    Unbroken text := by
  cases action with
  | shift state =>
      cases h
      exact .append (.of_all (by decide)) (.toString state)
  | reduce left production =>
      obtain ⟨rule, hrule, h⟩ := Option.bind_eq_some_iff.mp h
      cases h
      exact .append (.append (.of_all (by decide)) (unbroken_ruleText? hg hrule))
        (.of_all (by decide))
  | accept =>
      cases h
      exact .of_all (by decide)

theorem unbroken_ll1Cell {table : LL1.Table} {n : Nonterminal} (hn : Unbroken n.name) {t : Nat}
    {rule : NamedRule} (h : LL1Row.cell? g table n t = some rule) (width : Nat) :
    Unbroken (rule.inlineText width) := by
  unfold LL1Row.cell? at h
  split at h
  · cases h
    exact NamedRule.unbroken_inlineText hn (by simp) width
  · obtain ⟨body, -, h⟩ := Option.bind_eq_some_iff.mp h
    obtain ⟨right, hright, h⟩ := Option.bind_eq_some_iff.mp h
    cases h
    exact NamedRule.unbroken_inlineText hn (by simpa using unbroken_of_names? hg hright) width

/-- The cells of the predictive table have names, arrows and spaces in them. -/
theorem LL1Table.unbroken (hwf : g.WellFormed) {table : LL1.Table} {t : LL1Table}
    (h : LL1Table.of? g table = some t) : ∀ row ∈ t.grid, ∀ cell ∈ row, Unbroken cell := by
  obtain ⟨hrows, hterminals⟩ := LL1Table.parts_of_eq_some h
  refine List.forall_mem_cons.mpr ⟨List.forall_mem_cons.mpr ⟨.of_all rfl, ?_⟩, fun row hrow => ?_⟩
  · exact unbroken_of_names? hg hterminals
  · obtain ⟨r, hr, rfl⟩ := List.mem_map.mp hrow
    obtain ⟨n, hn, hr⟩ := exists_of_mem_mapM hrows hr
    obtain ⟨cells, hcells, rfl⟩ := Option.map_eq_some_iff.mp hr
    have hname : Unbroken n.name := (hg.of_mem_nonterminals hwf hn).unbroken
    refine List.forall_mem_cons.mpr ⟨hname, fun cell hcell => ?_⟩
    obtain ⟨rule, hrule, rfl⟩ := List.mem_map.mp hcell
    obtain ⟨t, -, hrule⟩ := exists_of_mem_mapM hcells hrule
    exact unbroken_ll1Cell hg hname hrule _

theorem SLR1Table.unbroken {table : SLR1.Table} {t : SLR1Table} (h : SLR1Table.of? g table = some t) :
    ∀ row ∈ t.grid, ∀ cell ∈ row, Unbroken cell := by
  obtain ⟨hterminals, hnonterminals, hrows⟩ := SLR1Table.parts_of_eq_some h
  refine List.forall_mem_cons.mpr ⟨List.forall_mem_cons.mpr ⟨.of_all rfl, ?_⟩, fun row hrow => ?_⟩
  · exact List.forall_mem_append.mpr
      ⟨unbroken_of_names? hg hterminals, unbroken_of_names? hg hnonterminals⟩
  · obtain ⟨⟨r, state⟩, hr, rfl⟩ := List.mem_map.mp hrow
    obtain ⟨_, -, hr⟩ := exists_of_mem_mapM hrows (List.fst_mem_of_mem_zipIdx hr)
    obtain ⟨hactions, -⟩ := SLR1Row.parts_of_eq_some hr
    refine List.forall_mem_cons.mpr ⟨.toString state, List.forall_mem_append.mpr ⟨?_, ?_⟩⟩
    · intro cell hcell
      obtain ⟨t, -, hcell⟩ := exists_of_mem_mapM hactions hcell
      cases haction : table.action? _ t with
      | none =>
          rw [haction] at hcell
          cases hcell
          exact .of_all rfl
      | some action =>
          rw [haction] at hcell
          exact unbroken_action hg hcell
    · intro cell hcell
      obtain ⟨target, -, rfl⟩ := List.mem_map.mp hcell
      cases target with
      | none => exact .of_all rfl
      | some target => exact .toString target

end Worded

/-- The end mark has a column. -/
theorem length_names_terminals_pos (hwf : g.WellFormed) {terminals : List String}
    (h : g.names? g.terminals = some terminals) : 0 < terminals.length := by
  have hmem : endMark ∈ g.terminals :=
    List.mem_filter.mpr ⟨List.mem_range.mpr hwf.endMark_lt_size, hwf.isTerminal_endMark⟩
  have hlength : terminals.length = g.terminals.length := length_of_mapM_eq_some h
  rw [hlength]
  exact List.length_pos_of_mem hmem

/-- The predictive table is printed as an aligned grid. -/
theorem LL1Table.aligned (hg : g.Readable) {table : LL1.Table} {t : LL1Table}
    (h : LL1Table.of? g table = some t) : Grid.Aligned t.grid t.text := by
  have hpos := length_names_terminals_pos hg.wellFormed (LL1Table.parts_of_eq_some h).2
  have hwide : 2 ≤ (t.grid.headD []).length := Nat.succ_le_succ hpos
  exact Grid.aligned_render (LL1Table.row_length h) hwide fun row hrow =>
    .of_unbroken (LL1Table.unbroken hg.worded hg.wellFormed h row hrow)

/-- So are the shift-reduce tables. -/
theorem SLR1Table.aligned (hg : g.Readable) {table : SLR1.Table} {t : SLR1Table}
    (h : SLR1Table.of? g table = some t) : Grid.Aligned t.grid t.text := by
  have hpos := length_names_terminals_pos hg.wellFormed (SLR1Table.parts_of_eq_some h).1
  have hwide : 2 ≤ (t.grid.headD []).length := by
    simp only [SLR1Table.grid, List.headD_cons, List.length_cons, List.length_append]
    omega
  exact Grid.aligned_render (SLR1Table.row_length h) hwide fun row hrow =>
    .of_unbroken (SLR1Table.unbroken hg.worded h row hrow)

/-! Traces. -/

section Traces

variable (hg : g.Worded)

include hg

theorem unbroken_ll1Stack {stack : List Nat} {text : String} (h : ll1Stack? g stack = some text) :
    Unbroken text := by
  obtain ⟨names, hnames, rfl⟩ := Option.map_eq_some_iff.mp h
  exact .spaced (unbroken_of_names? hg hnames)

theorem unbroken_slr1Stack {stack : List SLR1.Entry} {text : String}
    (h : slr1Stack? g stack = some text) : Unbroken text := by
  obtain ⟨entries, hentries, h⟩ := Option.bind_eq_some_iff.mp h
  cases h
  refine .spaced (List.forall_mem_cons.mpr ⟨.of_all (by decide), fun part hpart => ?_⟩)
  obtain ⟨entry, hentry, hpart⟩ := List.mem_flatten.mp hpart
  obtain ⟨e, -, he⟩ := exists_of_mem_mapM hentries hentry
  obtain ⟨name, hname, he⟩ := Option.bind_eq_some_iff.mp he
  cases he
  rcases List.mem_pair.mp hpart with rfl | rfl
  · exact unbroken_of_name? hg hname
  · exact .toString e.state

theorem unbroken_move {move : Move} {named : NamedMove} (h : NamedMove.of? g move = some named) :
    Unbroken named.text := by
  have hrule {left production : Nat} {name : String} {right : List String}
      (hname : g.name? left = some name) (hright : g.names? (g.body left production) = some right)
      {verb : String} (hverb : Unbroken verb) :
      Unbroken (verb ++ name ++ " -> " ++ " ".intercalate right) :=
    ((hverb.append (unbroken_of_name? hg hname)).append (.of_all (by decide))).append
      (.spaced (unbroken_of_names? hg hright))
  cases move with
  | matched t =>
      obtain ⟨name, hname, h⟩ := Option.bind_eq_some_iff.mp h
      cases h
      exact .append (.append (.of_all (by decide)) (unbroken_of_name? hg hname))
        (.of_all (by decide))
  | produce left production =>
      obtain ⟨name, hname, h⟩ := Option.bind_eq_some_iff.mp h
      obtain ⟨right, hright, h⟩ := Option.bind_eq_some_iff.mp h
      cases h
      exact hrule hname hright (.of_all (by decide))
  | shift state =>
      cases h
      exact .append (.of_all (by decide)) (.toString state)
  | reduce left production =>
      obtain ⟨name, hname, h⟩ := Option.bind_eq_some_iff.mp h
      obtain ⟨right, hright, h⟩ := Option.bind_eq_some_iff.mp h
      cases h
      exact hrule hname hright (.of_all (by decide))
  | accept =>
      cases h
      exact .of_all (by decide)
  | reject =>
      cases h
      exact .of_all (by decide)

end Traces

/-- Without line feeds in the tokens there are none in what is left of them. -/
theorem newline_not_mem_inputText {rest : List Token} (h : ∀ token ∈ rest, '\n' ∉ token.text.toList) :
    '\n' ∉ (inputText rest).toList := by
  intro hmem
  rw [inputText, String.toList_intercalate] at hmem
  rcases Text.mem_of_mem_intercalate hmem with hmem | ⟨piece, hpiece, hmem⟩
  · simp at hmem
  · obtain ⟨text, htext, rfl⟩ := List.mem_map.mp hpiece
    rcases List.mem_append.mp htext with htext | htext
    · obtain ⟨token, htoken, rfl⟩ := List.mem_map.mp htext
      exact h token (List.mem_of_mem_dropLast htoken) hmem
    · rw [List.mem_singleton.mp htext] at hmem
      simp [endMarkName] at hmem

/-- The input that a trace shows has no line feed in it if the tokens have none. -/
theorem newline_not_mem_input {tokens : List String} (h : ∀ token ∈ tokens, '\n' ∉ token.toList) :
    ∀ token ∈ g.input tokens, '\n' ∉ token.text.toList := by
  intro token htoken
  rcases List.mem_append.mp htoken with htoken | htoken
  · obtain ⟨text, htext, rfl⟩ := List.mem_map.mp htoken
    exact h text htext
  · rw [List.mem_singleton.mp htoken]
    simp [endMarkName]

def line? {σ : Type} (g : Grammar) (stack? : List σ → Option String) (step : Step σ) : Option Line := do
  let move ← NamedMove.of? g step.move
  return ⟨← stack? step.config.stack, inputText step.config.rest, move⟩

/-- Of what a step shows, only the input may hold a carriage return, and the move stands behind it. -/
theorem oneLine_of_line? (hg : g.Worded) {σ : Type} {stack? : List σ → Option String}
    (hstack : ∀ stack text, stack? stack = some text → Unbroken text) {step : Step σ} {line : Line}
    (h : line? g stack? step = some line)
    (hrest : ∀ token ∈ step.config.rest, '\n' ∉ token.text.toList) :
    Grid.OneLine [line.stack, line.input, line.move.text] := by
  obtain ⟨named, hnamed, h⟩ := Option.bind_eq_some_iff.mp h
  obtain ⟨text, htext, h⟩ := Option.bind_eq_some_iff.mp h
  cases h
  have hmove : Unbroken named.text := unbroken_move hg hnamed
  constructor
  · simpa using ⟨(hstack _ _ htext).not_mem (by decide) (by decide), newline_not_mem_inputText hrest,
      hmove.not_mem (c := '\n') (by decide) (by decide)⟩
  · intro cell hcell
    cases hcell
    exact hmove.not_mem (by decide) (by decide)

section Run

variable {σ : Type} {turn : Config σ → Turn σ} {start : Config σ} {limit : Nat}
  {trace : Machine.Trace σ} (hrun : run turn limit start = .halted trace)

include hrun

/-- Every step of a trace was made in a configuration that the machine passes to. -/
theorem move?_of_mem_steps {step : Step σ} (hstep : step ∈ trace.steps) :
    ∃ before, Passes turn start before step.config ∧ (turn step.config).move? = some step.move := by
  obtain ⟨steps, last, move, hpasses, hhalt, hsteps⟩ := passes_of_run hrun
  rw [hsteps] at hstep
  rcases List.mem_append.mp hstep with hstep | hstep
  · obtain ⟨before, next, hbefore, hmove⟩ := hpasses.of_mem hstep
    exact ⟨before, hbefore, by rw [hmove]; rfl⟩
  · rw [List.mem_singleton.mp hstep]
    exact ⟨steps, hpasses, by rw [hhalt]; rfl⟩

/-- The trace of a run can be written as an aligned grid, if its stacks can be written. -/
theorem exists_aligned_trace (hg : g.Worded) (hone : OneToken turn) {stack? : List σ → Option String}
    (hstack : ∀ stack text, stack? stack = some text → Unbroken text)
    (hshown : ∀ steps c, Passes turn start steps c → Shown g stack? turn c)
    (htokens : ∀ token ∈ start.rest, '\n' ∉ token.text.toList) :
    ∃ t, Trace.of? g stack? trace = some t ∧ Grid.Aligned t.grid t.text := by
  have hline : ∀ step ∈ trace.steps, (line? g stack? step).isSome = true := by
    intro step hstep
    obtain ⟨before, hpasses, hmove⟩ := move?_of_mem_steps hrun hstep
    obtain ⟨hstack, move, hmove', hnamed⟩ := hshown before step.config hpasses
    obtain rfl : step.move = move := Option.some.inj (hmove.symm.trans hmove')
    obtain ⟨named, hnamed⟩ := Option.isSome_iff_exists.mp hnamed
    obtain ⟨text, htext⟩ := Option.isSome_iff_exists.mp hstack
    simp [line?, hnamed, htext]
  obtain ⟨lines, hlines⟩ := Option.isSome_iff_exists.mp (isSome_mapM hline)
  have ht : Trace.of? g stack? trace = some ⟨trace.accepted, lines⟩ :=
    Option.bind_eq_some_iff.mpr ⟨lines, hlines, rfl⟩
  have hrows : ∀ line ∈ lines, Grid.OneLine [line.stack, line.input, line.move.text] := by
    intro line hmem
    obtain ⟨step, hstep, hline⟩ := exists_of_mem_mapM hlines hmem
    obtain ⟨before, hpasses, -⟩ := move?_of_mem_steps hrun hstep
    exact oneLine_of_line? hg hstack hline fun token htoken =>
      htokens token ((hone.rest_suffix hpasses.reaches).subset htoken)
  refine ⟨_, ht, Grid.aligned_render ?_ ?_ ?_⟩
  · exact List.forall_mem_cons.mpr ⟨rfl, List.forall_mem_map.mpr fun line _ => rfl⟩
  · show 2 ≤ 3
    decide
  · refine List.forall_mem_cons.mpr ⟨.of_unbroken ?_, List.forall_mem_map.mpr hrows⟩
    simp [Unbroken, Text.isBlank]

end Run

/-- The plain tables of a grammar that was read are aligned grids, and so is the trace of every run of
its machines that halts, on tokens without line feeds. -/
theorem plain_tables_aligned (hg : g.Readable) :
    ∃ a, g.analyze? = some a ∧
      (∀ table, a.ll1Table = some table →
        (∃ t, LL1Table.of? g table = some t ∧ Grid.Aligned t.grid t.text) ∧
        ∀ limit tokens trace, (∀ token ∈ tokens, '\n' ∉ token.toList) →
          LL1.runFor limit g table tokens = .halted trace →
            ∃ t, Trace.of? g (ll1Stack? g) trace = some t ∧ Grid.Aligned t.grid t.text) ∧
      ∀ table, a.slr1Table = some table →
        (∃ t, SLR1Table.of? g table = some t ∧ Grid.Aligned t.grid t.text) ∧
        ∀ limit tokens trace, (∀ token ∈ tokens, '\n' ∉ token.toList) →
          SLR1.runFor limit g table tokens = .halted trace →
            ∃ t, Trace.of? g (slr1Stack? g) trace = some t ∧ Grid.Aligned t.grid t.text := by
  have hwf := hg.wellFormed
  have hstart := hg.isNonterminal_start
  obtain ⟨a, ha⟩ := exists_analyze? hg
  refine ⟨a, ha, fun table htable => ?_, fun table htable => ?_⟩
  · have hcells := LL1.isTableOf_of_analyze? hwf ha htable
    obtain ⟨t, ht, -⟩ := exists_ll1Table hwf hcells
    refine ⟨⟨t, ht, LL1Table.aligned hg ht⟩, fun limit tokens trace htokens hrun => ?_⟩
    exact exists_aligned_trace hrun hg.worded (LL1.oneToken_turn g table)
      (fun _ _ => unbroken_ll1Stack hg.worded) (fun _ _ => ll1_shown hwf hstart hcells)
      (newline_not_mem_input htokens)
  · obtain ⟨hfor, -, hbuild⟩ := SLR1.isFor_of_analyze? hg ha htable
    obtain ⟨-, -, name, hautomaton⟩ := parts_of_analyze? ha
    have hcollects : a.automaton.Collects (LR0.alphabet g) :=
      hautomaton ▸ LR0.collects_build hwf hstart name
    obtain ⟨t, ht, -⟩ := exists_slr1Table hfor hcollects hbuild
    refine ⟨⟨t, ht, SLR1Table.aligned hg ht⟩, fun limit tokens trace htokens hrun => ?_⟩
    exact exists_aligned_trace hrun hg.worded (SLR1.oneToken_turn g table)
      (fun _ _ => unbroken_slr1Stack hg.worded) (fun _ _ => slr1_shown hfor hbuild)
      (newline_not_mem_input htokens)

/-! The rules in the cells are set by the number of bytes in their left sides, so that a name outside of
ASCII gets more blanks than it needs. The token that is refused ends in a carriage return. -/

theorem aligned_with_names_beyond_ascii :
    ∃ g a table table' t trace u, Grammar.read .spaced "Σ -> Σ ä | b" = .ok g ∧
      g.withoutLeftRecursion.analyze? = some a ∧ a.ll1Table = some table ∧
      a.slr1Table = some table' ∧
      LL1Table.of? g.withoutLeftRecursion table = some t ∧
      t.text = "\n".intercalate
        ["   |        $ |           ä |          b",
         " Σ |          |             |  Σ -> b Σ'",
         "Σ' |  Σ' -> ϵ |  Σ' -> ä Σ' |           "] ∧
      Grid.Aligned t.grid t.text ∧
      SLR1.runFor 2 g.withoutLeftRecursion table' ["b", "x\r"] = .halted trace ∧
      Trace.of? g.withoutLeftRecursion (slr1Stack? g.withoutLeftRecursion) trace = some u ∧
      Grid.Aligned u.grid u.text := by
  have hread : ((Grammar.read .spaced "Σ -> Σ ä | b").toOption.bind fun g =>
      g.withoutLeftRecursion.analyze?.bind fun a => a.ll1Table.bind fun table =>
        a.slr1Table.bind fun table' => (LL1Table.of? g.withoutLeftRecursion table).bind fun t =>
          (SLR1.runFor 2 g.withoutLeftRecursion table' ["b", "x\r"]).trace?.map fun _ =>
            decide (t.text = "\n".intercalate
              ["   |        $ |           ä |          b",
               " Σ |          |             |  Σ -> b Σ'",
               "Σ' |  Σ' -> ϵ |  Σ' -> ä Σ' |           "])) = some true := by
    decide +kernel
  simp only [Option.bind_eq_some_iff, Option.map_eq_some_iff, toOption_eq_some, trace?_eq_some,
    decide_eq_true_eq] at hread
  obtain ⟨g, hg, a, ha, table, htable, table', htable', t, ht, trace, hrun, htext⟩ := hread
  obtain ⟨a', ha', hll1, hslr1⟩ := plain_tables_aligned (.withoutLeftRecursion (.read hg))
  obtain rfl : a = a' := Option.some.inj (ha.symm.trans ha')
  obtain ⟨⟨t', ht', haligned⟩, -⟩ := hll1 table htable
  obtain rfl : t = t' := Option.some.inj (ht.symm.trans ht')
  obtain ⟨u, hu, haligned'⟩ := (hslr1 table' htable').2 2 ["b", "x\r"] trace (by simp) hrun
  exact ⟨g, a, table, table', t, trace, u, hg, ha, htable, htable', ht, htext, haligned, hrun, hu,
    haligned'⟩

end Report

end Lookahead
