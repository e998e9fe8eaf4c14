import Lookahead.Proofs.SLR1.Split
import Lookahead.Proofs.SLR1.Trace

/-!
What is on the stack of the shift-reduce machine. Read from the bottom up, its states are a way through
the automaton from state 0, its symbols are what this way is read over, and they derive the tokens
that the machine has read. A reduction that the table calls for finds its alternative on top of the
stack and an edge over its left side below it, so that a run comes to an end only where the input is
accepted or where a cell is empty.
-/

namespace Lookahead.SLR1

open Machine Grammar LR0

/-- Every state of the stack is where its symbol leads to from the state below. -/
inductive Linked (a : Automaton) : List Entry → Prop
  | nil : Linked a []
  | push {stack : List Entry} {symbol k : Nat} (below : Linked a stack)
      (edge : a.transition (topState stack) symbol = some k) : Linked a (⟨symbol, k⟩ :: stack)

variable {a : Automaton} {follow : FollowSets} {table : Table} {g : Grammar}
  {stack : List Entry} {string : List Nat}

theorem Traces.symbolsOf_eq (h : Traces a stack string) : symbolsOf stack = string := by
  induction h with
  | nil => rfl
  | push _ _ _ ih => rw [symbolsOf_cons, ih]

namespace Linked

theorem drop (h : Linked a stack) (n : Nat) : Linked a (stack.drop n) := by
  induction h generalizing n with
  | nil => simpa using .nil
  | push hbelow hedge ih =>
      cases n with
      | zero => exact .push hbelow hedge
      | succ n => exact ih n

/-- The states on both sides of a symbol. -/
theorem getElem?_symbolsOf (h : Linked a stack) {k symbol : Nat}
    (hsymbol : (symbolsOf stack)[k]? = some symbol) :
    ∃ source target, (statesOf stack)[k]? = some source ∧
      (statesOf stack)[k + 1]? = some target ∧ a.transition source symbol = some target := by
  induction h generalizing k with
  | nil => simp [symbolsOf] at hsymbol
  | @push stack s j _ hedge ih =>
      rw [symbolsOf_cons] at hsymbol
      simp only [statesOf_cons]
      have hlength := length_symbolsOf stack
      have hstates := length_statesOf stack
      rcases Nat.lt_or_ge k stack.length with hk | hk
      · rw [List.getElem?_append_left (by omega)] at hsymbol
        rw [List.getElem?_append_left (by omega), List.getElem?_append_left (by omega)]
        exact ih hsymbol
      · obtain ⟨rfl, rfl⟩ : k = stack.length ∧ s = symbol := by
          rw [List.getElem?_append_right (by omega), List.getElem?_singleton] at hsymbol
          split at hsymbol
          · exact ⟨by omega, Option.some.inj hsymbol⟩
          · cases hsymbol
        have htop := getElem?_statesOf stack (Nat.zero_le _)
        rw [List.getElem?_append_left (by omega), List.getElem?_append_right (by omega)]
        exact ⟨topState stack, j, by simpa using htop, by simp [hstates], hedge⟩

end Linked

/-- What a move of the machine does: it shifts what is at hand, or it carries out a reduction. -/
theorem next_cases {c c' : Config Entry} {move : Move} (h : turn g table c = .next move c') :
    (∃ t j, c.current = some t ∧ table.action? (topState c.stack) t = some (.shift j) ∧
      c' = ⟨⟨t, j⟩ :: c.stack, c.rest.tail⟩) ∨
    ∃ left n j, table.goto? (topState (c.stack.drop n)) left = some j ∧
      c' = ⟨⟨left, j⟩ :: c.stack.drop n, c.rest⟩ := by
  unfold turn at h
  split at h
  · cases h
  · next t ht =>
      split at h
      · next j haction =>
          cases h
          exact .inl ⟨t, j, ht, haction, rfl⟩
      · next left production haction =>
          unfold reduce at h
          dsimp only at h
          split at h
          · cases h
          · split at h
            · cases h
            · split at h
              · next j hgoto =>
                  cases h
                  exact .inr ⟨left, _, j, hgoto, rfl⟩
              · cases h
      · cases h
      · cases h

section Table

variable (htable : buildTable a follow = .ok table)

include htable

/-- The tables lead where the automaton does. -/
theorem transition_of_shift {k t j : Nat} (h : table.action? k t = some (.shift j)) :
    a.transition k t = some j := by
  obtain ⟨s, hs, i, -, hmem⟩ := (action?_iff htable).mp h
  obtain ⟨-, -, hedge⟩ := shift_mem_actionsOf.mp hmem
  exact Option.bind_eq_some_iff.mpr ⟨s, hs, hedge⟩

theorem transition_of_goto {k left j : Nat} (h : table.goto? k left = some j) :
    a.transition k left = some j := by
  obtain ⟨s, hs, -, hedge⟩ := (goto?_iff htable).mp h
  exact Option.bind_eq_some_iff.mpr ⟨s, hs, hedge⟩

/-- A move puts a state on the stack that its symbol leads to. -/
theorem Linked.next {c c' : Config Entry} {move : Move} (h : Linked a c.stack)
    (hturn : turn g table c = .next move c') : Linked a c'.stack := by
  rcases next_cases hturn with ⟨t, j, -, haction, rfl⟩ | ⟨left, n, j, hgoto, rfl⟩
  · exact .push h (transition_of_shift htable haction)
  · exact .push (h.drop n) (transition_of_goto htable hgoto)

theorem Linked.passes {c c' : Config Entry} {steps : List (Step Entry)} (h : Linked a c.stack)
    (hpasses : Passes (turn g table) c steps c') : Linked a c'.stack := by
  induction hpasses with
  | refl => exact h
  | next hfirst _ ih => exact ih (h.next htable hfirst)

end Table

structure Sound (g : Grammar) (a : Automaton) (table : Table) (tokens : List String)
    (c : Config Entry) : Prop where
  length : (statesOf c.stack).length = (symbolsOf c.stack).length + 1
  bottom : (statesOf c.stack)[0]? = some 0
  linked : ∀ k symbol, (symbolsOf c.stack)[k]? = some symbol →
    ∃ source target, (statesOf c.stack)[k]? = some source ∧
      (statesOf c.stack)[k + 1]? = some target ∧ a.transition source symbol = some target
  reads : ∃ before after word, tokens = before ++ after ∧ c.rest = g.input after ∧
    g.Spells before word ∧ g.Derives (symbolsOf c.stack) word
  reduces : ∀ t left production, c.current = some t →
    table.action? (topState c.stack) t = some (.reduce left production) →
      ∃ front exposed, symbolsOf c.stack = front ++ (g.body left production).visible ∧
        (statesOf c.stack)[front.length]? = some exposed ∧
        (table.goto? exposed left).isSome = true

section IsFor

variable (ha : a.IsFor g)

include ha

/-- A reduction that the table calls for has its alternative on top of the stack. -/
theorem exists_front (htable : buildTable a follow = .ok table) (h : Traces a stack string)
    {t left production : Nat}
    (haction : table.action? (topState stack) t = some (.reduce left production)) :
    ∃ front exposed, string = front ++ (g.body left production).visible ∧
      (statesOf stack)[front.length]? = some exposed ∧
      (table.goto? exposed left).isSome = true := by
  obtain ⟨s, hs, hvalid⟩ := h.top ha.complete
  obtain ⟨s', hs', i, hi, hmem⟩ := (action?_iff htable).mp haction
  obtain rfl : s = s' := Option.some.inj (hs.symm.trans hs')
  obtain ⟨hdone, hleft, rfl, rfl, -⟩ := reduce_mem_actionsOf.mp hmem
  obtain ⟨hbody, front, rfl, j, hj, hnext⟩ :=
    ((hvalid i).mp hi).complete_origin ha hleft hdone
  have hnon := ha.wellFormed.isNonterminal_of_mem_bodies hbody
  obtain ⟨k, hgoto, -⟩ := exists_goto ha htable h.drop hj hnext hnon
  have hlength := h.length_eq
  rw [List.length_append] at hlength
  have hstate := getElem?_statesOf stack (n := (g.body i.left i.production).visible.length)
    (by omega)
  refine ⟨front, _, rfl, ?_, Option.isSome_iff_exists.mpr ⟨k, hgoto⟩⟩
  rw [← hstate]
  congr 1
  omega

variable (htable : buildTable a (g.followSets g.firstSets) = .ok table)

include htable

/-- Every configuration that a run passes through is sound. -/
theorem sound_of_passes {tokens : List String} {steps : List (Step Entry)} {c : Config Entry}
    (h : Passes (turn g table) (initial g tokens) steps c) : Sound g a table tokens c := by
  obtain ⟨string, before, after, word, htokens, hrest, hspell, htraces, -, hright⟩ :=
    rightmost_of_passes ha htable .nil .start h
  have hlinked : Linked a c.stack := Linked.nil.passes htable h
  obtain rfl := htraces.symbolsOf_eq
  exact {
    length := by rw [length_statesOf, length_symbolsOf]
    bottom := rfl
    linked := fun _ _ hsymbol => hlinked.getElem?_symbolsOf hsymbol
    reads := ⟨before, after, word, htokens, hrest, hspell, by simpa using hright.derives⟩
    reduces := fun _ _ _ _ haction => exists_front ha htable htraces haction }

/-- The machine stops only to accept or to reject. -/
theorem stops_of_passes {tokens : List String} {steps : List (Step Entry)} {c : Config Entry}
    (h : Passes (turn g table) (initial g tokens) steps c) :
    turn g table c ≠ .fault ∧ ∀ move accepted, turn g table c = .halt move accepted →
      (move = .accept ∧ accepted = true) ∨ (move = .reject ∧ accepted = false) := by
  obtain ⟨string, -, -, -, -, -, -, htraces, -⟩ := rightmost_of_passes ha htable .nil .start h
  obtain ⟨stack, rest⟩ := c
  rcases turn_cases ha htable htraces rest with hturn | ⟨hturn, -⟩ | ⟨t, j, hturn, -⟩ |
    ⟨t, move, stack', string', hturn, -⟩
  all_goals
    rw [hturn]
    simp

end IsFor

/-- At every point of a run the states of the stack are a way through the automaton that is read over
its symbols, these derive what was read, and every reduction that is called for can be carried out.
The run can end only with an accepting or a rejecting step. The loop over the states and the symbols in
two lists passes through the lists of these very stacks, and goes on or ends as the machine does. -/
theorem stack_is_path (hg : g.Readable) {a : Analysis} (ha : g.analyze? = some a)
    (htable : a.slr1Table = some table) (tokens : List String) :
    (∀ record s, Split.Passes g table (.initial g tokens) record s ↔
      ∃ steps c, Passes (turn g table) (initial g tokens) steps c ∧
        record = steps.map (fun step => (.of step.config, step.move)) ∧ s = .of c ∧
        s.turn g table = .of (turn g table c)) ∧
    (∀ steps c, Passes (turn g table) (initial g tokens) steps c →
      Sound g a.automaton table tokens c) ∧
    ∀ limit, runFor limit g table tokens ≠ .faulted ∧
      ∀ trace, runFor limit g table tokens = .halted trace →
        ∃ steps c, Passes (turn g table) (initial g tokens) steps c ∧
          ((trace.steps = steps ++ [⟨c, .accept⟩] ∧ trace.accepted = true) ∨
            (trace.steps = steps ++ [⟨c, .reject⟩] ∧ trace.accepted = false)) := by
  obtain ⟨hfor, -, hbuild⟩ := isFor_of_analyze? hg ha htable
  refine ⟨fun record s => ?_, fun steps c => sound_of_passes hfor hbuild, fun limit => ⟨?_, ?_⟩⟩
  · rw [← Split.of_initial, Split.passes_of_iff]
    constructor
    · rintro ⟨steps, c, hpasses, rfl, rfl⟩
      exact ⟨steps, c, hpasses, rfl, rfl, Split.turn_of c⟩
    · rintro ⟨steps, c, hpasses, rfl, rfl, -⟩
      exact ⟨steps, c, hpasses, rfl, rfl⟩
  · intro hfault
    obtain ⟨steps, c, hpasses, hturn⟩ := passes_of_faulted hfault
    exact (stops_of_passes hfor hbuild hpasses).1 hturn
  · intro trace hrun
    obtain ⟨steps, c, move, hpasses, hhalt, hsteps⟩ := passes_of_run hrun
    refine ⟨steps, c, hpasses, ?_⟩
    rcases (stops_of_passes hfor hbuild hpasses).2 move _ hhalt with ⟨rfl, haccepted⟩ |
      ⟨rfl, haccepted⟩
    · exact .inl ⟨hsteps, haccepted⟩
    · exact .inr ⟨hsteps, haccepted⟩

/-! Above `( ( S` the empty alternative of `A` is reduced, which takes nothing off the stack. -/

theorem stack_path_over_empty :
    ∃ g a table trace step, Grammar.read .spaced "S -> ( S A ) | x\nA -> , | ϵ" = .ok g ∧
      g.analyze? = some a ∧ a.slr1Table = some table ∧
      runFor 12 g table ["(", "(", "x", ")", ",", ")"] = .halted trace ∧
      trace.steps[4]? = some step ∧ step.move = .reduce 3 1 ∧
      symbolsOf step.config.stack = [4, 4, 2] ∧ statesOf step.config.stack = [0, 1, 1, 4] ∧
      Sound g a.automaton table ["(", "(", "x", ")", ",", ")"] step.config ∧
      ∃ steps c, trace.steps = steps ++ [⟨c, .accept⟩] := by
  have hruns : ((Grammar.read .spaced "S -> ( S A ) | x\nA -> , | ϵ").toOption.bind fun g =>
      g.analyze?.bind fun a => a.slr1Table.bind fun table =>
        (runFor 12 g table ["(", "(", "x", ")", ",", ")"]).trace?.bind fun trace =>
          trace.steps[4]?.map fun step => decide (trace.accepted = true ∧
            step.move = .reduce 3 1 ∧ symbolsOf step.config.stack = [4, 4, 2] ∧
            statesOf step.config.stack = [0, 1, 1, 4])) = some true := by
    decide +kernel
  simp only [Option.bind_eq_some_iff, Option.map_eq_some_iff, toOption_eq_some, trace?_eq_some,
    decide_eq_true_eq] at hruns
  obtain ⟨g, hg, a, ha, table, htable, trace, hrun, step, hstep, haccepted, hmove, hsymbols,
    hstates⟩ := hruns
  obtain ⟨-, hsound, hstops⟩ :=
    stack_is_path (.read hg) ha htable ["(", "(", "x", ")", ",", ")"]
  refine ⟨g, a, table, trace, step, hg, ha, htable, hrun, hstep, hmove, hsymbols, hstates,
    hsound _ _ (passes_take_of_run hrun hstep), ?_⟩
  obtain ⟨steps, c, -, ⟨hsteps, -⟩ | ⟨-, hrejected⟩⟩ := (hstops 12).2 trace hrun
  · exact ⟨steps, c, hsteps⟩
  · rw [haccepted] at hrejected
    cases hrejected

end Lookahead.SLR1
