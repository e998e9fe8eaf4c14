import Lookahead.Proofs.Grammar.Canonical
import Lookahead.Proofs.Machine.Steps

/-!
What a trace records. Its steps are the turns of the machine one after the other, up to the one that
halts. A machine that looks at one token and reads no more than this token goes the same way on all
inputs that agree up to the token at hand, so that where it rejects one of them it accepts none.
-/

namespace Lookahead

namespace Machine

open Relation

variable {σ : Type} {turn : Config σ → Turn σ}

/-- The turns from one configuration to another, as a trace records them. -/
inductive Passes (turn : Config σ → Turn σ) : Config σ → List (Step σ) → Config σ → Prop
  | refl {c : Config σ} : Passes turn c [] c
  | next {c c' last : Config σ} {move : Move} {steps : List (Step σ)}
      (first : turn c = .next move c') (following : Passes turn c' steps last) :
      Passes turn c (⟨c, move⟩ :: steps) last

theorem Passes.reaches {c last : Config σ} {steps : List (Step σ)}
    (h : Passes turn c steps last) : Reaches turn c last := by
  induction h with
  | refl => exact .refl
  | next hfirst _ ih => exact ih.head ⟨_, hfirst⟩

theorem steps_of_cons_eq_halted {step : Step σ} {r : Run σ} {trace : Trace σ}
    (h : r.cons step = .halted trace) :
    ∃ rest, r = .halted rest ∧ rest.accepted = trace.accepted ∧
      trace.steps = step :: rest.steps := by
  obtain ⟨rest, rfl, haccepted⟩ := cons_eq_halted h
  cases h
  exact ⟨rest, rfl, rfl, rfl⟩

/-- A trace holds the turns up to the one that halts, and this one. -/
theorem passes_of_run {limit : Nat} {c : Config σ} {trace : Trace σ}
    (h : run turn limit c = .halted trace) :
    ∃ steps last move, Passes turn c steps last ∧ turn last = .halt move trace.accepted ∧
      trace.steps = steps ++ [⟨last, move⟩] := by
  induction limit generalizing c trace with
  | zero => cases h
  | succ limit ih =>
      rw [run] at h
      split at h
      · next move c' hmove =>
          obtain ⟨rest, hrest, haccepted, hsteps⟩ := steps_of_cons_eq_halted h
          obtain ⟨steps, last, final, hpasses, hlast, hrecord⟩ := ih hrest
          refine ⟨⟨c, move⟩ :: steps, last, final, .next hmove hpasses, haccepted ▸ hlast, ?_⟩
          rw [hsteps, hrecord]
          rfl
      · next move accepted hmove =>
          cases h
          exact ⟨[], c, move, .refl, hmove, rfl⟩
      · cases h

/-- A run faults only in a configuration that the machine passes to. -/
theorem passes_of_faulted {limit : Nat} {c : Config σ} (h : run turn limit c = .faulted) :
    ∃ steps last, Passes turn c steps last ∧ turn last = .fault := by
  induction limit generalizing c with
  | zero => cases h
  | succ limit ih =>
      rw [run] at h
      split at h
      · next move c' hmove =>
          have hrest : run turn limit c' = .faulted := by
            cases hrun : run turn limit c' with
            | halted trace => simp [hrun, Run.cons] at h
            | faulted => rfl
            | unfinished => simp [hrun, Run.cons] at h
          obtain ⟨steps, last, hpasses, hlast⟩ := ih hrest
          exact ⟨_, last, .next hmove hpasses, hlast⟩
      · cases h
      · next hfault => exact ⟨[], c, .refl, hfault⟩

/-- The first turns on record lead to the configuration of the step that comes after them. -/
theorem Passes.take {c last : Config σ} {steps : List (Step σ)} (h : Passes turn c steps last)
    (move : Move) {k : Nat} {step : Step σ}
    (hstep : (steps ++ [Step.mk last move])[k]? = some step) :
    Passes turn c ((steps ++ [Step.mk last move]).take k) step.config := by
  induction h generalizing k with
  | refl =>
      obtain ⟨rfl, rfl⟩ : k = 0 ∧ _ = step := by simpa [List.getElem?_singleton] using hstep
      exact .refl
  | next hfirst _ ih =>
      cases k with
      | zero =>
          obtain rfl : _ = step := by simpa using hstep
          exact .refl
      | succ k => exact .next hfirst (ih hstep)

/-- The steps on record before a step lead to the configuration in which it was made. -/
theorem passes_take_of_run {limit : Nat} {c : Config σ} {trace : Trace σ}
    (h : run turn limit c = .halted trace) {k : Nat} {step : Step σ}
    (hstep : trace.steps[k]? = some step) :
    Passes turn c (trace.steps.take k) step.config := by
  obtain ⟨steps, last, move, hpasses, -, hsteps⟩ := passes_of_run h
  rw [hsteps] at hstep ⊢
  exact hpasses.take move hstep

/-- Every step on record was made in a configuration that the machine passes to. -/
theorem Passes.of_mem {c last : Config σ} {steps : List (Step σ)} (h : Passes turn c steps last)
    {step : Step σ} (hstep : step ∈ steps) :
    ∃ before next, Passes turn c before step.config ∧ turn step.config = .next step.move next := by
  induction h with
  | refl => cases hstep
  | next hfirst _ ih =>
      rcases List.mem_cons.mp hstep with rfl | hstep
      · exact ⟨[], _, .refl, hfirst⟩
      · obtain ⟨before, next, hpasses, hmove⟩ := ih hstep
        exact ⟨_, next, .next hfirst hpasses, hmove⟩

/-! The alternatives on record. -/

def Move.production? : Move → Option Rewrite
  | .produce left production => some ⟨left, production⟩
  | _ => none

def Move.reduction? : Move → Option Rewrite
  | .reduce left production => some ⟨left, production⟩
  | _ => none

def productions (steps : List (Step σ)) : List Rewrite :=
  steps.filterMap fun step => step.move.production?

def reductions (steps : List (Step σ)) : List Rewrite :=
  steps.filterMap fun step => step.move.reduction?

/-! Runs that share what they have read. -/

/-- The turn of the same configuration with more input behind what is left. -/
def Turn.before (other : List Token) : Turn σ → Turn σ
  | .next move c => .next move ⟨c.stack, c.rest ++ other⟩
  | .halt move accepted => .halt move accepted
  | .fault => .fault

/-- The machine sees one token of its input, and reads this token at most. -/
structure OneToken (turn : Config σ → Turn σ) : Prop where
  sees : ∀ stack token other,
    turn ⟨stack, token :: other⟩ = (turn ⟨stack, [token]⟩).before other
  reads : ∀ {c c' : Config σ}, Goes turn c c' → c'.rest = c.rest ∨ c'.rest = c.rest.tail

namespace OneToken

variable (h : OneToken turn) {stack stack' : List σ} {token : Token} {after : List Token}

include h

/-- The input that is left is the last part of the input. -/
theorem rest_suffix {c c' : Config σ} (hreach : Reaches turn c c') : c'.rest <:+ c.rest := by
  induction hreach with
  | refl => exact List.suffix_rfl
  | tail _ hgoes ih =>
      rcases h.reads hgoes with hrest | hrest
      · rw [hrest]
        exact ih
      · rw [hrest]
        exact (List.tail_suffix _).trans ih

theorem length_rest_le {c c' : Config σ} (hreach : Reaches turn c c') :
    c'.rest.length ≤ c.rest.length :=
  (h.rest_suffix hreach).length_le

/-- A machine that halts at a token halts there whatever comes behind it. -/
theorem halt {move : Move} {accepted : Bool}
    (hhalt : turn ⟨stack, token :: after⟩ = .halt move accepted) (other : List Token) :
    turn ⟨stack, token :: other⟩ = .halt move accepted := by
  rw [h.sees] at hhalt ⊢
  cases hturn : turn ⟨stack, [token]⟩ with
  | next move c => simp [hturn, Turn.before] at hhalt
  | halt move' accepted' => simpa [hturn, Turn.before] using hhalt
  | fault => simp [hturn, Turn.before] at hhalt

/-- A move is made on other input too, and leaves there what is different. -/
theorem goes {c' : Config σ} (hgoes : Goes turn ⟨stack, token :: after⟩ c') :
    ∃ next, (c' = ⟨next, token :: after⟩ ∧
        ∀ other, Goes turn ⟨stack, token :: other⟩ ⟨next, token :: other⟩) ∨
      (c' = ⟨next, after⟩ ∧ ∀ other, Goes turn ⟨stack, token :: other⟩ ⟨next, other⟩) := by
  obtain ⟨move, hmove⟩ := hgoes
  rw [h.sees] at hmove
  cases hturn : turn ⟨stack, [token]⟩ with
  | next _ c =>
      obtain ⟨next, rest⟩ := c
      rw [hturn] at hmove
      cases hmove
      have hother (other : List Token) :
          Goes turn ⟨stack, token :: other⟩ ⟨next, rest ++ other⟩ :=
        ⟨move, by rw [h.sees, hturn]; rfl⟩
      rcases h.reads ⟨move, hturn⟩ with rfl | rfl
      · exact ⟨next, .inl ⟨rfl, hother⟩⟩
      · exact ⟨next, .inr ⟨rfl, hother⟩⟩
  | halt _ _ => simp [hturn, Turn.before] at hmove
  | fault => simp [hturn, Turn.before] at hmove

/-- The way to a configuration depends on nothing behind the token at hand there. -/
theorem reaches {front : List Token}
    (hreach : Reaches turn ⟨stack, front ++ token :: after⟩ ⟨stack', token :: after⟩)
    (other : List Token) :
    Reaches turn ⟨stack, front ++ token :: other⟩ ⟨stack', token :: other⟩ := by
  generalize hc : (⟨stack, front ++ token :: after⟩ : Config σ) = c at hreach
  induction hreach using ReflTransGen.head_induction_on generalizing stack front with
  | refl =>
      obtain ⟨rfl, hrest⟩ := Config.mk.inj hc
      obtain rfl : front = [] := List.append_left_eq_self.mp hrest
      exact .refl
  | head hgoes hreach ih =>
      subst hc
      cases front with
      | nil =>
          obtain ⟨next, ⟨rfl, hother⟩ | ⟨rfl, -⟩⟩ := h.goes hgoes
          · have hrest : Reaches turn ⟨next, [] ++ token :: other⟩ ⟨stack', token :: other⟩ := ih rfl
            exact hrest.head (hother other)
          · -- the token has been read and cannot be at hand again
            have hle := h.length_rest_le hreach
            simp only [List.length_cons] at hle
            omega
      | cons first front =>
          obtain ⟨next, ⟨rfl, hother⟩ | ⟨rfl, hother⟩⟩ := h.goes hgoes
          · have hrest : Reaches turn ⟨next, first :: front ++ token :: other⟩
                ⟨stack', token :: other⟩ := ih rfl
            exact hrest.head (hother _)
          · have hrest : Reaches turn ⟨next, front ++ token :: other⟩ ⟨stack', token :: other⟩ :=
              ih rfl
            exact hrest.head (hother _)

/-- Where the machine rejects, it rejects all that goes on with the token at hand. -/
theorem not_ends {front : List Token} {move : Move}
    (hreach : Reaches turn ⟨stack, front ++ token :: after⟩ ⟨stack', token :: after⟩)
    (hhalt : turn ⟨stack', token :: after⟩ = .halt move false) (other : List Token) :
    ¬ Ends turn ⟨stack, front ++ token :: other⟩ true := by
  intro hends
  obtain ⟨limit, trace, hrun, haccepted⟩ := hends.of_reaches_start (h.reaches hreach other)
  cases limit with
  | zero => cases hrun
  | succ limit =>
      rw [run, h.halt hhalt other] at hrun
      cases hrun
      cases haccepted

end OneToken
end Machine

namespace Grammar

variable {g : Grammar}

theorem input_append (before after : List String) :
    g.input (before ++ after) =
      before.map (fun text => ⟨text, g.terminal? text⟩) ++ g.input after := by
  simp [input]

theorem length_input (tokens : List String) : (g.input tokens).length = tokens.length + 1 := by
  simp [input]

/-- The first tokens begin a sentence, and do so no longer with the token that comes next. -/
structure EarliestError (g : Grammar) (before after : List String) : Prop where
  begins : ∃ more, g.IsSentence (before ++ more)
  token : ∀ token later, after = token :: later → ∀ more, ¬ g.IsSentence (before ++ token :: more)
  ending : after = [] → ¬ g.IsSentence before

end Grammar

namespace Machine

open Grammar

variable {σ : Type} {turn : Config σ → Turn σ} {g : Grammar}

/-- At every step what was read begins a sentence, and an error ends the run only at the first token
with which it no longer does. -/
structure Viable (g : Grammar) (tokens : List String) (trace : Trace σ) : Prop where
  reads : ∀ step ∈ trace.steps, ∃ before after, tokens = before ++ after ∧
    step.config.rest = g.input after ∧ ∃ more, g.IsSentence (before ++ more)
  errs : ∀ step, trace.steps.getLast? = some step → step.move = .reject →
    ∃ before after, tokens = before ++ after ∧ step.config.rest = g.input after ∧
      g.EarliestError before after

/-- A machine that accepts every sentence does not reject what can still become one. -/
theorem OneToken.earliestError (h : OneToken turn) {stack : List σ}
    (haccepts : ∀ tokens, g.IsSentence tokens → Ends turn ⟨stack, g.input tokens⟩ true)
    {before after : List String} (hbegins : ∃ more, g.IsSentence (before ++ more)) {c : Config σ}
    (hreach : Reaches turn ⟨stack, g.input (before ++ after)⟩ c) (hrest : c.rest = g.input after)
    {move : Move} (hhalt : turn c = .halt move false) : g.EarliestError before after := by
  obtain ⟨stack', rest⟩ := c
  subst hrest
  rw [input_append] at hreach
  refine ⟨hbegins, ?_, ?_⟩
  · intro token later hafter more hsentence
    subst hafter
    have hends := haccepts _ hsentence
    rw [input_append] at hends
    exact h.not_ends hreach hhalt _ hends
  · intro hafter hsentence
    -- here the token at hand is the end mark
    subst hafter
    have hends := haccepts (before ++ []) (by simpa using hsentence)
    rw [input_append] at hends
    exact h.not_ends hreach hhalt _ hends

/-- If a machine accepts every sentence and reads nothing but what begins one, its errors are the
earliest possible. -/
theorem Viable.of_run (hone : OneToken turn) {stack : List σ}
    (haccepts : ∀ tokens, g.IsSentence tokens → Ends turn ⟨stack, g.input tokens⟩ true)
    (hreject : ∀ c accepted, turn c = .halt .reject accepted → accepted = false)
    {tokens : List String}
    (hviable : ∀ steps c, Passes turn ⟨stack, g.input tokens⟩ steps c →
      ∃ before after, tokens = before ++ after ∧ c.rest = g.input after ∧
        ∃ more, g.IsSentence (before ++ more))
    {limit : Nat} {trace : Trace σ} (h : run turn limit ⟨stack, g.input tokens⟩ = .halted trace) :
    Viable g tokens trace := by
  constructor
  · intro step hstep
    obtain ⟨k, hk⟩ := List.mem_iff_getElem?.mp hstep
    exact hviable _ _ (passes_take_of_run h hk)
  · intro step hlast hmove
    obtain ⟨steps, last, move, hpasses, hhalt, hsteps⟩ := passes_of_run h
    rw [hsteps, List.getLast?_concat] at hlast
    cases hlast
    obtain rfl : move = .reject := hmove
    obtain ⟨before, after, rfl, hrest, hmore⟩ := hviable _ _ hpasses
    rw [hreject last _ hhalt] at hhalt
    exact ⟨before, after, rfl, hrest,
      hone.earliestError haccepts hmore hpasses.reaches hrest hhalt⟩

end Machine
end Lookahead
