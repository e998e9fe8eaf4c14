import Lookahead.Proofs.Grammar.Sentential
import Lookahead.Proofs.LL1.Membership
import Lookahead.Proofs.Machine.Trace

/-!
The trace of the predictive machine is a leftmost derivation. What it has produced turns the start
symbol into what it has read followed by its stack, at every point of a run.
-/

namespace Lookahead.LL1

open Machine Grammar

variable {g : Grammar} {table : Table}

theorem oneToken_turn (g : Grammar) (table : Table) : OneToken (turn g table) where
  sees := by
    intro stack token other
    unfold turn
    have hcurrent : (Config.mk stack (token :: other)).current = (Config.mk stack [token]).current :=
      rfl
    have htop : top ⟨stack, token :: other⟩ = top ⟨stack, [token]⟩ := rfl
    have hprediction : prediction? g table ⟨stack, token :: other⟩ =
        prediction? g table ⟨stack, [token]⟩ := rfl
    rw [hcurrent, htop, hprediction]
    split
    · split <;> rfl
    · split
      · rfl
      · dsimp only
        split <;> rfl
  reads := by
    intro c c' hgoes
    obtain ⟨move, hmove⟩ := hgoes
    rcases turn_inversion g table c with ⟨hturn, -⟩ | hturn | hturn | ⟨hturn, -⟩ | ⟨i, hturn, -⟩
    · simp [hturn] at hmove
    · simp [hturn] at hmove
    · simp [hturn] at hmove
    · rw [hturn] at hmove
      cases hmove
      exact .inr rfl
    · rw [hturn] at hmove
      cases hmove
      exact .inl rfl

theorem initial_eq (hstart : g.isNonterminal g.start = true) (tokens : List String) :
    initial g tokens = ⟨[g.start], g.input tokens⟩ := by
  have hne : g.start ≠ epsilon := (isNonterminal_iff.mp hstart).1
  simp [initial, hne]

/-- What the turns have produced leads from the stack to what they have read, followed by the stack
that they leave. -/
theorem leftmost_of_passes (hg : g.WellFormed) (htable : IsTableOf table g) {stack : List Nat}
    {tokens : List String} (hstack : endMark ∉ stack) {steps : List (Step Nat)} {c : Config Nat}
    (h : Passes (turn g table) ⟨stack, g.input tokens⟩ steps c) :
    ∃ before after word, tokens = before ++ after ∧ c.rest = g.input after ∧
      g.Spells before word ∧ g.Leftmost (productions steps) stack (word ++ c.stack) := by
  generalize hc : (⟨stack, g.input tokens⟩ : Config Nat) = first at h
  induction h generalizing stack tokens with
  | refl =>
      subst hc
      exact ⟨[], tokens, [], rfl, rfl, .nil, .nil⟩
  | @next _ _ last _ steps hfirst _ ih =>
      subst hc
      -- a match is put in front of the derivation that follows, a production is its first step
      rcases next_cases htable hfirst with ⟨hcurrent, hne, rfl, rfl⟩ | ⟨i, body, hbody, rfl, rfl⟩
      · cases stack with
        | nil => exact absurd rfl hne
        | cons t stack =>
            obtain ⟨token, rest, rfl, hterminal⟩ := exists_token hcurrent hne
            obtain ⟨before, after, word, rfl, hrest, hspell, hleft⟩ :=
              ih (fun hmem => hstack (List.mem_cons_of_mem _ hmem)) rfl
            have hterm : g.isTerminal t = true := (hg.terminal?_eq_some.mp hterminal).2.1
            have hbehind : g.Leftmost (productions steps) (t :: stack) (t :: word ++ last.stack) := by
              simpa using hleft.context [t] [] (by simpa using hterm)
            exact ⟨token :: before, after, t :: word, rfl, hrest,
              hg.spells_cons.mpr ⟨hterminal, hspell⟩, hbehind⟩
      · cases stack with
        | nil =>
            exact absurd (List.mem_of_getElem? hbody)
              (not_mem_bodies_of_isTerminal hg.isTerminal_endMark)
        | cons left stack =>
            have hmem : endMark ∉ body.visible ++ stack :=
              hg.endMark_not_mem_append (List.mem_of_getElem? hbody)
                fun hmem => hstack (List.mem_cons_of_mem _ hmem)
            obtain ⟨before, after, word, htokens, hrest, hspell, hleft⟩ := ih hmem rfl
            have hstep : g.LeftmostStep ⟨left, i⟩ (left :: stack) (body.visible ++ stack) :=
              ⟨body, [], stack, hbody, by simp, rfl, rfl⟩
            exact ⟨before, after, word, htokens, hrest, hspell, .cons hstep hleft⟩

section Start

variable (hg : g.WellFormed) (hstart : g.isNonterminal g.start = true) (htable : IsTableOf table g)
  {tokens : List String}

include hg hstart htable

theorem leftmost_of_start {steps : List (Step Nat)} {c : Config Nat}
    (h : Passes (turn g table) (initial g tokens) steps c) :
    ∃ before after word, tokens = before ++ after ∧ c.rest = g.input after ∧
      g.Spells before word ∧ g.Leftmost (productions steps) [g.start] (word ++ c.stack) := by
  rw [initial_eq hstart] at h
  exact leftmost_of_passes hg htable (endMark_not_mem_start hg hstart) h

/-- An accepted run has turned the start symbol into its input. -/
theorem leftmost_of_accepted {limit : Nat} {trace : Trace Nat}
    (hrun : runFor limit g table tokens = .halted trace) (haccepted : trace.accepted = true) :
    ∃ word, g.Spells tokens word ∧ g.Leftmost (productions trace.steps) [g.start] word := by
  obtain ⟨steps, last, move, hpasses, hhalt, hsteps⟩ := passes_of_run hrun
  rw [haccepted] at hhalt
  obtain ⟨before, after, word, rfl, hrest, hspell, hleft⟩ :=
    leftmost_of_start hg hstart htable hpasses
  obtain ⟨stack, rest⟩ := last
  subst hrest
  rcases halt_cases hhalt with ⟨rfl, -, hcurrent, htop⟩ | ⟨-, hfalse⟩
  · obtain rfl := hg.current_eq_endMark hcurrent
    have hempty : stack = [] := by
      cases stack with
      | nil => rfl
      | cons s stack =>
          obtain rfl : s = endMark := htop
          have hmem := hg.mem_of_derives hstart hleft.derives endMark (by simp)
          exact absurd hmem.1 (lt_irrefl _)
    refine ⟨word, by simpa using hspell, ?_⟩
    simpa [hsteps, productions, Move.production?, hempty] using hleft
  · cases hfalse

/-- What the machine has read begins a sentence. -/
theorem exists_sentence_of_passes
    (hproductive : ∀ s, g.isNonterminal s = true → g.Productive s)
    {steps : List (Step Nat)} {c : Config Nat}
    (h : Passes (turn g table) (initial g tokens) steps c) :
    ∃ before after, tokens = before ++ after ∧ c.rest = g.input after ∧
      ∃ more, g.IsSentence (before ++ more) := by
  obtain ⟨before, after, word, htokens, hrest, hspell, hleft⟩ :=
    leftmost_of_start hg hstart htable h
  exact ⟨before, after, htokens, hrest,
    exists_sentence hproductive hg hstart hspell hleft.derives⟩

end Start

end Lookahead.LL1
