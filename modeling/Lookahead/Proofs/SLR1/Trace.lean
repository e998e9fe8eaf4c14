import Lookahead.Proofs.Grammar.Sentential
import Lookahead.Proofs.Machine.Trace
import Lookahead.Proofs.SLR1.Membership

/-!
The trace of the shift-reduce machine is a rightmost derivation read backwards. What it has reduced
leads, from the last reduction to the first, from the string on its stack to what it has read. This
string can always be read by the automaton, and so begins a string that the start symbol derives.
-/

namespace Lookahead.SLR1

open Machine Grammar LR0

variable {g : Grammar} {table : Table}

/-- A reduction leaves what is left of the input alone. -/
theorem reduce_before (stack : List Entry) (rest other : List Token) (left production : Nat) :
    reduce g table ⟨stack, rest ++ other⟩ left production =
      (reduce g table ⟨stack, rest⟩ left production).before other := by
  unfold reduce
  dsimp only
  split
  · rfl
  · split
    · rfl
    · split <;> rfl

theorem rest_of_reduce {c c' : Config Entry} {left production : Nat} {move : Move}
    (h : reduce g table c left production = .next move c') : c'.rest = c.rest := by
  unfold reduce at h
  dsimp only at h
  split at h
  · cases h
  · split at h
    · cases h
    · split at h
      · cases h
        rfl
      · cases h

/-- The machine looks at the token at hand, and reads no other. -/
theorem oneToken_turn (g : Grammar) (table : Table) : OneToken (turn g table) where
  sees := by
    intro stack token other
    have hcurrent : (Config.mk stack (token :: other)).current = (Config.mk stack [token]).current :=
      rfl
    unfold turn
    rw [hcurrent]
    cases (Config.mk stack [token]).current with
    | none => rfl
    | some t =>
        dsimp only
        split
        · rfl
        · exact reduce_before stack [token] other _ _
        · rfl
        · rfl
  reads := by
    intro c c' hgoes
    obtain ⟨move, hmove⟩ := hgoes
    unfold turn at hmove
    split at hmove
    · cases hmove
    · split at hmove
      · cases hmove
        exact .inr rfl
      · exact .inl (rest_of_reduce hmove)
      · cases hmove
      · cases hmove

theorem accepted_eq_false_of_reject {c : Config Entry} {accepted : Bool}
    (h : turn g table c = .halt .reject accepted) : accepted = false := by
  unfold turn at h
  split at h
  · cases h
    rfl
  · split at h
    · cases h
    · unfold reduce at h
      dsimp only at h
      split at h
      · cases h
      · split at h
        · cases h
        · split at h <;> cases h
    · cases h
    · cases h
      rfl

section IsFor

variable {a : Automaton} (ha : a.IsFor g)

include ha

/-- A reduction takes back a step of a rightmost derivation, if what comes after it is a word. -/
theorem rightmostStep_of_valid {string word : List Nat} {i : Item} (front : List Nat)
    (hi : a.Valid string i) (hleft : i.left ≠ a.accept)
    (hword : ∀ t ∈ word, g.isTerminal t = true) :
    g.RightmostStep ⟨i.left, i.production⟩ (front ++ i.left :: word)
      (front ++ (g.body i.left i.production).visible ++ word) := by
  have hbody := (hi.holds ha).body_eq
  rw [ha.bodies_of_ne hleft, ha.body_of_ne hleft] at hbody
  exact ⟨_, front, word, hbody, hword, rfl, rfl⟩

/-- A string that the automaton can read begins a string that the start symbol derives. -/
theorem exists_derives_of_valid {string : List Nat} {i : Item} (hi : a.Valid string i) :
    ∃ rest, g.Derives [g.start] (string ++ rest) := by
  obtain ⟨after, hder⟩ := hi.exists_derives ha
  obtain ⟨front, hfront, hder⟩ := derives_of_derives_endMark ha.wellFormed hder
  rcases append_eq_append_cons hfront with ⟨x, hx, -⟩ | ⟨x, -, hx⟩
  · have hmem : endMark ∈ string := by simp [hx]
    exact absurd (hi.endMark_lt ha endMark hmem) (lt_irrefl _)
  · exact ⟨x, hx ▸ hder⟩

variable (htable : buildTable a (g.followSets g.firstSets) = .ok table)

include htable

/-- What the turns have reduced leads, backwards, from the string that they leave on the stack to the
one they found there followed by what they have read. -/
theorem rightmost_of_passes {stack : List Entry} {string : List Nat} {tokens : List String}
    (htraces : Traces a stack string) {i : Item} (hi : a.Valid string i)
    {steps : List (Step Entry)} {c : Config Entry}
    (h : Passes (turn g table) ⟨stack, g.input tokens⟩ steps c) :
    ∃ string' before after word, tokens = before ++ after ∧ c.rest = g.input after ∧
      g.Spells before word ∧ Traces a c.stack string' ∧ (∃ j, a.Valid string' j) ∧
      g.Rightmost (reductions steps).reverse string' (string ++ word) := by
  generalize hc : (⟨stack, g.input tokens⟩ : Config Entry) = first at h
  induction h generalizing stack string tokens i with
  | refl =>
      subst hc
      exact ⟨string, [], tokens, [], rfl, rfl, .nil, htraces, ⟨i, hi⟩, by simpa using .nil⟩
  | @next _ _ last move steps hfirst _ ih =>
      subst hc
      rcases turn_inversion ha htable htraces (g.input tokens) with hturn | ⟨hturn, -⟩ |
        ⟨t, j, hturn, hcurrent, ⟨k, hk, hnext, -⟩, htraces'⟩ |
        ⟨t, front, k, stack', hturn, -, hk, hdone, hleft, -, rfl, htraces'⟩
      · simp [hturn] at hfirst
      · simp [hturn] at hfirst
      · rw [hturn] at hfirst
        cases hfirst
        have hne : t ≠ endMark := (hk.next_lt ha hnext).1.ne'
        obtain ⟨token, rest, rfl, hterminal⟩ := exists_token hcurrent hne
        obtain ⟨string', before, after, word, rfl, hrest, hspell, hlast, hvalid, hright⟩ :=
          ih htraces' (hk.move hnext) rfl
        rw [List.append_assoc] at hright
        exact ⟨string', token :: before, after, t :: word, rfl, hrest,
          ha.wellFormed.spells_cons.mpr ⟨hterminal, hspell⟩, hlast, hvalid, hright⟩
      · rw [hturn] at hfirst
        cases hfirst
        obtain ⟨-, front', hfront, j, hj, hnext⟩ := hk.complete_origin ha hleft hdone
        obtain rfl : front = front' := List.append_cancel_right hfront
        obtain ⟨string', before, after, word, htokens, hrest, hspell, hlast, hvalid, hright⟩ :=
          ih htraces' (hj.move hnext) rfl
        -- the first reduction is the last step of the derivation
        rw [List.append_assoc, List.singleton_append] at hright
        have hstep := rightmostStep_of_valid ha front hk hleft hspell.isTerminal
        have hback : g.Rightmost ((reductions steps).reverse ++ [⟨k.left, k.production⟩]) string'
            (front ++ (g.body k.left k.production).visible ++ word) :=
          Applies.snoc_iff.mpr ⟨_, hright, hstep⟩
        exact ⟨string', before, after, word, htokens, hrest, hspell, hlast, hvalid,
          List.reverse_cons ▸ hback⟩

/-- The reductions of an accepted run lead backwards from the start symbol to the input. -/
theorem rightmost_of_accepted {tokens : List String} {limit : Nat} {trace : Trace Entry}
    (hrun : runFor limit g table tokens = .halted trace) (haccepted : trace.accepted = true) :
    ∃ word, g.Spells tokens word ∧
      g.Rightmost (reductions trace.steps).reverse [g.start] word := by
  obtain ⟨steps, last, move, hpasses, hhalt, hsteps⟩ := passes_of_run hrun
  rw [haccepted] at hhalt
  obtain ⟨string, before, after, word, rfl, hrest, hspell, htraces, -, hright⟩ :=
    rightmost_of_passes ha htable .nil .start hpasses
  obtain ⟨stack, rest⟩ := last
  subst hrest
  rcases turn_cases ha htable htraces (g.input after) with hturn | ⟨hturn, hcurrent, rfl⟩ |
    ⟨t, j, hturn, -⟩ | ⟨t, _, stack', string', hturn, -⟩
  · simp [hturn] at hhalt
  · obtain rfl := ha.wellFormed.current_eq_endMark hcurrent
    obtain rfl : Move.accept = move := by simpa [hturn] using hhalt
    refine ⟨word, by simpa using hspell, ?_⟩
    simpa [hsteps, reductions, Move.reduction?] using hright
  · simp [hturn] at hhalt
  · simp [hturn] at hhalt

/-- What the machine has read begins a sentence. -/
theorem exists_sentence_of_passes
    (hproductive : ∀ s, g.isNonterminal s = true → g.Productive s) {tokens : List String}
    {steps : List (Step Entry)} {c : Config Entry}
    (h : Passes (turn g table) (initial g tokens) steps c) :
    ∃ before after, tokens = before ++ after ∧ c.rest = g.input after ∧
      ∃ more, g.IsSentence (before ++ more) := by
  obtain ⟨string, before, after, word, htokens, hrest, hspell, -, ⟨i, hi⟩, hright⟩ :=
    rightmost_of_passes ha htable .nil .start h
  obtain ⟨rest, hder⟩ := exists_derives_of_valid ha hi
  have hword : g.Derives [g.start] (word ++ rest) :=
    hder.trans (hright.derives.append_right rest)
  exact ⟨before, after, htokens, hrest,
    exists_sentence hproductive ha.wellFormed ha.isNonterminal_start hspell hword⟩

end IsFor

end Lookahead.SLR1
