import Lookahead.Analysis
import Lookahead.Proofs.Grammar.Readable
import Lookahead.Proofs.SLR1.Steps

/-!
The shift-reduce machine accepts exactly the sentences of its grammar. Read backwards, its turns are
the steps of a derivation that ends in what it has read and what is left. In the other direction the
machine builds a derivation tree from below: the alternative of each node is reduced as soon as its
symbols are on the stack, because the next terminal is in the FOLLOW set of the node.
-/

namespace Lookahead.SLR1

open Machine Grammar LR0 Relation

variable {g : Grammar} {table : Table}

theorem isFor_of_analyze? (hg : g.Readable) {a : Analysis} (ha : g.analyze? = some a)
    (htable : a.slr1Table = some table) :
    a.automaton.IsFor g ∧ a.follow = g.followSets g.firstSets ∧
      buildTable a.automaton (g.followSets g.firstSets) = .ok table := by
  unfold analyze? at ha
  obtain ⟨automaton, hautomaton, ha⟩ := Option.bind_eq_some_iff.mp ha
  obtain ⟨name, -, rfl⟩ := Option.map_eq_some_iff.mp hautomaton
  cases ha
  simp only [Option.ite_none_right_eq_some, toOption_eq_some] at htable
  exact ⟨isFor_build hg.wellFormed hg.isNonterminal_start name, rfl, htable.2⟩

section IsFor

variable {a : Automaton} (ha : a.IsFor g)
  (htable : buildTable a (g.followSets g.firstSets) = .ok table)

include ha

theorem produces_of_reduces {follow : FollowSets} {t : Nat} {string string' : List Nat}
    (h : Reduces a follow t string string') : g.Produces string' string := by
  obtain ⟨front, i, hi, hdone, hleft, -, rfl, rfl⟩ := h
  have hbody := (hi.complete_origin ha hleft hdone).1
  rw [ha.body_of_ne hleft]
  simpa using produces_of_mem hbody front []

include htable

/-! What is accepted is derived. -/

/-- What is accepted is derived: a reduction undoes the step that put its alternative in. -/
theorem derives_of_ends {stack : List Entry} {string : List Nat} (tokens : List String)
    (htraces : Traces a stack string)
    (h : Ends (turn g table) ⟨stack, g.input tokens⟩ true) :
    ∃ word, g.Spells tokens word ∧ g.Derives [g.start] (string ++ word) := by
  obtain ⟨last, move, hreach, hlast⟩ := ends_iff.mp h
  generalize hc : (⟨stack, g.input tokens⟩ : Config Entry) = c at hreach
  induction hreach using ReflTransGen.head_induction_on generalizing stack string tokens with
  | refl =>
      subst hc
      rcases turn_cases ha htable htraces (g.input tokens) with
        hturn | ⟨-, hcurrent, rfl⟩ | ⟨t, j, hturn, -⟩ | ⟨t, move, stack', string', hturn, -⟩
      · simp [hturn] at hlast
      · obtain rfl := ha.wellFormed.current_eq_endMark hcurrent
        exact ⟨[], .nil, .refl⟩
      · simp [hturn] at hlast
      · simp [hturn] at hlast
  | head hgoes hreach ih =>
      subst hc
      obtain ⟨move, hmove⟩ := hgoes
      rcases turn_cases ha htable htraces (g.input tokens) with hturn | ⟨hturn, -⟩ |
        ⟨t, j, hturn, hcurrent, hshift, htraces'⟩ |
        ⟨t, _, stack', string', hturn, -, hreduces, htraces'⟩
      · simp [hturn] at hmove
      · simp [hturn] at hmove
      · rw [hturn] at hmove
        cases hmove
        obtain ⟨i, hi, hnext, -⟩ := hshift
        have hne : t ≠ endMark := (hi.next_lt ha hnext).1.ne'
        obtain ⟨token, rest, rfl, hterminal⟩ := exists_token hcurrent hne
        obtain ⟨word, hspell, hder⟩ := ih rest htraces'
          (ends_iff.mpr ⟨last, _, hreach, hlast⟩) rfl
        exact ⟨t :: word, ha.wellFormed.spells_cons.mpr ⟨hterminal, hspell⟩, by simpa using hder⟩
      · rw [hturn] at hmove
        cases hmove
        obtain ⟨word, hspell, hder⟩ := ih tokens htraces' (ends_iff.mpr ⟨last, _, hreach, hlast⟩) rfl
        have hstep : g.Produces (string' ++ word) (string ++ word) := by
          simpa using (produces_of_reduces ha hreduces).context [] word
        exact ⟨word, hspell, hder.tail hstep⟩

/-! What is derived is accepted. -/

/-- The machine reads what the next symbols of an item yield and puts these symbols on its stack, if
the terminal behind can come there: the string on the stack, the symbols and what comes after them
are derived, and what comes after them can begin with the terminal. -/
theorem reaches_of_yields {upper word : List Nat} (h : g.Yields upper word)
    {stack : List Entry} {string after below : List Nat} (more : List Nat) {rest : List Token}
    {i : Item} (htraces : Traces a stack string) (hi : a.Valid string i)
    (hahead : a.grammar.ahead i = upper ++ more)
    (hder : g.Derives [g.start, endMark] (string ++ (upper ++ after)))
    (hafter : (g.firstSets.ofSequence after).Has below.head?) (hbelow : below ≠ [])
    (hreads : Reads rest (word ++ below)) :
    ∃ stack', Reaches (turn g table) ⟨stack, rest⟩ ⟨stack', rest.drop word.length⟩ ∧
      Traces a stack' (string ++ upper) := by
  induction h generalizing stack string after below more rest i with
  | nil => exact ⟨stack, .refl, by simpa using htraces⟩
  | @terminal t upper word hterm hyield ih =>
      have hnext : a.grammar.nextSymbol i = some t := by
        rw [nextSymbol_eq_head?, hahead]
        rfl
      have hshift : Shifts a t string :=
        ⟨i, hi, hnext, (ha.isTerminal_eq t).trans hterm⟩
      obtain ⟨j, hgoes, htraces'⟩ := goes_shift ha htable htraces hreads.current hshift
      obtain ⟨stack', hreach, htraces'⟩ := ih more htraces' (hi.move hnext)
        (by rw [ahead_advance, hahead]; rfl) (by simpa using hder) hafter hbelow hreads.tail
      rw [List.drop_tail] at hreach
      exact ⟨stack', hreach.head hgoes, by simpa using htraces'⟩
  | @nonterminal left body upper first second hbody hinner hfollowing ihinner ihfollowing =>
      have hnext : a.grammar.nextSymbol i = some left := by
        rw [nextSymbol_eq_head?, hahead]
        rfl
      have hnon := ha.wellFormed.isNonterminal_of_mem_bodies hbody
      have hder : g.Derives [g.start, endMark] (string ++ left :: (upper ++ after)) := by
        simpa using hder
      have hlater := hfollowing.first_append ha.wellFormed hafter
      rw [List.append_assoc] at hreads
      -- the children of the node
      obtain ⟨j, hj, rfl, hget, hvisible⟩ := hi.exists_initial ha hnext hbody
      obtain ⟨stack₁, hreach₁, htraces₁⟩ := ihinner [] htraces hj (by simpa using hvisible)
        (by simpa using hder.tail (produces_of_mem hbody string (upper ++ after))) hlater
        (by simp [hbelow]) hreads
      -- the node itself
      obtain ⟨t, ht⟩ : ∃ t, (second ++ below).head? = some t :=
        ⟨_, List.head?_eq_some_head (by simp [hbelow])⟩
      have hfollow : t ∈ g.followers j.left :=
        ha.wellFormed.mem_followers_of_derives hder rfl hnon (ht ▸ hlater)
      have hreduces := reduces_of_ahead hj (hget ▸ hvisible)
        (ha.ne_accept (lt_size_of_isNonterminal hnon)) hfollow
      rw [hget] at hreduces
      obtain ⟨stack₂, hgoes, htraces₂⟩ := goes_reduce ha htable htraces₁
        (hreads.drop.current.trans ht) hreduces
      -- what comes after the node
      obtain ⟨stack', hreach₂, htraces'⟩ := ihfollowing more htraces₂ (hi.move hnext)
        (by rw [ahead_advance, hahead]; rfl) (by simpa using hder) hafter hbelow hreads.drop
      rw [List.drop_drop] at hreach₂
      rw [List.length_append]
      exact ⟨stack', hreach₁.trans (hreach₂.head hgoes), by simpa using htraces'⟩

theorem ends_of_yields {tokens : List String} {word : List Nat} (hspell : g.Spells tokens word)
    (h : g.Yields [g.start] word) : Ends (turn g table) (initial g tokens) true := by
  have hreads : Reads (g.input tokens) (word ++ [endMark]) := ha.wellFormed.reads_input hspell
  have hend : g.Yields [endMark] [endMark] := .terminal ha.wellFormed.isTerminal_endMark .nil
  have hvalid : a.Valid [] (a.grammar.initialItem a.accept 0) := .start
  have hahead := ahead_start ha
  obtain ⟨stack, hreach, htraces⟩ := reaches_of_yields ha htable h [] .nil hvalid
    (by simpa using hahead) .refl (hend.first ha.wellFormed) (by simp) hreads
  obtain ⟨last, hlast, hleft, -, hdone⟩ := hvalid.move_over hahead
  refine .of_reaches hreach (ends_of_halt (halt_accept ha htable htraces ?_ hlast hleft hdone))
  exact hreads.drop.current

end IsFor

/-- The shift-reduce machine accepts a list of tokens exactly if it is a sentence. -/
theorem shift_reduce_accepts_iff (hg : g.Readable) {a : Analysis} (ha : g.analyze? = some a)
    (htable : a.slr1Table = some table) (tokens : List String) :
    (∃ limit trace, runFor limit g table tokens = .halted trace ∧ trace.accepted = true) ↔
      g.IsSentence tokens := by
  obtain ⟨hfor, -, hbuild⟩ := isFor_of_analyze? hg ha htable
  change Ends (turn g table) (initial g tokens) true ↔ _
  constructor
  · intro h
    obtain ⟨word, hspell, hder⟩ := derives_of_ends hfor hbuild tokens .nil h
    exact ⟨word, hspell, hder⟩
  · intro h
    obtain ⟨word, hspell, hyield⟩ := isSentence_iff.mp h
    exact ends_of_yields hfor hbuild hspell hyield

theorem shift_reduce_accepts_nested :
    ∃ g a table, Grammar.read .spaced "S -> S A | ϵ\nA -> a | ( S )\nU -> U a" = .ok g ∧
      g.analyze? = some a ∧ a.slr1Table = some table ∧ g.IsSentence ["a", "(", "a", ")"] := by
  have hrun : ((Grammar.read .spaced "S -> S A | ϵ\nA -> a | ( S )\nU -> U a").toOption.bind
      fun g => g.analyze?.bind fun a => a.slr1Table.bind fun table =>
        (runFor 20 g table ["a", "(", "a", ")"]).trace?.map Trace.accepted) = some true := by
    decide +kernel
  simp only [Option.bind_eq_some_iff, Option.map_eq_some_iff, toOption_eq_some,
    trace?_eq_some] at hrun
  obtain ⟨g, hg, a, ha, table, htable, trace, htrace, haccepted⟩ := hrun
  refine ⟨g, a, table, hg, ha, htable, ?_⟩
  exact (shift_reduce_accepts_iff (.read hg) ha htable _).mp ⟨20, trace, htrace, haccepted⟩

end Lookahead.SLR1
