import Lookahead.Proofs.Grammar.Derivation
import Lookahead.Proofs.Grammar.WellFormed

/-!
The strings that the start symbol derives, and how they go on to sentences. Where every nonterminal
derives a word, whatever is left of such a string derives one too, so that a part of it that holds
terminals only begins a sentence.
-/

namespace Lookahead.Grammar

open Relation

variable {g : Grammar}

def Reduced (g : Grammar) : Prop :=
  ∀ s, g.isNonterminal s = true → g.Reachable s ∧ g.Productive s

theorem Reduced.productive (h : g.Reduced) : ∀ s, g.isNonterminal s = true → g.Productive s :=
  fun s hs => (h s hs).2

theorem mem_of_isNonterminal {nonterminals : List Nat}
    (h : (List.range g.size).filter g.isNonterminal = nonterminals) {s : Nat}
    (hs : g.isNonterminal s = true) : s ∈ nonterminals := by
  rw [← h, List.mem_filter, List.mem_range]
  exact ⟨lt_size_of_isNonterminal hs, hs⟩

theorem WellFormed.endMark_not_mem_of_derives (hg : g.WellFormed) {u v : List Nat}
    (h : g.Derives u v) (hu : endMark ∉ u) : endMark ∉ v := by
  induction h with
  | refl => exact hu
  | tail _ hstep ih =>
      obtain ⟨left, body, front, rest, hbody, rfl, rfl⟩ := hstep
      rw [List.mem_append, List.mem_cons, not_or, not_or] at ih
      rw [List.append_assoc, List.mem_append, not_or]
      exact ⟨ih.1, hg.endMark_not_mem_append hbody ih.2.2⟩

theorem not_mem_of_yields (hg : g.WellFormed) {symbols word : List Nat}
    (h : g.Yields symbols word) (hsymbols : endMark ∉ symbols) : endMark ∉ word :=
  hg.endMark_not_mem_of_derives h.derives hsymbols

/-- A word without the end mark has a spelling, since every terminal has a name. -/
theorem exists_spells {word : List Nat} (hterm : ∀ t ∈ word, g.isTerminal t = true)
    (hend : endMark ∉ word) : ∃ tokens, g.Spells tokens word := by
  induction word with
  | nil => exact ⟨[], .nil⟩
  | cons t word ih =>
      rw [List.mem_cons, not_or] at hend
      obtain ⟨tokens, hspells⟩ := ih (fun s hs => hterm s (by simp [hs])) hend.2
      have ht := hterm t (by simp)
      obtain ⟨text, htext⟩ := isTerminal_iff.mp ht
      refine ⟨text :: tokens, .cons ⟨?_, ht, Ne.symm hend.1⟩ hspells⟩
      simp [name?, htext, Symbol.name]

theorem Spells.append {tokens tokens' : List String} {word word' : List Nat}
    (h : g.Spells tokens word) (h' : g.Spells tokens' word') :
    g.Spells (tokens ++ tokens') (word ++ word') :=
  List.rel_append h h'

/-- The end mark behind the start symbol stays behind what the start symbol derives. -/
theorem derives_of_derives_endMark (hg : g.WellFormed) {symbols : List Nat}
    (h : g.Derives [g.start, endMark] symbols) :
    ∃ front, symbols = front ++ [endMark] ∧ g.Derives [g.start] front := by
  induction h with
  | refl => exact ⟨[g.start], rfl, .refl⟩
  | tail _ hstep ih =>
      obtain ⟨string, rfl, hder⟩ := ih
      obtain ⟨left, body, u, v, hbody, hsplit, rfl⟩ := hstep
      rcases append_eq_append_cons hsplit with ⟨x, rfl, rfl⟩ | ⟨x, hx, -⟩
      · exact ⟨u ++ body.visible ++ x, by simp, hder.tail (produces_of_mem hbody u x)⟩
      · have hleft : left ∈ [endMark] := by simp [hx]
        rw [List.mem_singleton.mp hleft] at hbody
        exact absurd hbody (not_mem_bodies_of_isTerminal hg.isTerminal_endMark)

/-- A string of productive symbols yields some word. -/
theorem exists_yields {symbols : List Nat} (h : ∀ s ∈ symbols, g.Productive s) :
    ∃ word, g.Yields symbols word := by
  induction symbols with
  | nil => exact ⟨[], .nil⟩
  | cons s symbols ih =>
      obtain ⟨first, hfirst⟩ := h s (by simp)
      obtain ⟨second, hsecond⟩ := ih fun r hr => h r (by simp [hr])
      exact ⟨first ++ second, hfirst.append hsecond⟩

theorem WellFormed.endMark_lt_of_isNonterminal (hg : g.WellFormed) {s : Nat}
    (hs : g.isNonterminal s = true) : endMark < s := by
  have hne : s ≠ epsilon := (isNonterminal_iff.mp hs).1
  have hne' : s ≠ endMark := by
    rintro rfl
    rw [not_isNonterminal_of_isTerminal hg.isTerminal_endMark] at hs
    cases hs
  simp only [epsilon, endMark] at hne hne' ⊢
  omega

/-- The start symbol derives neither the end mark nor anything outside the grammar. -/
theorem WellFormed.mem_of_derives (hg : g.WellFormed) (hstart : g.isNonterminal g.start = true)
    {symbols : List Nat} (h : g.Derives [g.start] symbols) :
    ∀ s ∈ symbols, endMark < s ∧ s < g.size := by
  induction h with
  | refl =>
      intro s hs
      obtain rfl := List.mem_singleton.mp hs
      exact ⟨hg.endMark_lt_of_isNonterminal hstart, lt_size_of_isNonterminal hstart⟩
  | tail _ hstep ih =>
      obtain ⟨left, body, front, rest, hbody, rfl, rfl⟩ := hstep
      intro s hs
      simp only [List.mem_append] at hs
      rcases hs with (hs | hs) | hs
      · exact ih s (by simp [hs])
      · exact (hg.fits hbody).visible s hs
      · exact ih s (by simp [hs])

section Productive

variable (hproductive : ∀ s, g.isNonterminal s = true → g.Productive s)

include hproductive

theorem exists_yields_of_lt {symbols : List Nat}
    (h : ∀ s ∈ symbols, endMark < s ∧ s < g.size) : ∃ word, g.Yields symbols word := by
  apply exists_yields
  intro s hs
  obtain ⟨hend, hlt⟩ := h s hs
  rcases isTerminal_or_isNonterminal hlt (ne_epsilon_of_lt hend) with hterm | hnon
  · exact ⟨[s], .terminal hterm .nil⟩
  · exact hproductive s hnon

/-- Tokens that spell the beginning of a derived string begin a sentence. -/
theorem exists_sentence (hg : g.WellFormed) (hstart : g.isNonterminal g.start = true)
    {tokens : List String} {word rest : List Nat} (hspells : g.Spells tokens word)
    (hder : g.Derives [g.start] (word ++ rest)) : ∃ more, g.IsSentence (tokens ++ more) := by
  have hmem := hg.mem_of_derives hstart hder
  have hrest : ∀ s ∈ rest, endMark < s ∧ s < g.size := fun s hs => hmem s (by simp [hs])
  obtain ⟨back, hback⟩ := exists_yields_of_lt hproductive hrest
  have hend : endMark ∉ back :=
    not_mem_of_yields hg hback fun hend => lt_irrefl _ (hrest endMark hend).1
  obtain ⟨more, hmore⟩ := exists_spells hback.isTerminal_of_mem hend
  refine ⟨more, word ++ back, hspells.append hmore, ?_⟩
  exact hder.trans (hback.derives.append_left word)

end Productive

end Lookahead.Grammar
