import Lookahead.Proofs.Grammar.Derivation
import Lookahead.Proofs.Grammar.Readable
import Mathlib.Computability.Language
import Mathlib.Order.CompletePartialOrder

/-!
Removing left recursion keeps the language of every symbol. The languages that a grammar gives to
its symbols are the least ones that its rules do not lead out of, so that two grammars are compared
by showing that the languages of each are closed under the rules of the other. The helper of a step
derives the words that are put together from words of the recursive tails, which is the Kleene star
of their language, and `A = A α | β` and `A = β α∗` have the same least solution.
-/

namespace Lookahead

namespace Grammar

open Computability

variable {g : Grammar}

def language (g : Grammar) (symbols : List Nat) : Language Nat := {word | g.Yields symbols word}

theorem mem_language {symbols word : List Nat} :
    word ∈ g.language symbols ↔ g.Yields symbols word := Iff.rfl

@[simp] theorem language_nil : g.language [] = 1 := by
  ext word
  rw [mem_language, Language.mem_one]
  constructor
  · intro h
    cases h
    rfl
  · rintro rfl
    exact .nil

/-- The words of two strings put together are words of the one followed by words of the other. -/
theorem language_append (u v : List Nat) : g.language (u ++ v) = g.language u * g.language v := by
  ext word
  rw [Language.mem_mul]
  constructor
  · intro h
    obtain ⟨x, y, rfl, hx, hy⟩ := Yields.split h
    exact ⟨x, hx, y, hy, rfl⟩
  · rintro ⟨x, hx, y, hy, rfl⟩
    exact Yields.append hx hy

theorem language_cons (s : Nat) (u : List Nat) :
    g.language (s :: u) = g.language [s] * g.language u :=
  language_append [s] u

/-- The language of a string is put together from those of its symbols. -/
theorem prod_language (u : List Nat) : (u.map fun s => g.language [s]).prod = g.language u := by
  induction u with
  | nil => simp
  | cons s u ih => rw [List.map_cons, List.prod_cons, ih, ← language_cons]

theorem language_body_le {left : Nat} {body : Body} (h : body ∈ g.bodies left) :
    g.language body.visible ≤ g.language [left] := by
  intro word hword
  have hyields : g.Yields [left] (word ++ []) := .nonterminal h hword .nil
  rwa [List.append_nil] at hyields

/-- A word of a nonterminal is a word of one of its alternatives. -/
theorem exists_body_of_mem_language {left : Nat} {word : List Nat}
    (hleft : g.isTerminal left = false) (h : word ∈ g.language [left]) :
    ∃ body ∈ g.bodies left, word ∈ g.language body.visible := by
  cases h with
  | terminal ht _ => simp [hleft] at ht
  | nonterminal hbody hinner hnil =>
      cases hnil
      refine ⟨_, hbody, ?_⟩
      rw [List.append_nil]
      exact hinner

/-- Languages for the symbols that the rules do not lead out of. -/
structure Closed (g : Grammar) (assigned : Nat → Language Nat) : Prop where
  terminal : ∀ {t : Nat}, g.isTerminal t = true → [t] ∈ assigned t
  body : ∀ {left : Nat} {body : Body}, body ∈ g.bodies left →
    (body.visible.map assigned).prod ≤ assigned left

/-- What a string yields is in all languages that the rules do not lead out of. -/
theorem Closed.language_le {assigned : Nat → Language Nat} (h : g.Closed assigned)
    (symbols : List Nat) : g.language symbols ≤ (symbols.map assigned).prod := by
  intro word hword
  induction hword with
  | nil => exact Language.nil_mem_one
  | terminal ht _ ih => exact Language.append_mem_mul (h.terminal ht) ih
  | nonterminal hbody _ _ ihinner ihrest =>
      exact Language.append_mem_mul (h.body hbody ihinner) ihrest

theorem terminal_mem_language {t : Nat} (ht : g.isTerminal t = true) : [t] ∈ g.language [t] :=
  Yields.terminal ht .nil

def choices (g : Grammar) (bodies : List Body) : Language Nat :=
  {word | ∃ body ∈ bodies, word ∈ g.language body.visible}

theorem language_le_choices {bodies : List Body} {body : Body} (h : body ∈ bodies) :
    g.language body.visible ≤ g.choices bodies :=
  fun _ hword => ⟨body, h, hword⟩

theorem choices_nil : g.choices [] = 0 := by
  ext word
  constructor
  · rintro ⟨body, hbody, -⟩
    cases hbody
  · intro h
    exact absurd h (Language.notMem_zero word)

theorem mul_choices_le {bodies : List Body} {front bound : Language Nat}
    (h : ∀ body ∈ bodies, front * g.language body.visible ≤ bound) :
    front * g.choices bodies ≤ bound := by
  rintro _ ⟨x, hx, y, ⟨body, hbody, hy⟩, rfl⟩
  exact h body hbody (Language.append_mem_mul hx hy)

theorem choices_mul_le {bodies : List Body} {rest bound : Language Nat}
    (h : ∀ body ∈ bodies, g.language body.visible * rest ≤ bound) :
    g.choices bodies * rest ≤ bound := by
  rintro _ ⟨x, ⟨body, hbody, hx⟩, y, hy, rfl⟩
  exact h body hbody (Language.append_mem_mul hx hy)

/-! One step. -/

section Step

variable {other : Grammar} {earlier : List Nat} {left : Nonterminal}

def tails (g : Grammar) (earlier : List Nat) (left : Nat) : List Body :=
  recursiveTails left (g.expanded earlier left)

/-- Languages for the symbols after a step: those of `other`, and for the helper whatever repetitions
of the tails yield. -/
def repeating (g other : Grammar) (earlier : List Nat) (left : Nat) : Nat → Language Nat :=
  Function.update (fun s => other.language [s]) g.size (other.choices (g.tails earlier left))∗

theorem repeating_of_ne {s : Nat} (hs : s ≠ g.size) :
    g.repeating other earlier left.index s = other.language [s] :=
  Function.update_of_ne hs _ _

/-- On strings of old symbols the assigned languages are those of `other`. -/
theorem prod_repeating {u : List Nat} (hu : ∀ s ∈ u, s < g.size) :
    (u.map (g.repeating other earlier left.index)).prod = other.language u := by
  rw [← prod_language, List.map_congr_left fun s hs => repeating_of_ne (hu s hs).ne]

theorem prod_repeating_helper :
    ((g.helper earlier left.index).map (g.repeating other earlier left.index)).prod =
      (other.choices (g.tails earlier left.index))∗ := by
  unfold helper
  split
  · next htails =>
      rw [tails, htails, choices_nil, kstar_zero]
      rfl
  · simp [repeating]

theorem language_cons_visible (hleft : g.isNonterminal left.index = true) (tail : Body) :
    other.language (Body.visible (left.index :: tail)) =
      other.language [left.index] * other.language tail.visible := by
  rw [Body.visible_cons (isNonterminal_iff.mp hleft).1, ← language_cons]

theorem isTerminal_removeRecursionOf {i : Nat} (hi : g.isNonterminal i = true) :
    (g.removeRecursionOf earlier left).1.isTerminal i = false := by
  rw [(extends_removeRecursionOf earlier left).isTerminal_eq, Bool.eq_false_iff]
  intro ht
  rw [not_isNonterminal_of_isTerminal ht] at hi
  cases hi

theorem Covers.lt_size_of_mem_visible {body : Body} (hbody : g.Covers body) :
    ∀ s ∈ body.visible, s < g.size := by
  intro s hs
  obtain ⟨hmem, hne⟩ := Body.mem_visible.mp hs
  exact (hbody s hmem hne).2

variable (hg : g.WellFormed)

include hg

theorem visible_helper : Body.visible (g.helper earlier left.index) =
    g.helper earlier left.index := by
  apply Body.visible_of_not_mem
  intro hmem
  exact hg.size_ne_epsilon (mem_helper hmem).symm

/-- Putting alternatives in adds nothing to the language of the nonterminal at hand. -/
theorem language_expanded_le {body : Body} (hbody : body ∈ g.expanded earlier left.index) :
    g.language body.visible ≤ g.language [left.index] := by
  rcases mem_expandFirst.mp hbody with ⟨hbody, -⟩ | ⟨first, rest, inner, houter, -, hinner, rfl⟩
  · exact language_body_le hbody
  · have hne : first ≠ epsilon := (isNonterminal_iff.mp (hg.isNonterminal_of_mem_bodies hinner)).1
    calc g.language (Body.visible (splice inner rest))
        = g.language inner.visible * g.language (Body.visible rest) := by
          rw [splice, Body.visible_visible, Body.visible_append, language_append]
      _ ≤ g.language [first] * g.language (Body.visible rest) := by
          gcongr
          exact language_body_le hinner
      _ = g.language (Body.visible (first :: rest)) := by
          rw [Body.visible_cons hne, ← language_cons]
      _ ≤ g.language [left.index] := language_body_le houter

variable (hleft : g.isNonterminal left.index = true)

include hleft

/-- The rules of the helper do not lead out of the repetitions of the tails. -/
theorem prod_repeating_size_le {body : Body}
    (hbody : body ∈ (g.removeRecursionOf earlier left).1.bodies g.size) :
    (body.visible.map (g.repeating other earlier left.index)).prod ≤
      g.repeating other earlier left.index g.size := by
  rw [bodies_removeRecursionOf_size (lt_size_of_isNonterminal hleft)] at hbody
  split at hbody
  · cases hbody
  have hself : g.repeating other earlier left.index g.size =
      (other.choices (g.tails earlier left.index))∗ := Function.update_self _ _ _
  obtain ⟨source, hsource, rfl⟩ := List.mem_map.mp hbody
  rw [Body.visible_normalize, hself]
  rcases List.mem_append.mp hsource with hsource | hsource
  · obtain ⟨tail, htail, rfl⟩ := List.mem_map.mp hsource
    have hlt := (hg.covers_recursiveTails htail).lt_size_of_mem_visible
    have hsize : Body.visible [g.size] = [g.size] := Body.visible_cons hg.size_ne_epsilon []
    rw [Body.visible_append, hsize, List.map_append, List.prod_append, prod_repeating hlt,
      List.map_singleton, List.prod_singleton, hself]
    calc other.language (Body.visible tail) * (other.choices (g.tails earlier left.index))∗
        ≤ other.choices (g.tails earlier left.index) *
            (other.choices (g.tails earlier left.index))∗ := by
          gcongr
          exact language_le_choices htail
      _ ≤ (other.choices (g.tails earlier left.index))∗ := mul_kstar_le_kstar
  · obtain rfl := List.mem_singleton.mp hsource
    exact one_le_kstar

/-- The rules after a step keep to given languages, with repetitions of the tails for the helper, if
the alternatives that the step keeps do so in front of such repetitions. -/
theorem closed_repeating (hterminal : ∀ t, other.isTerminal t = g.isTerminal t)
    (hothers : ∀ i ≠ left.index, ∀ body ∈ g.bodies i,
      other.language body.visible ≤ other.language [i])
    (hkept : ∀ body ∈ nonRecursive left.index (g.expanded earlier left.index),
      other.language body.visible * (other.choices (g.tails earlier left.index))∗ ≤
        other.language [left.index]) :
    (g.removeRecursionOf earlier left).1.Closed (g.repeating other earlier left.index) where
  terminal {t} ht := by
    rw [(extends_removeRecursionOf earlier left).isTerminal_eq] at ht
    rw [repeating_of_ne (lt_size_of_isTerminal ht).ne]
    exact terminal_mem_language ((hterminal t).trans ht)
  body {i body} hbody := by
    by_cases hi : i = left.index
    · subst hi
      rw [bodies_removeRecursionOf hleft] at hbody
      obtain ⟨inner, hinner, rfl⟩ := List.mem_map.mp hbody
      have hlt := (hg.covers_expanded (mem_nonRecursive.mp hinner).1).lt_size_of_mem_visible
      rw [Body.visible_normalize, Body.visible_append, Body.visible_visible, visible_helper hg,
        List.map_append, List.prod_append, prod_repeating hlt, prod_repeating_helper,
        repeating_of_ne (lt_size_of_isNonterminal hleft).ne]
      exact hkept inner hinner
    by_cases hsize : i = g.size
    · subst hsize
      exact prod_repeating_size_le hg hleft hbody
    · rw [bodies_removeRecursionOf_of_ne hi hsize] at hbody
      rw [prod_repeating (hg.fits hbody).covers.lt_size_of_mem_visible, repeating_of_ne hsize]
      exact hothers i hi body hbody

/-- What the step makes derives no more than before. -/
theorem language_removeRecursionOf_le {u : List Nat} (hu : ∀ s ∈ u, s < g.size) :
    (g.removeRecursionOf earlier left).1.language u ≤ g.language u := by
  have hclosed : (g.removeRecursionOf earlier left).1.Closed
      (g.repeating g earlier left.index) := by
    apply closed_repeating hg hleft (fun _ => rfl) (fun _ _ _ hbody => language_body_le hbody)
    intro body hbody
    apply mul_kstar_le
    · exact language_expanded_le hg (mem_nonRecursive.mp hbody).1
    · apply mul_choices_le
      intro tail htail
      rw [← language_cons_visible hleft]
      exact language_expanded_le hg (mem_recursiveTails.mp htail).1
  have hle := hclosed.language_le u
  rwa [prod_repeating hu] at hle

/-- An alternative that the step keeps, with the helper behind it. -/
theorem language_kept_le {body : Body}
    (hbody : body ∈ nonRecursive left.index (g.expanded earlier left.index)) :
    (g.removeRecursionOf earlier left).1.language body.visible *
        (g.removeRecursionOf earlier left).1.language (g.helper earlier left.index) ≤
      (g.removeRecursionOf earlier left).1.language [left.index] := by
  have hmem : Body.normalize (body.visible ++ g.helper earlier left.index) ∈
      (g.removeRecursionOf earlier left).1.bodies left.index := by
    rw [bodies_removeRecursionOf hleft]
    exact List.mem_map_of_mem hbody
  have hle := language_body_le hmem
  rwa [Body.visible_normalize, Body.visible_append, Body.visible_visible, visible_helper hg,
    language_append] at hle

/-- The helper derives the repetitions of the tails. -/
theorem language_helper :
    (g.removeRecursionOf earlier left).1.language (g.helper earlier left.index) =
      ((g.removeRecursionOf earlier left).1.choices (g.tails earlier left.index))∗ := by
  have hge : ((g.removeRecursionOf earlier left).1.choices (g.tails earlier left.index))∗ ≤
      (g.removeRecursionOf earlier left).1.language (g.helper earlier left.index) := by
    unfold helper
    split
    · next htails => rw [tails, htails, choices_nil, kstar_zero, language_nil]
    next htails =>
    have hbodies : (g.removeRecursionOf earlier left).1.bodies g.size =
        ((g.tails earlier left.index).map (· ++ [g.size]) ++ [[epsilon]]).map Body.normalize := by
      rw [bodies_removeRecursionOf_size (lt_size_of_isNonterminal hleft), if_neg htails, tails]
    apply kstar_le_of_mul_le_right
    · have hempty : Body.normalize [epsilon] ∈
          (g.removeRecursionOf earlier left).1.bodies g.size := by
        rw [hbodies]
        exact List.mem_map_of_mem (by simp)
      simpa using language_body_le hempty
    · apply choices_mul_le
      intro tail htail
      have hmem : Body.normalize (tail ++ [g.size]) ∈
          (g.removeRecursionOf earlier left).1.bodies g.size := by
        rw [hbodies]
        exact List.mem_map_of_mem (List.mem_append_left _ (List.mem_map_of_mem htail))
      have hle := language_body_le hmem
      rwa [Body.visible_normalize, Body.visible_append, Body.visible_cons hg.size_ne_epsilon,
        language_append] at hle
  apply le_antisymm _ hge
  -- with the star in place of the helper's own language the rules still keep to their languages
  have hclosed : (g.removeRecursionOf earlier left).1.Closed
      (g.repeating (g.removeRecursionOf earlier left).1 earlier left.index) := by
    apply closed_repeating hg hleft
    · exact (extends_removeRecursionOf earlier left).isTerminal_eq
    · intro i hi body hbody
      have hlt : i < g.size := lt_size_of_isNonterminal (hg.isNonterminal_of_mem_bodies hbody)
      rw [← bodies_removeRecursionOf_of_ne hi hlt.ne] at hbody
      exact language_body_le hbody
    · intro body hbody
      grw [hge]
      exact language_kept_le hg hleft hbody
  rw [← prod_repeating_helper]
  exact hclosed.language_le _

/-- The nonterminal at hand derives an alternative that is kept and repetitions of the tails. -/
theorem language_left :
    (g.removeRecursionOf earlier left).1.language [left.index] =
      (g.removeRecursionOf earlier left).1.choices
          (nonRecursive left.index (g.expanded earlier left.index)) *
        ((g.removeRecursionOf earlier left).1.choices (g.tails earlier left.index))∗ := by
  rw [← language_helper hg hleft]
  apply le_antisymm
  · intro word hword
    obtain ⟨body, hbody, hword⟩ :=
      exists_body_of_mem_language (isTerminal_removeRecursionOf hleft) hword
    rw [bodies_removeRecursionOf hleft] at hbody
    obtain ⟨inner, hinner, rfl⟩ := List.mem_map.mp hbody
    rw [Body.visible_normalize, Body.visible_append, Body.visible_visible, visible_helper hg]
      at hword
    obtain ⟨x, y, rfl, hx, hy⟩ := Yields.split hword
    exact Language.append_mem_mul ⟨inner, hinner, hx⟩ hy
  · exact choices_mul_le fun body hbody => language_kept_le hg hleft hbody

/-- What an alternative yields, with others put in, the nonterminal at hand still yields. -/
theorem language_expanded_le_removed {body : Body}
    (hbody : body ∈ g.expanded earlier left.index) :
    (g.removeRecursionOf earlier left).1.language body.visible ≤
      (g.removeRecursionOf earlier left).1.language [left.index] := by
  by_cases hhead : body.head? = some left.index
  · obtain ⟨tail, rfl⟩ : ∃ tail, body = left.index :: tail :=
      ⟨body.tail, (List.cons_head?_tail hhead).symm⟩
    rw [language_cons_visible hleft]
    by_cases htail : tail = []
    · simp [htail, Body.visible]
    · have hmem : tail ∈ g.tails earlier left.index := mem_recursiveTails.mpr ⟨hbody, htail⟩
      grw [language_le_choices hmem]
      rw [language_left hg hleft, mul_assoc]
      gcongr
      exact kstar_mul_le_kstar
  · rw [language_left hg hleft]
    grw [language_le_choices (mem_nonRecursive.mpr ⟨hbody, hhead⟩)]
    exact le_mul_of_one_le_right' one_le_kstar

variable (hearlier : ∀ i ∈ earlier, g.isNonterminal i = true) (hnew : left.index ∉ earlier)

include hearlier hnew

/-- What an alternative yields, the nonterminal at hand still yields. An earlier nonterminal that
stands first keeps its alternatives, and one of them was put in its place. -/
theorem language_body_le_removed {body : Body} (hbody : body ∈ g.bodies left.index) :
    (g.removeRecursionOf earlier left).1.language body.visible ≤
      (g.removeRecursionOf earlier left).1.language [left.index] := by
  by_cases hfirst : ∀ first ∈ body.head?, first ∉ earlier
  · exact language_expanded_le_removed hg hleft (mem_expandFirst.mpr (.inl ⟨hbody, hfirst⟩))
  push Not at hfirst
  obtain ⟨first, hhead, hmem⟩ := hfirst
  obtain ⟨rest, rfl⟩ : ∃ rest, body = first :: rest :=
    ⟨body.tail, (List.cons_head?_tail hhead).symm⟩
  have hnon := hearlier first hmem
  have hne : first ≠ left.index := fun h => hnew (h ▸ hmem)
  rw [Body.visible_cons (isNonterminal_iff.mp hnon).1, language_cons]
  rintro _ ⟨x, hx, y, hy, rfl⟩
  obtain ⟨inner, hinner, hx⟩ := exists_body_of_mem_language (isTerminal_removeRecursionOf hnon) hx
  rw [bodies_removeRecursionOf_of_ne hne (lt_size_of_isNonterminal hnon).ne] at hinner
  have hspliced : splice inner rest ∈ g.expanded earlier left.index :=
    mem_expandFirst.mpr (.inr ⟨first, rest, inner, hbody, hmem, hinner, rfl⟩)
  apply language_expanded_le_removed hg hleft hspliced
  rw [splice, Body.visible_visible, Body.visible_append, language_append]
  exact Language.append_mem_mul hx hy

/-- What the step makes derives no less than before. -/
theorem language_le_removeRecursionOf (u : List Nat) :
    g.language u ≤ (g.removeRecursionOf earlier left).1.language u := by
  have hclosed : g.Closed fun s => (g.removeRecursionOf earlier left).1.language [s] := by
    constructor
    · intro t ht
      exact terminal_mem_language
        (((extends_removeRecursionOf earlier left).isTerminal_eq t).trans ht)
    · intro i body hbody
      rw [prod_language]
      by_cases hi : i = left.index
      · subst hi
        exact language_body_le_removed hg hleft hearlier hnew hbody
      · have hlt := lt_size_of_isNonterminal (hg.isNonterminal_of_mem_bodies hbody)
        rw [← bodies_removeRecursionOf_of_ne hi hlt.ne] at hbody
        exact language_body_le hbody
  have hle := hclosed.language_le u
  rwa [prod_language] at hle

/-- A step keeps the language of every string. -/
theorem language_removeRecursionOf {u : List Nat} (hu : ∀ s ∈ u, s < g.size) :
    (g.removeRecursionOf earlier left).1.language u = g.language u :=
  le_antisymm (language_removeRecursionOf_le hg hleft hu)
    (language_le_removeRecursionOf hg hleft hearlier hnew u)

end Step

/-! All steps. -/

/-- One nonterminal after the other, the removal keeps the words of every string of old symbols. -/
theorem language_removeRecursionFrom (hg : g.WellFormed) {earlier : List Nat}
    {lefts : List Nonterminal} (hearlier : ∀ i ∈ earlier, g.isNonterminal i = true)
    (hlefts : ∀ n ∈ lefts, g.isNonterminal n.index = true ∧ n.index ∉ earlier)
    (hpairwise : lefts.Pairwise fun m n => m.index < n.index) {u : List Nat}
    (hu : ∀ s ∈ u, s < g.size) :
    (g.removeRecursionFrom earlier lefts).1.language u = g.language u := by
  induction lefts generalizing g earlier with
  | nil => rfl
  | cons left lefts ih =>
      obtain ⟨hleft, hnew⟩ := hlefts left (by simp)
      obtain ⟨hlater, hpairwise⟩ := List.pairwise_cons.mp hpairwise
      have hext : g.Extends (g.removeRecursionOf earlier left).1 :=
        extends_removeRecursionOf earlier left
      have hkeeps {i : Nat} (hi : g.isNonterminal i = true) :
          (g.removeRecursionOf earlier left).1.isNonterminal i = true := by
        rw [hext.isNonterminal_eq i (lt_size_of_isNonterminal hi), hi]
      rw [removeRecursionFrom_cons, ih (hg.removeRecursionOf earlier left),
        language_removeRecursionOf hg hleft hearlier hnew hu]
      · intro i hi
        rcases List.mem_append.mp hi with hi | hi
        · exact hkeeps (hearlier i hi)
        · rw [List.mem_singleton.mp hi]
          exact hkeeps hleft
      · intro n hn
        obtain ⟨hnon, hfresh⟩ := hlefts n (by simp [hn])
        refine ⟨hkeeps hnon, fun hmem => ?_⟩
        rcases List.mem_append.mp hmem with hmem | hmem
        · exact hfresh hmem
        · exact (hlater n hn).ne' (List.mem_singleton.mp hmem)
      · exact hpairwise
      · intro s hs
        exact (hu s hs).trans_le hext.size_le

theorem language_withoutLeftRecursion (hg : g.WellFormed) {u : List Nat}
    (hu : ∀ s ∈ u, s < g.size) : g.withoutLeftRecursion.language u = g.language u := by
  apply language_removeRecursionFrom hg (by simp) _ hg.pairwise_nonterminals hu
  intro n hn
  exact ⟨hg.isNonterminal_index hn, by simp⟩

theorem spells_withoutLeftRecursion {tokens : List String} {word : List Nat} :
    g.withoutLeftRecursion.Spells tokens word ↔ g.Spells tokens word := by
  have hext : g.Extends g.withoutLeftRecursion := extends_withoutLeftRecursion
  have hsame {t : Nat} (ht : g.isTerminal t = true) :
      g.withoutLeftRecursion.name? t = g.name? t :=
    hext.name?_eq t (lt_size_of_isTerminal ht)
  constructor
  · intro h
    refine List.Forall₂.imp (fun token t ⟨hname, hterm, hne⟩ => ?_) h
    rw [hext.isTerminal_eq] at hterm
    exact ⟨(hsame hterm).symm.trans hname, hterm, hne⟩
  · intro h
    refine List.Forall₂.imp (fun token t ⟨hname, hterm, hne⟩ => ?_) h
    exact ⟨(hsame hterm).trans hname, (hext.isTerminal_eq t).trans hterm, hne⟩

/-- Removing left recursion keeps the words that a nonterminal derives, and so the sentences. -/
theorem derives_withoutLeftRecursion_iff (hg : g.Readable) :
    (∀ left word, g.isNonterminal left = true → (∀ t ∈ word, g.isTerminal t = true) →
      (g.Derives [left] word ↔ g.withoutLeftRecursion.Derives [left] word)) ∧
    g.withoutLeftRecursion.start = g.start ∧
    ∀ tokens, g.IsSentence tokens ↔ g.withoutLeftRecursion.IsSentence tokens := by
  have hext : g.Extends g.withoutLeftRecursion := extends_withoutLeftRecursion
  have hyields {left : Nat} (hleft : g.isNonterminal left = true) (word : List Nat) :
      g.withoutLeftRecursion.Yields [left] word ↔ g.Yields [left] word := by
    rw [← mem_language, language_withoutLeftRecursion hg.wellFormed, mem_language]
    intro s hs
    rw [List.mem_singleton.mp hs]
    exact lt_size_of_isNonterminal hleft
  have hstart : g.withoutLeftRecursion.start = g.start :=
    hext.start_eq (isNonterminal_iff.mp hg.isNonterminal_start).1
  refine ⟨fun left word hleft hword => ?_, hstart, fun tokens => ?_⟩
  · have hword' : ∀ t ∈ word, g.withoutLeftRecursion.isTerminal t = true := by
      intro t ht
      rw [hext.isTerminal_eq, hword t ht]
    have hsame := hyields hleft word
    rw [yields_iff, yields_iff] at hsame
    exact ⟨fun h => (hsame.mpr ⟨h, hword⟩).1, fun h => (hsame.mp ⟨h, hword'⟩).1⟩
  · rw [isSentence_iff, isSentence_iff, hstart]
    simp only [spells_withoutLeftRecursion, hyields hg.isNonterminal_start]

theorem keeps_words_behind_recursion :
    ∃ g, Grammar.read .spaced "S -> T a | S | b\nT -> S A | T c\nA -> ϵ | a\nU -> U a" = .ok g ∧
      g.isNonterminal 3 = true ∧ g.isTerminal 7 = true ∧
      g.withoutLeftRecursion.Derives [3] [7] ∧ g.withoutLeftRecursion.IsSentence ["b", "a"] := by
  have hread : ((Grammar.read .spaced
      "S -> T a | S | b\nT -> S A | T c\nA -> ϵ | a\nU -> U a").toOption.map fun g =>
        decide (g.start = 2 ∧ g.isNonterminal 3 = true ∧ [3, 6] ∈ g.bodies 2 ∧ [7] ∈ g.bodies 2 ∧
          [2, 4] ∈ g.bodies 3 ∧ [0] ∈ g.bodies 4 ∧ g.isTerminal 6 = true ∧
          g.isTerminal 7 = true ∧ g.name? 6 = some "a" ∧ g.name? 7 = some "b")) = some true := by
    decide +kernel
  simp only [Option.map_eq_some_iff, toOption_eq_some, decide_eq_true_eq] at hread
  obtain ⟨g, hg, hstart, hnon, houter, hlast, hinner, hempty, ha, hb, hnamea, hnameb⟩ := hread
  have hfour : g.Yields [4] [] := language_body_le hempty .nil
  have htwo : g.Yields [2] [7] := language_body_le hlast (.terminal hb .nil)
  have hthree : g.Yields [3] [7] := language_body_le hinner (htwo.append hfour)
  have hword : g.Yields [2] [7, 6] :=
    language_body_le houter (hthree.append (.terminal ha .nil))
  have hspells : g.Spells ["b", "a"] [7, 6] :=
    .cons ⟨hnameb, hb, by decide⟩ (.cons ⟨hnamea, ha, by decide⟩ .nil)
  obtain ⟨hwords, -, hsentences⟩ := derives_withoutLeftRecursion_iff (.read hg)
  refine ⟨g, hg, hnon, hb, ?_, ?_⟩
  · exact (hwords 3 [7] hnon (by simpa using hb)).mp hthree.derives
  · exact (hsentences ["b", "a"]).mp ⟨[7, 6], hspells, hstart ▸ hword.derives⟩

end Grammar
end Lookahead
