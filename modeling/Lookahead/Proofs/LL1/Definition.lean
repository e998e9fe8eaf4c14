import Lookahead.Proofs.Grammar.Canonical
import Lookahead.Proofs.Grammar.Sentential
import Lookahead.Proofs.LL1.Classification
import Lookahead.Proofs.Sets.Follows

/-!
What it means for a grammar to be LL(1), and that the conflicts decide it. The definition looks at one
place of one leftmost derivation at a time, the sets at all places of a nonterminal together. Without
conflicts no place is missed. In a grammar without useless nonterminals every entry of a set stems
from some place, and can be completed there to words that refute the definition.
-/

namespace Lookahead

namespace Grammar

variable {g : Grammar}

/-- A leftmost derivation comes to the symbol, with `after` to its right. -/
def ComesUp (g : Grammar) (s : Nat) (after : List Nat) : Prop :=
  ∃ rewrites word, g.Leftmost rewrites [g.start] (word ++ s :: after) ∧
    ∀ t ∈ word, g.isTerminal t = true

/-- Wherever a nonterminal comes up, the next token tells which alternative to take: two words that
different alternatives lead to do not begin alike, and are not both at their end. -/
def IsLL1 (g : Grammar) : Prop :=
  ∀ left after, g.ComesUp left after →
    ∀ (i j : Nat) body body', (g.bodies left)[i]? = some body → (g.bodies left)[j]? = some body' →
      i ≠ j → ∀ x y, g.Yields (body.visible ++ after) x → g.Yields (body'.visible ++ after) y →
        x.head? ≠ y.head?

/-! The definition rules out two leftmost derivations of a word. -/

/-- The leftmost nonterminal of a string stands at one place only. -/
theorem leftmost_place_unique {front front' rest rest' : List Nat} {s s' : Nat}
    (hfront : ∀ t ∈ front, g.isTerminal t = true) (hfront' : ∀ t ∈ front', g.isTerminal t = true)
    (hs : g.isTerminal s = false) (hs' : g.isTerminal s' = false)
    (h : front ++ s :: rest = front' ++ s' :: rest') :
    front = front' ∧ s = s' ∧ rest = rest' := by
  induction front generalizing front' with
  | nil =>
      cases front' with
      | nil => simpa using h
      | cons t front' =>
          obtain ⟨rfl, -⟩ := List.cons.inj h
          simp [hfront' s (by simp)] at hs
  | cons t front ih =>
      cases front' with
      | nil =>
          obtain ⟨rfl, -⟩ := List.cons.inj h
          simp [hfront t (by simp)] at hs'
      | cons t' front' =>
          obtain ⟨rfl, hrest⟩ := List.cons.inj h
          obtain ⟨rfl, hsame⟩ := ih (fun r hr => hfront r (by simp [hr]))
            (fun r hr => hfront' r (by simp [hr])) hrest
          exact ⟨rfl, hsame⟩

theorem not_leftmostStep_of_word {word after : List Nat} {r : Rewrite}
    (hword : ∀ t ∈ word, g.isTerminal t = true) : ¬ g.LeftmostStep r word after := by
  rintro ⟨body, front, rest, hbody, -, rfl, -⟩
  have hterm := hword r.left (by simp)
  simp [isTerminal_eq_false_of_bodies hbody] at hterm

/-- A step of a leftmost derivation that goes on to a given word is the only one. -/
theorem IsLL1.step_unique (h : g.IsLL1) {before l l' : List Rewrite} {r r' : Rewrite}
    {u v v' word : List Nat} (hbefore : g.Leftmost before [g.start] u)
    (hword : ∀ t ∈ word, g.isTerminal t = true) (hstep : g.LeftmostStep r u v)
    (hrest : g.Leftmost l v word) (hstep' : g.LeftmostStep r' u v')
    (hrest' : g.Leftmost l' v' word) : r = r' ∧ v = v' := by
  obtain ⟨left, i⟩ := r
  obtain ⟨left', j⟩ := r'
  obtain ⟨body, front, rest, hi, hfront, rfl, rfl⟩ := hstep
  obtain ⟨body', front', rest', hj, hfront', hplace, rfl⟩ := hstep'
  obtain ⟨rfl, rfl, rfl⟩ := leftmost_place_unique hfront hfront'
    (isTerminal_eq_false_of_bodies hi) (isTerminal_eq_false_of_bodies hj) hplace
  rw [List.append_assoc] at hrest hrest'
  obtain ⟨_, hunfolds⟩ := hrest.exists_unfolds hword
  obtain ⟨x, rfl, hx⟩ := hunfolds.exists_of_terminals hfront
  obtain ⟨_, hunfolds'⟩ := hrest'.exists_unfolds hword
  obtain ⟨y, hy, hunfolds'⟩ := hunfolds'.exists_of_terminals hfront
  obtain rfl : x = y := List.append_cancel_left hy
  have hij : i = j := by
    by_contra hne
    exact h left rest ⟨before, front, hbefore, hfront⟩ i j body body' hi hj hne x x
      hx.yields hunfolds'.yields rfl
  subst hij
  obtain rfl := Option.some.inj (hi.symm.trans hj)
  exact ⟨rfl, rfl⟩

theorem IsLL1.unambiguous (h : g.IsLL1) : g.Unambiguous := by
  intro word hword l l' hl hl'
  suffices ∀ u before, g.Leftmost before [g.start] u → g.Leftmost l u word →
      g.Leftmost l' u word → l = l' from this [g.start] [] .nil hl hl'
  clear hl hl'
  induction l generalizing l' with
  | nil =>
      intro u before _ hl hl'
      cases hl
      cases hl' with
      | nil => rfl
      | cons hstep _ => exact absurd hstep (not_leftmostStep_of_word hword)
  | cons r l ih =>
      intro u before hbefore hl hl'
      cases hl with
      | cons hstep hrest =>
          cases hl' with
          | nil => exact absurd hstep (not_leftmostStep_of_word hword)
          | @cons r' l' _ _ _ hstep' hrest' =>
              obtain ⟨rfl, rfl⟩ := h.step_unique hbefore hword hstep hrest hstep' hrest'
              rw [ih l' _ _ (Applies.snoc_iff.mpr ⟨u, hbefore, hstep⟩) hrest hrest']

/-! Where every nonterminal derives a word, what the sets say can be carried out. -/

section Productive

variable (hg : g.WellFormed) (hproductive : ∀ s, g.isNonterminal s = true → g.Productive s)

include hg hproductive

/-- A string of productive symbols yields a word that begins in any way the string can. -/
theorem Begins.exists_yields {symbols : List Nat} {o : Option Nat} (h : g.Begins symbols o)
    (hsymbols : ∀ s ∈ symbols, endMark < s ∧ s < g.size) :
    ∃ word, g.Yields symbols word ∧ word.head? = o := by
  induction h with
  | nil => exact ⟨[], .nil, rfl⟩
  | @terminal t rest ht =>
      have hrest : ∀ s ∈ rest, endMark < s ∧ s < g.size := fun s hs => hsymbols s (by simp [hs])
      obtain ⟨word, hword⟩ := exists_yields_of_lt hproductive hrest
      exact ⟨t :: word, .terminal ht hword, rfl⟩
  | @inside left t body rest hbody _ ih =>
      have hrest : ∀ s ∈ rest, endMark < s ∧ s < g.size := fun s hs => hsymbols s (by simp [hs])
      obtain ⟨first, hfirst, hhead⟩ := ih (hg.fits hbody).visible
      obtain ⟨second, hsecond⟩ := exists_yields_of_lt hproductive hrest
      exact ⟨first ++ second, .nonterminal hbody hfirst hsecond, by simp [hhead]⟩
  | behind hbody _ _ ihinner ihrest =>
      obtain ⟨first, hfirst, hnone⟩ := ihinner (hg.fits hbody).visible
      obtain ⟨second, hsecond, hhead⟩ := ihrest fun s hs => hsymbols s (by simp [hs])
      obtain rfl := List.head?_eq_none_iff.mp hnone
      exact ⟨second, .nonterminal hbody hfirst hsecond, hhead⟩

/-- A symbol of an alternative comes up after the left side does, once what stands before it in the
alternative has become a word. -/
theorem ComesUp.of_body {left s : Nat} {after u v : List Nat} {body : Body}
    (h : g.ComesUp left after) (hbody : body ∈ g.bodies left)
    (hsplit : body.visible = u ++ s :: v) : g.ComesUp s (v ++ after) := by
  obtain ⟨rewrites, word, hleft, hword⟩ := h
  have hu : ∀ r ∈ u, endMark < r ∧ r < g.size := fun r hr =>
    (hg.fits hbody).visible r (by simp [hsplit, hr])
  obtain ⟨first, hfirst⟩ := exists_yields_of_lt hproductive hu
  obtain ⟨l, _, hunfolds⟩ := hfirst.exists_unfolds
  obtain ⟨production, hproduction⟩ := List.mem_iff_getElem?.mp hbody
  have hstep : g.LeftmostStep ⟨left, production⟩ (word ++ left :: after)
      (word ++ u ++ s :: (v ++ after)) :=
    ⟨body, word, after, hproduction, hword, rfl, by simp [hsplit]⟩
  have hfront : g.Leftmost l (word ++ u ++ s :: (v ++ after))
      (word ++ first ++ s :: (v ++ after)) :=
    hunfolds.leftmost.context word _ hword
  refine ⟨_, word ++ first, hleft.append (.cons hstep hfront), ?_⟩
  intro t ht
  exact (List.mem_append.mp ht).elim (hword t) (hunfolds.isTerminal_of_mem t)

theorem ComesUp.exists_yields (hstart : g.isNonterminal g.start = true) {s : Nat}
    {after : List Nat} (h : g.ComesUp s after) : ∃ word, g.Yields after word := by
  obtain ⟨_, word, hleft, -⟩ := h
  apply exists_yields_of_lt hproductive
  intro r hr
  exact hg.mem_of_derives hstart hleft.derives r (by simp [hr])

/-- Every symbol of a derived string comes up in a leftmost derivation. -/
theorem exists_comesUp_of_derives {symbols : List Nat} (h : g.Derives [g.start] symbols) :
    ∀ s ∈ symbols, ∃ after, g.ComesUp s after := by
  induction h with
  | refl =>
      intro s hs
      obtain rfl := List.mem_singleton.mp hs
      exact ⟨[], [], [], .nil, by simp⟩
  | tail _ hstep ih =>
      obtain ⟨left, body, front, rest, hbody, rfl, rfl⟩ := hstep
      intro s hs
      simp only [List.mem_append] at hs
      rcases hs with (hs | hs) | hs
      · exact ih s (by simp [hs])
      · obtain ⟨u, v, hsplit⟩ := List.append_of_mem hs
        obtain ⟨after, hleft⟩ := ih left (by simp)
        exact ⟨v ++ after, hleft.of_body hg hproductive hbody hsplit⟩
      · exact ih s (by simp [hs])

end Productive

section Reduced

variable (h : g.Reduced) (hg : g.WellFormed)

include h hg

theorem Reduced.exists_comesUp {s : Nat} (hs : g.isNonterminal s = true) :
    ∃ after, g.ComesUp s after := by
  obtain ⟨front, rest, hder⟩ := (h s hs).1
  exact exists_comesUp_of_derives hg h.productive hder s (by simp)

/-- A terminal that can follow a nonterminal does so in some leftmost derivation. -/
theorem Reduced.exists_following (hstart : g.isNonterminal g.start = true) {s t : Nat}
    (hfollows : g.Follows s t) :
    ∃ after word, g.ComesUp s after ∧ g.Yields after word ∧
      (word ++ [endMark]).head? = some t := by
  have hproductive := h.productive
  induction hfollows with
  | start => exact ⟨[], [], ⟨[], [], .nil, by simp⟩, .nil, rfl⟩
  | within hbody hsplit _ hbegins =>
      obtain ⟨after, hleft⟩ := h.exists_comesUp hg (hg.isNonterminal_of_mem_bodies hbody)
      obtain ⟨second, hsecond⟩ := hleft.exists_yields hg hproductive hstart
      obtain ⟨first, hfirst, hhead⟩ := hbegins.exists_yields hg hproductive fun r hr =>
        (hg.fits hbody).visible r (by simp [hsplit, hr])
      exact ⟨_, first ++ second, hleft.of_body hg hproductive hbody hsplit,
        hfirst.append hsecond, by simp [hhead]⟩
  | behind hbody hsplit _ hvanishes _ ih =>
      obtain ⟨after, word, hleft, hword, hhead⟩ := ih
      obtain ⟨first, hfirst, hnone⟩ := hvanishes.exists_yields hg hproductive fun r hr =>
        (hg.fits hbody).visible r (by simp [hsplit, hr])
      obtain rfl := List.head?_eq_none_iff.mp hnone
      exact ⟨_, [] ++ word, hleft.of_body hg hproductive hbody hsplit, hfirst.append hword, hhead⟩

end Reduced

end Grammar

namespace LL1

open Grammar

variable {g : Grammar}

/-- Where one alternative at most is predicted, the definition holds: each of two words that begin
alike predicts the alternative it is derived by. -/
theorem PredictsOne.isLL1 (h : PredictsOne g) (hg : g.WellFormed) : g.IsLL1 := by
  rintro left after ⟨rewrites, word, hleft, -⟩ i j body body' hi hj hne x y hx hy hhead
  have hder : g.Derives [g.start, endMark] (word ++ left :: (after ++ [endMark])) := by
    simpa using hleft.derives.append_right [endMark]
  have hend : g.Yields [endMark] [endMark] := .terminal hg.isTerminal_endMark .nil
  have hpredicts {k t : Nat} {b : Body} {z : List Nat} (hk : (g.bodies left)[k]? = some b)
      (hz : g.Yields (b.visible ++ after) z) (ht : (z ++ [endMark]).head? = some t) :
      Predicts g left t k b := by
    obtain ⟨first, second, rfl, hfirst, hsecond⟩ := hz.split
    exact predicts_of_yields hg hder hk hfirst (hsecond.append hend) (by simpa using ht)
  obtain ⟨t, ht⟩ : ∃ t, (x ++ [endMark]).head? = some t :=
    ⟨_, List.head?_eq_some_head (by simp)⟩
  have ht' : (y ++ [endMark]).head? = some t := by
    rw [List.head?_append, ← hhead, ← List.head?_append, ht]
  exact hne (h.eq hg (hpredicts hi hx ht) (hpredicts hj hy ht'))

/-- Words that begin alike before the end mark begin alike. -/
theorem head?_eq_of_endMark {x y : List Nat} (hx : endMark ∉ x) (hy : endMark ∉ y)
    (h : (x ++ [endMark]).head? = (y ++ [endMark]).head?) : x.head? = y.head? := by
  cases x with
  | nil =>
      cases y with
      | nil => rfl
      | cons s y =>
          obtain rfl : endMark = s := by simpa using h
          exact absurd List.mem_cons_self hy
  | cons s x =>
      cases y with
      | nil =>
          obtain rfl : s = endMark := by simpa using h
          exact absurd List.mem_cons_self hx
      | cons s' y => simpa using h

section Reduced

variable (hg : g.WellFormed) (hstart : g.isNonterminal g.start = true) (hreduced : g.Reduced)

include hg hreduced

/-- A predicted alternative leads to a word that begins with the terminal, at a place where the
terminal can come next if the alternative vanishes. -/
theorem Predicts.exists_yields {left t i : Nat} {body : Body} (h : Predicts g left t i body)
    {after word : List Nat} (hword : g.Yields after word)
    (hnext : t ∈ g.followers left → (word ++ [endMark]).head? = some t) :
    ∃ x, g.Yields (body.visible ++ after) x ∧ (x ++ [endMark]).head? = some t := by
  have hbegins {o : Option Nat} (ho : (g.firstSets.ofSequence body).Has o) :
      ∃ first, g.Yields body.visible first ∧ first.head? = o :=
    ((hg.first_body_iff_begins h.mem).mp ho).exists_yields hg hreduced.productive
      (hg.fits h.mem).visible
  rcases h.2 with hfirst | ⟨hnull, hfollow⟩
  · obtain ⟨first, hyields, hhead⟩ := hbegins hfirst
    exact ⟨first ++ word, hyields.append hword, by simp [hhead]⟩
  · obtain ⟨first, hyields, hnone⟩ := hbegins hnull
    obtain rfl := List.head?_eq_none_iff.mp hnone
    exact ⟨[] ++ word, hyields.append hword, hnext hfollow⟩

include hstart

theorem predictsOne_of_isLL1 (h : g.IsLL1) : PredictsOne g := by
  intro left t hleft _ i j body body' hi hj
  by_contra hne
  -- a place where the terminal comes next, if one of the alternatives vanishes in front of it
  obtain ⟨after, word, hup, hword, hnext⟩ : ∃ after word, g.ComesUp left after ∧
      g.Yields after word ∧ (t ∈ g.followers left → (word ++ [endMark]).head? = some t) := by
    by_cases hfollow : t ∈ g.followers left
    · obtain ⟨after, word, hup, hword, hhead⟩ :=
        hreduced.exists_following hg hstart (hg.mem_followers_iff.mp hfollow)
      exact ⟨after, word, hup, hword, fun _ => hhead⟩
    · obtain ⟨after, hup⟩ := hreduced.exists_comesUp hg hleft
      obtain ⟨word, hword⟩ := hup.exists_yields hg hreduced.productive hstart
      exact ⟨after, word, hup, hword, fun hmem => absurd hmem hfollow⟩
  obtain ⟨x, hx, hxhead⟩ := hi.exists_yields hg hreduced hword hnext
  obtain ⟨y, hy, hyhead⟩ := hj.exists_yields hg hreduced hword hnext
  have hafter : endMark ∉ after := by
    obtain ⟨_, _, hder, -⟩ := hup
    intro hmem
    exact lt_irrefl _ (hg.mem_of_derives hstart hder.derives endMark (by simp [hmem])).1
  have hend {b : Body} {z : List Nat} (hb : b ∈ g.bodies left)
      (hz : g.Yields (b.visible ++ after) z) : endMark ∉ z :=
    not_mem_of_yields hg hz (hg.endMark_not_mem_append hb hafter)
  apply h left after hup i j body body' hi.1 hj.1 hne x y hx hy
  exact head?_eq_of_endMark (hend hi.mem hx) (hend hj.mem hy) (hxhead.trans hyhead.symm)

end Reduced

/-- The conflicts decide the definition, in a grammar without useless nonterminals. -/
theorem conflict_free_iff_isLL1 (hg : g.Readable) (hreduced : g.Reduced) :
    conflicts g g.firstSets (g.followSets g.firstSets) = [] ↔ g.IsLL1 := by
  have hwf := hg.wellFormed
  constructor
  · intro h
    exact (predictsOne_of_conflicts_eq_nil hwf h).isLL1 hwf
  · intro h
    exact conflicts_eq_nil_of_predictsOne hwf
      (predictsOne_of_isLL1 hwf hg.isNonterminal_start hreduced h)

theorem decides_behind_vanishing :
    ∃ g, Grammar.read .spaced "S -> A b\nA -> a A | ϵ" = .ok g ∧ g.Reduced ∧ g.IsLL1 := by
  have hread : ((Grammar.read .spaced "S -> A b\nA -> a A | ϵ").toOption.map fun g =>
      decide (conflicts g g.firstSets (g.followSets g.firstSets) = [] ∧
        (List.range g.size).filter g.isNonterminal = [2, 3] ∧ g.start = 2 ∧
        [3, 4] ∈ g.bodies 2 ∧ [epsilon] ∈ g.bodies 3 ∧ g.isTerminal 4 = true)) = some true := by
    decide +kernel
  simp only [Option.map_eq_some_iff, toOption_eq_some, decide_eq_true_eq] at hread
  obtain ⟨g, hg, hfree, hnonterminals, hstart, hbody, hempty, hb⟩ := hread
  have hvanish : g.Yields [3] [] := .nonterminal hempty .nil .nil
  have hreduced : g.Reduced := by
    intro s hs
    rcases List.mem_pair.mp (mem_of_isNonterminal hnonterminals hs) with rfl | rfl
    · exact ⟨⟨[], [], hstart ▸ .refl⟩, [4],
        .nonterminal hbody (hvanish.append (.terminal hb .nil)) .nil⟩
    · exact ⟨⟨[], [4], hstart ▸ .single (produces_of_mem hbody [] [])⟩, [], hvanish⟩
  exact ⟨g, hg, hreduced, (conflict_free_iff_isLL1 (.read hg) hreduced).mp hfree⟩

end LL1
end Lookahead
