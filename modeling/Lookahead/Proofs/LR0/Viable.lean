import Lookahead.Proofs.Grammar.Canonical
import Lookahead.Proofs.Grammar.Sentential
import Lookahead.Proofs.LR0.Simulation

/-!
Valid items and rightmost derivations. Where a rightmost derivation of the augmented grammar has a
nonterminal as its last one, the items of the nonterminal are valid for what stands before it, followed
by what they have seen. If every nonterminal derives a word, these are all the valid items, since
whatever an item has ahead can be turned into terminals before its left side is rewritten.
-/

namespace Lookahead

namespace Grammar

variable {g : Grammar}

def itemAt (g : Grammar) (left production count : Nat) : Item :=
  ⟨left, production, (g.initialItem left production).position + count⟩

/-- A rightmost derivation comes to the string with nothing but terminals behind it. -/
def RightSentential (g : Grammar) (start : Nat) (string : List Nat) : Prop :=
  ∃ rewrites rest, (∀ t ∈ rest, g.isTerminal t = true) ∧
    g.Rightmost rewrites [start] (string ++ rest)

/-- The string begins what a rightmost derivation comes to, and ends no later than the alternative that
the last step puts in. -/
def IsViablePrefix (g : Grammar) (start : Nat) (string : List Nat) : Prop :=
  ∃ (rewrites : List Rewrite) (left production : Nat) (body : Body) (front rest : List Nat),
    (∀ t ∈ rest, g.isTerminal t = true) ∧
    g.Rightmost rewrites [start] (front ++ left :: rest) ∧
    (g.bodies left)[production]? = some body ∧ string <+: front ++ body.visible

section Items

variable {left production : Nat} {body : Body} (hg : g.WellFormed)
  (hbody : (g.bodies left)[production]? = some body)

include hbody

theorem body_eq_of_getElem? : g.body left production = body := by
  simp [Grammar.body, hbody]

include hg

theorem ahead_initial : g.ahead (g.initialItem left production) = body.visible := by
  rw [ahead_initialItem hg (List.getElem?_eq_some_iff.mp hbody).1, body_eq_of_getElem? hbody]

variable {before after : List Nat} (hsplit : body.visible = before ++ after)

include hsplit

theorem ahead_itemAt : g.ahead (g.itemAt left production before.length) = after := by
  calc g.ahead (g.itemAt left production before.length)
      = (g.ahead (g.initialItem left production)).drop before.length := (List.drop_drop ..).symm
    _ = after := by rw [ahead_initial hg hbody, hsplit, List.drop_left]

/-- What an item has seen and what it has ahead is its alternative, so that the empty string before
the dot counts for nothing. -/
theorem seen_itemAt : g.seen (g.itemAt left production before.length) = before := by
  have hwhole (i : Item) : g.seen i ++ Body.visible (g.ahead i) =
      (g.body i.left i.production).visible := by
    rw [seen, ahead, ← Body.visible_append, List.take_append_drop]
  have hafter : Body.visible after = after := by
    refine List.filter_eq_self.mpr fun s hs => ?_
    have hmem : s ∈ body.visible := by simp [hsplit, hs]
    simpa using (Body.mem_visible.mp hmem).2
  have hitem := hwhole (g.itemAt left production before.length)
  rw [ahead_itemAt hg hbody hsplit, hafter, itemAt, body_eq_of_getElem? hbody, hsplit] at hitem
  exact List.append_cancel_right hitem

end Items

theorem rightSentential_singleton {start : Nat} : g.RightSentential start [start] :=
  ⟨[], [], by simp, .nil⟩

namespace RightSentential

variable {start : Nat} {front : List Nat}

/-- The nonterminal at the end of a string may give way to an alternative. -/
theorem rewrite {left production : Nat} {body : Body}
    (h : g.RightSentential start (front ++ [left]))
    (hbody : (g.bodies left)[production]? = some body) :
    g.RightSentential start (front ++ body.visible) := by
  obtain ⟨rewrites, rest, hrest, hder⟩ := h
  refine ⟨rewrites ++ [⟨left, production⟩], rest, hrest, Applies.snoc_iff.mpr ⟨_, hder, ?_⟩⟩
  exact ⟨body, front, rest, hbody, hrest, by simp, rfl⟩

/-- Symbols at the end that derive a word can be turned into it. -/
theorem of_rightmost {l : List Rewrite} {symbols word : List Nat}
    (h : g.RightSentential start (front ++ symbols)) (hder : g.Rightmost l symbols word)
    (hword : ∀ t ∈ word, g.isTerminal t = true) : g.RightSentential start front := by
  obtain ⟨rewrites, rest, hrest, hbefore⟩ := h
  refine ⟨rewrites ++ l, word ++ rest, ?_, ?_⟩
  · intro t ht
    exact (List.mem_append.mp ht).elim (hword t) (hrest t)
  · rw [← List.append_assoc]
    exact hbefore.append (hder.context front rest hrest)

end RightSentential

end Grammar

namespace LR0

open Grammar

variable {g : Grammar} {a : Automaton}

/-- Some item awaits the nonterminal once the string has been read. The added nonterminal is awaited at
the very start. -/
def Automaton.Awaits (a : Automaton) (string : List Nat) (left : Nat) : Prop :=
  left = a.accept ∧ string = [] ∨ ∃ i, a.Valid string i ∧ a.grammar.nextSymbol i = some left

theorem Automaton.Valid.exists_of_append {u v : List Nat} {i : Item} (h : a.Valid (u ++ v) i) :
    ∃ j, a.Valid u j := by
  cases v with
  | nil => exact ⟨i, by simpa using h⟩
  | cons s v =>
      obtain ⟨j, hj, -⟩ := h.exists_awaiting
      exact ⟨j, hj⟩

section IsFor

variable (ha : a.IsFor g)

include ha

theorem Automaton.IsFor.rightmost {l : List Rewrite} {u v : List Nat} (h : g.Rightmost l u v) :
    a.grammar.Rightmost l u v := by
  refine Applies.map (f := id) ?_ h
  rintro r _ _ ⟨body, front, rest, hbody, hrest, rfl, rfl⟩
  have hnon := ha.wellFormed.isNonterminal_of_mem_bodies (List.mem_of_getElem? hbody)
  have hne := ha.ne_accept (lt_size_of_isNonterminal hnon)
  refine ⟨body, front, rest, ?_, fun t ht => ?_, rfl, rfl⟩
  · rw [ha.bodies_of_ne hne]
    exact hbody
  · rw [ha.isTerminal_eq]
    exact hrest t ht

theorem Automaton.Awaits.initial {string : List Nat} {left production : Nat} {body : Body}
    (h : a.Awaits string left) (hbody : (a.grammar.bodies left)[production]? = some body) :
    a.Valid string (a.grammar.initialItem left production) := by
  obtain ⟨hlt, -⟩ := List.getElem?_eq_some_iff.mp hbody
  rcases h with ⟨rfl, rfl⟩ | ⟨i, hi, hnext⟩
  · obtain rfl : production = 0 := by simpa [ha.bodies_accept] using hlt
    exact .start
  · have hnon := ha.grammar_wellFormed.isNonterminal_of_mem_bodies (List.mem_of_getElem? hbody)
    exact .expand hi hnext hnon (mem_initialItems.mpr ⟨production, hlt, rfl⟩)

/-- An item is valid for a string exactly if what it has seen ends the string and its left side is
awaited before that. -/
theorem valid_itemAt_iff {string before after : List Nat} {left production : Nat} {body : Body}
    (hbody : (a.grammar.bodies left)[production]? = some body)
    (hsplit : body.visible = before ++ after) :
    a.Valid string (a.grammar.itemAt left production before.length) ↔
      ∃ front, string = front ++ before ∧ a.Awaits front left := by
  have hwf := ha.grammar_wellFormed
  constructor
  · intro h
    obtain ⟨front, hstring, horigin⟩ := h.origin ha
    rw [seen_itemAt hwf hbody hsplit] at hstring
    exact ⟨front, hstring, horigin.imp_right And.right⟩
  · rintro ⟨front, rfl, hawaits⟩
    have hahead := ahead_initial hwf hbody
    exact (hawaits.initial ha hbody).move_along (hahead.trans hsplit)

/-- There are no valid items but those that have seen some first part of their alternative. -/
theorem Automaton.Valid.exists_itemAt {string : List Nat} {i : Item} (h : a.Valid string i) :
    ∃ (body : Body) (before after : List Nat),
      (a.grammar.bodies i.left)[i.production]? = some body ∧ body.visible = before ++ after ∧
      i = a.grammar.itemAt i.left i.production before.length := by
  have hinitial {left production : Nat} (hlt : production < (a.grammar.bodies left).length) :
      ∃ (body : Body) (before after : List Nat),
        (a.grammar.bodies left)[production]? = some body ∧ body.visible = before ++ after ∧
        a.grammar.initialItem left production = a.grammar.itemAt left production before.length :=
    ⟨_, [], _, List.getElem?_eq_getElem hlt, rfl, rfl⟩
  induction h with
  | start =>
      have hlt : 0 < (a.grammar.bodies a.accept).length := by simp [ha.bodies_accept]
      exact hinitial hlt
  | @move string i s _ hnext ih =>
      obtain ⟨body, before, after, hbody, hsplit, hitem⟩ := ih
      have hahead := ahead_itemAt ha.grammar_wellFormed hbody hsplit
      rw [← hitem, ahead_eq_cons hnext] at hahead
      refine ⟨body, before ++ [s], a.grammar.ahead i.advance, hbody, ?_, ?_⟩
      · rw [hsplit, ← hahead, List.append_cons]
      · rw [List.length_append]
        exact congrArg Item.advance hitem
  | expand _ _ _ hmem _ =>
      obtain ⟨production, hlt, rfl⟩ := mem_initialItems.mp hmem
      exact hinitial hlt

/-- The last nonterminal that a rightmost derivation comes to is awaited. -/
theorem awaits_of_rightmost {l : List Rewrite} {front rest : List Nat} {s : Nat}
    (h : a.grammar.Rightmost l [a.accept] (front ++ s :: rest))
    (hs : a.grammar.isTerminal s = false) (hrest : ∀ t ∈ rest, a.grammar.isTerminal t = true) :
    a.Awaits front s := by
  induction l using List.reverseRecOn generalizing front s rest with
  | nil =>
      generalize hsymbols : front ++ s :: rest = symbols at h
      cases h
      cases front with
      | nil => exact .inl ⟨(List.cons.inj hsymbols).1, rfl⟩
      | cons r front => simp at hsymbols
  | append_singleton l r ih =>
      obtain ⟨_, hbefore, body, u, v, hbody, hv, rfl, hsplit⟩ := Applies.snoc_iff.mp h
      have hawaits := ih hbefore (isTerminal_eq_false_of_bodies hbody) hv
      have hvalid := (valid_itemAt_iff ha hbody (List.append_nil _).symm).mpr ⟨u, rfl, hawaits⟩
      rcases append_eq_append_cons hsplit.symm with ⟨x, hx, -⟩ | ⟨x, rfl, -⟩
      · rw [hx] at hvalid
        exact .inr hvalid.exists_awaiting
      · -- to the right of the alternative there are terminals only
        simp [hv s (by simp)] at hs

section Productive

variable (hproductive : ∀ s, g.isNonterminal s = true → g.Productive s)

include hproductive

/-- What an item has ahead behind the next symbol can be turned into terminals. -/
theorem Automaton.Valid.rightSentential_next {string : List Nat} {i : Item} {s : Nat}
    (hi : a.Valid string i) (hnext : a.grammar.nextSymbol i = some s)
    (h : a.grammar.RightSentential a.accept (string ++ a.grammar.ahead i)) :
    a.grammar.RightSentential a.accept (string ++ [s]) := by
  have hahead : ∀ t ∈ a.grammar.ahead i.advance, endMark < t ∧ t < g.size :=
    (hi.move hnext).mem_ahead ha
  obtain ⟨word, hyields⟩ := exists_yields_of_lt hproductive hahead
  obtain ⟨_, l, hunfolds⟩ := hyields.exists_unfolds
  rw [ahead_eq_cons hnext, List.append_cons] at h
  refine h.of_rightmost (ha.rightmost hunfolds.rightmost) fun t ht => ?_
  rw [ha.isTerminal_eq]
  exact hyields.isTerminal_of_mem t ht

/-- A rightmost derivation comes to the string that was read and what the item has ahead. -/
theorem Automaton.Valid.rightSentential {string : List Nat} {i : Item} (h : a.Valid string i) :
    a.grammar.RightSentential a.accept (string ++ a.grammar.ahead i) := by
  have hinitial {front : List Nat} {left production : Nat}
      (hlt : production < (a.grammar.bodies left).length)
      (h : a.grammar.RightSentential a.accept (front ++ [left])) :
      a.grammar.RightSentential a.accept
        (front ++ a.grammar.ahead (a.grammar.initialItem left production)) := by
    rw [ahead_initialItem ha.grammar_wellFormed hlt]
    exact h.rewrite (holds_initialItem hlt).body_eq
  induction h with
  | start => exact hinitial (by simp [ha.bodies_accept]) rightSentential_singleton
  | move _ hnext ih =>
      rw [ahead_eq_cons hnext] at ih
      simpa using ih
  | expand hsource hnext _ hmem ih =>
      obtain ⟨production, hlt, rfl⟩ := mem_initialItems.mp hmem
      exact hinitial hlt (hsource.rightSentential_next ha hproductive hnext ih)

/-- Where a nonterminal is awaited, a rightmost derivation comes to it. -/
theorem Automaton.Awaits.rightSentential {string : List Nat} {left : Nat}
    (h : a.Awaits string left) : a.grammar.RightSentential a.accept (string ++ [left]) := by
  rcases h with ⟨rfl, rfl⟩ | ⟨i, hi, hnext⟩
  · exact rightSentential_singleton
  · exact hi.rightSentential_next ha hproductive hnext (hi.rightSentential ha hproductive)

/-- An item is valid for a string exactly if a rightmost derivation ends with its alternative, and the
string goes up to what the item has seen of it. -/
theorem valid_itemAt_iff_rightmost {string before after : List Nat} {left production : Nat}
    {body : Body} (hbody : (a.grammar.bodies left)[production]? = some body)
    (hsplit : body.visible = before ++ after) :
    a.Valid string (a.grammar.itemAt left production before.length) ↔
      ∃ rewrites front rest, (∀ t ∈ rest, a.grammar.isTerminal t = true) ∧
        a.grammar.Rightmost rewrites [a.accept] (front ++ left :: rest) ∧
        a.grammar.RightmostStep ⟨left, production⟩ (front ++ left :: rest)
          (front ++ (before ++ after) ++ rest) ∧
        string = front ++ before := by
  rw [valid_itemAt_iff ha hbody hsplit]
  constructor
  · rintro ⟨front, hstring, hawaits⟩
    obtain ⟨rewrites, rest, hrest, hder⟩ := hawaits.rightSentential ha hproductive
    rw [List.append_assoc] at hder
    refine ⟨rewrites, front, rest, hrest, hder, ?_, hstring⟩
    exact ⟨body, front, rest, hbody, hrest, rfl, by rw [hsplit]⟩
  · rintro ⟨rewrites, front, rest, hrest, hder, -, hstring⟩
    exact ⟨front, hstring, awaits_of_rightmost ha hder (isTerminal_eq_false_of_bodies hbody) hrest⟩

/-- The strings that have valid items are the viable prefixes. -/
theorem exists_valid_iff_isViablePrefix {string : List Nat} :
    (∃ i, a.Valid string i) ↔ a.grammar.IsViablePrefix a.accept string := by
  constructor
  · rintro ⟨i, hi⟩
    obtain ⟨body, before, after, hbody, hsplit, hitem⟩ := hi.exists_itemAt ha
    rw [hitem] at hi
    obtain ⟨rewrites, front, rest, hrest, hder, -, rfl⟩ :=
      (valid_itemAt_iff_rightmost ha hproductive hbody hsplit).mp hi
    refine ⟨rewrites, i.left, i.production, body, front, rest, hrest, hder, hbody, after, ?_⟩
    rw [hsplit, List.append_assoc]
  · rintro ⟨rewrites, left, production, body, front, rest, hrest, hder, hbody, more, hmore⟩
    have hawaits := awaits_of_rightmost ha hder (isTerminal_eq_false_of_bodies hbody) hrest
    have hvalid := (valid_itemAt_iff ha hbody (List.append_nil _).symm).mpr ⟨front, rfl, hawaits⟩
    rw [← hmore] at hvalid
    exact hvalid.exists_of_append

end Productive

end IsFor

/-- The state that a string leads to holds the items that are valid for it. -/
theorem mem_state_iff_valid (ha : a.IsFor g) {string : List Nat} {i : Item} :
    (∃ k s, a.walk? string = some k ∧ a.states[k]? = some s ∧ i ∈ s.items) ↔ a.Valid string i := by
  constructor
  · rintro ⟨k, s, hk, hs, hi⟩
    obtain ⟨s', hs', hvalid⟩ := ha.complete.valid_of_walk? hk
    obtain rfl : s = s' := Option.some.inj (hs.symm.trans hs')
    exact (hvalid i).mp hi
  · intro h
    obtain ⟨k, hk⟩ := h.exists_walk? ha
    obtain ⟨s, hs, hvalid⟩ := ha.complete.valid_of_walk? hk
    exact ⟨k, s, hk, hs, (hvalid i).mpr h⟩

/-- In the automaton of a grammar in which every nonterminal derives a word, the state that a string
leads to exists and holds an item exactly if a rightmost derivation of the augmented grammar ends with
the alternative of the item, and the string is what stands before the alternative, followed by what the
item has seen. So the strings that lead to a state are the viable prefixes. -/
theorem states_hold_valid_items (hg : g.Readable)
    (hproductive : ∀ s, g.isNonterminal s = true → g.Productive s) :
    ∃ a, g.automaton? = some a ∧ a.Augments g ∧
      (∀ string left production body before after,
        (a.grammar.bodies left)[production]? = some body → body.visible = before ++ after →
          ((∃ k s, a.walk? string = some k ∧ a.states[k]? = some s ∧
              a.grammar.itemAt left production before.length ∈ s.items) ↔
            ∃ rewrites front rest, (∀ t ∈ rest, g.isTerminal t = true) ∧
              a.grammar.Rightmost rewrites [a.accept] (front ++ left :: rest) ∧
              a.grammar.RightmostStep ⟨left, production⟩ (front ++ left :: rest)
                (front ++ (before ++ after) ++ rest) ∧
              string = front ++ before)) ∧
      (∀ (k : Nat) (s : State) (i : Item), a.states[k]? = some s → i ∈ s.items →
        ∃ (body : Body) (before after : List Nat),
          (a.grammar.bodies i.left)[i.production]? = some body ∧ body.visible = before ++ after ∧
          i = a.grammar.itemAt i.left i.production before.length) ∧
      ∀ string, (∃ k, a.walk? string = some k) ↔ a.grammar.IsViablePrefix a.accept string := by
  have hwf := hg.wellFormed
  have hstart := hg.isNonterminal_start
  obtain ⟨name, hbuild⟩ := exists_build hg
  have ha := isFor_build hwf hstart name
  have hcollects := collects_build hwf hstart name
  refine ⟨build g name, hbuild, ha.augments, ?_, ?_, ?_⟩
  · intro string left production body before after hbody hsplit
    rw [mem_state_iff_valid ha, valid_itemAt_iff_rightmost ha hproductive hbody hsplit]
    simp only [ha.isTerminal_eq]
  · intro k s i hs hi
    obtain ⟨string, -, hvalid⟩ := hcollects.reached hs
    exact ((hvalid i).mp hi).exists_itemAt ha
  · intro string
    rw [← exists_valid_iff_isViablePrefix ha hproductive]
    constructor
    · rintro ⟨k, hk⟩
      exact exists_valid_of_walk? ha hcollects hk
    · rintro ⟨i, hi⟩
      exact hi.exists_walk? ha

/-! After `( S` the item of the empty `A` is valid, and the closing parenthesis cannot be read before
`A` has taken its place. -/

theorem empty_item_valid :
    ∃ g a, Grammar.read .spaced "S -> ( S A ) | x\nA -> , | ϵ" = .ok g ∧
      (∀ s, g.isNonterminal s = true → g.Productive s) ∧ g.automaton? = some a ∧
      a.Augments g ∧ (a.grammar.bodies 3)[1]? = some [epsilon] ∧
      (∃ rewrites rest, (∀ t ∈ rest, g.isTerminal t = true) ∧
        a.grammar.Rightmost rewrites [a.accept] ([4, 2] ++ 3 :: rest) ∧
        a.grammar.RightmostStep ⟨3, 1⟩ ([4, 2] ++ 3 :: rest) ([4, 2] ++ rest)) ∧
      a.grammar.IsViablePrefix a.accept [4, 2, 3, 5] ∧
      ¬ a.grammar.IsViablePrefix a.accept [4, 2, 5] := by
  have hread : ((Grammar.read .spaced "S -> ( S A ) | x\nA -> , | ϵ").toOption.bind fun g =>
      g.automaton?.map fun a => decide (
        (List.range g.size).filter g.isNonterminal = [2, 3] ∧ [6] ∈ g.bodies 2 ∧
        [epsilon] ∈ g.bodies 3 ∧ g.isTerminal 6 = true ∧
        (a.grammar.bodies 3)[1]? = some [epsilon] ∧
        (((a.walk? [4, 2]).bind (a.states[·]?)).map fun s =>
          s.items.toList.contains (a.grammar.itemAt 3 1 0)) = some true ∧
        (a.walk? [4, 2, 3, 5]).isSome = true ∧ a.walk? [4, 2, 5] = none)) = some true := by
    decide +kernel
  simp only [Option.bind_eq_some_iff, Option.map_eq_some_iff, toOption_eq_some,
    decide_eq_true_eq, List.contains_iff_mem, Option.isSome_iff_exists] at hread
  obtain ⟨g, hg, a, ha, hnonterminals, hletter, hempty, hx, hbody, ⟨s, ⟨k, hk, hs⟩, hitem⟩, hclosed,
    hnone⟩ := hread
  have hproductive : ∀ s, g.isNonterminal s = true → g.Productive s := by
    intro s hs
    rcases List.mem_pair.mp (mem_of_isNonterminal hnonterminals hs) with rfl | rfl
    · exact ⟨[6], .nonterminal hletter (.terminal hx .nil) .nil⟩
    · exact ⟨[], .nonterminal hempty .nil .nil⟩
  obtain ⟨a', ha', haugments, hvalid, -, hviable⟩ := states_hold_valid_items (.read hg) hproductive
  obtain rfl : a = a' := Option.some.inj (ha.symm.trans ha')
  obtain ⟨rewrites, front, rest, hrest, hder, hstep, hstring⟩ :=
    (hvalid [4, 2] 3 1 [epsilon] [] [] hbody rfl).mp ⟨k, s, hk, hs, hitem⟩
  obtain rfl : [4, 2] = front := by simpa using hstring
  refine ⟨g, a, hg, hproductive, ha, haugments, hbody, ⟨rewrites, rest, hrest, hder, ?_⟩, ?_, ?_⟩
  · simpa using hstep
  · exact (hviable [4, 2, 3, 5]).mp hclosed
  · intro hprefix
    obtain ⟨k, hk⟩ := (hviable [4, 2, 5]).mpr hprefix
    rw [hnone] at hk
    cases hk

end LR0
end Lookahead
