import Lookahead.Proofs.LR0.Viable
import Lookahead.Proofs.SLR1.Classification
import Lookahead.Proofs.SLR1.Steps

/-!
Rightmost derivations backwards. The alternative that the last step of a rightmost derivation puts in
is the handle of the string: its item is valid and complete once the string has been read up to its
end, and the next terminal can follow its left side. Two handles of one string make a conflict, so
that without conflicts a string has one rightmost derivation.
-/

namespace Lookahead.SLR1

open LR0 Grammar

variable {g : Grammar} {a : Automaton} {follow : FollowSets}

/-- The item calls for a reduction after `string` has been read and before `rest`. -/
structure IsHandle (a : Automaton) (follow : FollowSets) (string rest : List Nat) (i : Item) :
    Prop where
  valid : a.Valid string i
  complete : a.grammar.nextSymbol i = none
  ne_accept : i.left ≠ a.accept
  follows : ∀ t, (rest ++ [endMark]).head? = some t → t ∈ follow.ofSymbol i.left

section IsFor

variable (ha : a.IsFor g)

include ha

/-- The rightmost nonterminal of a derived string is awaited once the string has been read up to it. -/
theorem exists_awaiting_of_rightmost {l : List Rewrite} {front rest : List Nat} {s : Nat}
    (h : g.Rightmost l [g.start] (front ++ s :: rest)) (hs : g.isTerminal s = false)
    (hrest : ∀ t ∈ rest, g.isTerminal t = true) :
    ∃ i, a.Valid front i ∧ a.grammar.nextSymbol i = some s := by
  have hfirst : a.grammar.RightmostStep ⟨a.accept, 0⟩ [a.accept] [g.start] := by
    refine ⟨[g.start], [], [], by simp [ha.bodies_accept], by simp, rfl, ?_⟩
    simp [Body.visible, ha.start_ne_epsilon]
  have haugmented : a.grammar.Rightmost (⟨a.accept, 0⟩ :: l) [a.accept] (front ++ s :: rest) :=
    .cons hfirst (ha.rightmost h)
  have hmem := ha.wellFormed.mem_of_derives ha.isNonterminal_start h.derives s (by simp)
  rw [← ha.isTerminal_eq] at hs
  simp only [← ha.isTerminal_eq] at hrest
  rcases awaits_of_rightmost ha haugmented hs hrest with ⟨heq, -⟩ | hawaited
  · exact absurd heq (ha.ne_accept hmem.2)
  · exact hawaited

/-- The last step of a rightmost derivation leaves a handle. -/
theorem exists_handle {l : List Rewrite} {r : Rewrite} {before after : List Nat}
    (h : g.Rightmost l [g.start] before) (hstep : g.RightmostStep r before after) :
    ∃ front rest body i, (g.bodies r.left)[r.production]? = some body ∧
      (∀ t ∈ rest, g.isTerminal t = true) ∧ before = front ++ r.left :: rest ∧
      after = front ++ body.visible ++ rest ∧ i.left = r.left ∧ i.production = r.production ∧
      IsHandle a (g.followSets g.firstSets) (front ++ body.visible) rest i := by
  obtain ⟨body, front, rest, hbody, hrest, rfl, rfl⟩ := hstep
  have hnon := ha.wellFormed.isNonterminal_of_mem_bodies (List.mem_of_getElem? hbody)
  obtain ⟨i, hi, hnext⟩ := exists_awaiting_of_rightmost ha h (isTerminal_eq_false_of_bodies hbody)
    hrest
  obtain ⟨j, hj, hleft, hproduction, hdone⟩ := hi.exists_complete ha hnext hbody
  refine ⟨front, rest, body, j, hbody, hrest, rfl, rfl, hleft, hproduction, hj, hdone, ?_, ?_⟩
  · rw [hleft]
    exact ha.ne_accept (lt_size_of_isNonterminal hnon)
  · intro t ht
    have hder : g.Derives [g.start, endMark] (front ++ r.left :: (rest ++ [endMark])) := by
      simpa using h.derives.append_right [endMark]
    have hword : g.Yields (rest ++ [endMark]) (rest ++ [endMark]) := by
      apply Yields.refl
      intro s hs
      rcases List.mem_append.mp hs with hs | hs
      · exact hrest s hs
      · rw [List.mem_singleton.mp hs]
        exact ha.wellFormed.isTerminal_endMark
    have hfirst := hword.first ha.wellFormed
    rw [ht] at hfirst
    rw [hleft]
    exact ha.wellFormed.mem_followers_of_derives hder rfl hnon hfirst

section ConflictFree

variable (hfree : conflicts a follow = [])

include hfree

/-- The items that are valid for a string are those of a state, and so free of conflicts. -/
theorem exists_conflictFree {string : List Nat} {i : Item} (hi : a.Valid string i) :
    ∃ items, ConflictFree a follow items ∧ ∀ j, j ∈ items ↔ a.Valid string j := by
  obtain ⟨stack, htraces⟩ := exists_traces ha.complete (fun h => h.next_mem_alphabet ha) hi
  obtain ⟨s, hs, hvalid⟩ := htraces.top ha.complete
  exact ⟨s.items, conflicts_eq_nil_iff_conflictFree.mp hfree _ s hs, hvalid⟩

/-- No terminal is read over a handle: it would be shifted and call for the reduction. -/
theorem IsHandle.eq_nil {string rest after : List Nat} {i j : Item}
    (h : IsHandle a follow string (rest ++ after) i) (hj : a.Valid (string ++ rest) j)
    (hrest : ∀ t ∈ rest, g.isTerminal t = true) : rest = [] := by
  cases rest with
  | nil => rfl
  | cons t rest =>
      exfalso
      obtain ⟨items, hitems, hvalid⟩ := exists_conflictFree ha hfree h.valid
      obtain ⟨k, hk, hnext⟩ := hj.exists_awaiting
      have hreducible : i ∈ a.reducible items :=
        mem_reducible.mpr ⟨(hvalid i).mpr h.valid, h.ne_accept, isComplete_iff.mpr h.complete⟩
      have hterm : a.grammar.isTerminal t = true := by
        rw [ha.isTerminal_eq]
        exact hrest t (by simp)
      exact hitems.shifting i hreducible t (h.follows t rfl)
        (mem_shiftable.mpr ⟨hterm, k, (hvalid k).mpr hk, hnext⟩)

theorem IsHandle.unique_item {string rest : List Nat} {i j : Item}
    (hi : IsHandle a follow string rest i) (hj : IsHandle a follow string rest j) : i = j := by
  obtain ⟨items, hitems, hvalid⟩ := exists_conflictFree ha hfree hi.valid
  have hreducible {k : Item} (hk : IsHandle a follow string rest k) : k ∈ a.reducible items :=
    mem_reducible.mpr ⟨(hvalid k).mpr hk.valid, hk.ne_accept, isComplete_iff.mpr hk.complete⟩
  obtain ⟨t, ht⟩ : ∃ t, (rest ++ [endMark]).head? = some t :=
    ⟨_, List.head?_eq_some_head (by simp)⟩
  by_contra hne
  exact hitems.reducing i (hreducible hi) j (hreducible hj) hne t (hi.follows t ht) (hj.follows t ht)

/-- A string in front of terminals has one handle at most. -/
theorem IsHandle.unique {string string' rest rest' : List Nat} {i j : Item}
    (hi : IsHandle a follow string rest i) (hj : IsHandle a follow string' rest' j)
    (hrest : ∀ t ∈ rest, g.isTerminal t = true) (hrest' : ∀ t ∈ rest', g.isTerminal t = true)
    (h : string ++ rest = string' ++ rest') : string = string' ∧ rest = rest' ∧ i = j := by
  rcases List.append_eq_append_iff.mp h with ⟨x, rfl, rfl⟩ | ⟨x, rfl, rfl⟩
  · obtain rfl : x = [] := hi.eq_nil ha hfree hj.valid fun t ht => hrest t (by simp [ht])
    simp only [List.append_nil, List.nil_append] at hi hj ⊢
    exact ⟨trivial, trivial, hi.unique_item ha hfree hj⟩
  · obtain rfl : x = [] := hj.eq_nil ha hfree hi.valid fun t ht => hrest' t (by simp [ht])
    simp only [List.append_nil, List.nil_append] at hi hj ⊢
    exact ⟨trivial, trivial, hi.unique_item ha hfree hj⟩

/-- The start symbol alone is accepted, and has no handle. -/
theorem IsHandle.ne_start {string rest : List Nat} {i : Item}
    (h : IsHandle a follow string rest i) (hrest : ∀ t ∈ rest, g.isTerminal t = true) :
    string ++ rest ≠ [g.start] := by
  intro hstart
  obtain ⟨last, hlast, hleft, -, hdone⟩ := Automaton.Valid.start.move_over (ahead_start ha)
  have hvalid : a.Valid (string ++ rest) last := by
    rw [hstart]
    exact hlast
  have hwhole : IsHandle a follow string (rest ++ []) i := by
    simpa using h
  obtain rfl : rest = [] := hwhole.eq_nil ha hfree hvalid hrest
  rw [List.append_nil] at hvalid
  obtain ⟨items, hitems, hmem⟩ := exists_conflictFree ha hfree h.valid
  have haccepts : a.accepts items = true :=
    accepts_iff.mpr ⟨last, (hmem last).mpr hvalid, hleft, isComplete_iff.mpr hdone⟩
  have hreducible : i ∈ a.reducible items :=
    mem_reducible.mpr ⟨(hmem i).mpr h.valid, h.ne_accept, isComplete_iff.mpr h.complete⟩
  exact hitems.accepting haccepts i hreducible (h.follows endMark rfl)

end ConflictFree

variable (hfree : conflicts a (g.followSets g.firstSets) = [])

include hfree

theorem not_rightmostStep_start {l : List Rewrite} {r : Rewrite} {before : List Nat}
    (h : g.Rightmost l [g.start] before) : ¬ g.RightmostStep r before [g.start] := by
  intro hstep
  obtain ⟨front, rest, body, i, -, hrest, -, hafter, -, -, hi⟩ := exists_handle ha h hstep
  exact hi.ne_start ha hfree hrest hafter.symm

/-- The last steps of two rightmost derivations of one string are the same. -/
theorem rightmostStep_unique {l l' : List Rewrite} {r r' : Rewrite} {before before' after : List Nat}
    (h : g.Rightmost l [g.start] before) (hstep : g.RightmostStep r before after)
    (h' : g.Rightmost l' [g.start] before') (hstep' : g.RightmostStep r' before' after) :
    r = r' ∧ before = before' := by
  obtain ⟨left, production⟩ := r
  obtain ⟨left', production'⟩ := r'
  obtain ⟨front, rest, body, i, hbody, hrest, rfl, rfl, hleft, hproduction, hi⟩ :=
    exists_handle ha h hstep
  obtain ⟨front', rest', body', j, hbody', hrest', rfl, hafter, hleft', hproduction', hj⟩ :=
    exists_handle ha h' hstep'
  obtain ⟨hstring, rfl, rfl⟩ := hi.unique ha hfree hj hrest hrest' hafter
  obtain rfl : left = left' := hleft.symm.trans hleft'
  obtain rfl : production = production' := hproduction.symm.trans hproduction'
  obtain rfl := Option.some.inj (hbody.symm.trans hbody')
  obtain rfl : front = front' := List.append_cancel_right hstring
  exact ⟨rfl, rfl⟩

/-- Without conflicts, a string has one rightmost derivation at most. -/
theorem rightmost_unique {l l' : List Rewrite} {symbols : List Nat}
    (h : g.Rightmost l [g.start] symbols) (h' : g.Rightmost l' [g.start] symbols) : l = l' := by
  induction l using List.reverseRecOn generalizing l' symbols with
  | nil =>
      cases h
      cases l' using List.reverseRecOn with
      | nil => rfl
      | append_singleton l' r' =>
          obtain ⟨_, hbefore, hstep⟩ := Applies.snoc_iff.mp h'
          exact absurd hstep (not_rightmostStep_start ha hfree hbefore)
  | append_singleton l r ih =>
      obtain ⟨before, hbefore, hstep⟩ := Applies.snoc_iff.mp h
      cases l' using List.reverseRecOn with
      | nil =>
          cases h'
          exact absurd hstep (not_rightmostStep_start ha hfree hbefore)
      | append_singleton l' r' =>
          obtain ⟨before', hbefore', hstep'⟩ := Applies.snoc_iff.mp h'
          obtain ⟨rfl, rfl⟩ := rightmostStep_unique ha hfree hbefore hstep hbefore' hstep'
          rw [ih hbefore hbefore']

end IsFor

end Lookahead.SLR1
