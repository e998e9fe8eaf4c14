import Lookahead.Proofs.Sets.First
import Lookahead.Sets.Follow

/-!
The FOLLOW sets that the sweeps end with are closed under the rules. Hence in every string that the
start symbol and the end mark derive, whatever can come right after a nonterminal is in its set.
-/

namespace Lookahead

namespace FollowTable

def Knows (table : FollowTable) (fact : Nat × Nat) : Prop := fact.2 ∈ table.ofSymbol fact.1

variable {table : FollowTable}

@[simp] theorem size_add (s : Nat) (terminals : SortedSet Nat) :
    (table.add s terminals).size = table.size := by
  simp [add]

/-- Terminals are added to the set of one symbol. -/
theorem mem_ofSymbol_add {s i t : Nat} {terminals : SortedSet Nat} :
    t ∈ (table.add s terminals).ofSymbol i ↔
      t ∈ table.ofSymbol i ∨ i = s ∧ s < table.size ∧ t ∈ terminals := by
  unfold add ofSymbol
  rw [Array.getElem?_modify]
  by_cases hi : s = i
  · subst hi
    by_cases hs : s < table.size
    · simp [hs]
    · simp [hs, SortedSet.not_mem_empty]
  · simp [hi, Ne.symm hi]

structure Grounded (g : Grammar) (table : FollowTable) : Prop where
  size_eq : table.size = g.size
  isTerminal : ∀ {s t : Nat}, t ∈ table.ofSymbol s → g.isTerminal t = true

theorem determines_of_size (n : Nat) :
    Determines (fun table : FollowTable => table.size = n) Knows := by
  intro table table' h h' hsame
  apply Array.ext (h.trans h'.symm)
  intro i hi hi'
  have heq : table.ofSymbol i = table'.ofSymbol i := SortedSet.ext fun t => hsame (i, t)
  simpa [ofSymbol, hi, hi'] using heq

theorem Grounded.determines (g : Grammar) : Determines (Grounded g) Knows :=
  fun table table' h h' => determines_of_size g.size table table' h.size_eq h'.size_eq

theorem lt_size_of_mem_ofSymbol {s t : Nat} (h : t ∈ table.ofSymbol s) : s < table.size := by
  by_contra hs
  rw [ofSymbol, Array.getElem?_eq_none (by omega)] at h
  exact SortedSet.not_mem_empty t h

end FollowTable

namespace Grammar

open FollowTable

variable {g : Grammar}

theorem size_stepOver {first : FirstSets} (s : Nat) (table : FollowTable)
    (trailer : SortedSet Nat) : (g.stepOver first s table trailer).1.size = table.size := by
  unfold stepOver
  split
  · rfl
  · split
    · exact size_add s trailer
    · rfl

/-- What a body makes of a table, and the terminals that can come first in it or, if it can vanish,
in what comes after it. -/
def stepThrough (g : Grammar) (table : FollowTable) (after : SortedSet Nat) (body : Body) :
    FollowTable × SortedSet Nat :=
  body.foldr (fun s (table, trailer) => g.stepOver g.firstSets s table trailer) (table, after)

theorem stepThrough_cons (table : FollowTable) (after : SortedSet Nat) (s : Nat) (body : Body) :
    g.stepThrough table after (s :: body) =
      g.stepOver g.firstSets s (g.stepThrough table after body).1
        (g.stepThrough table after body).2 := rfl

theorem size_stepThrough (table : FollowTable) (after : SortedSet Nat) (body : Body) :
    (g.stepThrough table after body).1.size = table.size := by
  induction body with
  | nil => rfl
  | cons s body ih => rw [stepThrough_cons, size_stepOver, ih]

/-- In front of a body stands what can come first in it or, if it can vanish, what stands behind it. -/
theorem mem_stepThrough_trailer (hg : g.WellFormed) {table : FollowTable}
    {after : SortedSet Nat} {body : Body} (hbody : ∀ s ∈ body, s < g.size) {t : Nat} :
    t ∈ (g.stepThrough table after body).2 ↔
      (g.firstSets.ofSequence body).Has (some t) ∨
        (g.firstSets.ofSequence body).Has none ∧ t ∈ after := by
  induction body with
  | nil => simp [stepThrough, FirstSets.ofSequence, FirstTable.ofSequence]
  | cons s body ih =>
      have ih := ih fun r hr => hbody r (by simp [hr])
      rw [stepThrough_cons, stepOver, first_cons, first_cons]
      split
      · next hs =>
          subst hs
          have hnothing : g.firstSets.ofSymbol epsilon = .nothing :=
            (grounded_firstSets hg).ofSymbol_epsilon
          simp [hnothing, ih]
      · next hs =>
          split
          · by_cases hnull : (g.firstSets.ofSymbol s).nullable = true
            · simp only [hnull, ↓reduceIte, SortedSet.mem_union, ih, FirstSet.Has]
              grind
            · simp [hnull, FirstSet.Has]
          · next hnon =>
              have hterm := (isTerminal_or_isNonterminal (hbody s (by simp)) hs).resolve_right hnon
              simp [hg.first_terminal hterm, eq_comm]

/-- Stepping through a body adds to each nonterminal of it what stands behind it there. -/
theorem mem_stepThrough_table {table : FollowTable} {after : SortedSet Nat}
    {body : Body} {s t : Nat} :
    t ∈ (g.stepThrough table after body).1.ofSymbol s ↔
      t ∈ table.ofSymbol s ∨ ∃ u v, body = u ++ s :: v ∧ g.isNonterminal s = true ∧
        s < table.size ∧ t ∈ (g.stepThrough table after v).2 := by
  induction body with
  | nil => simp [stepThrough]
  | cons r body ih =>
      have hsplit (p : List Nat → Prop) : (∃ u v, r :: body = u ++ s :: v ∧
          g.isNonterminal s = true ∧ s < table.size ∧ p v) ↔
          (r = s ∧ g.isNonterminal s = true ∧ s < table.size ∧ p body) ∨
            ∃ u v, body = u ++ s :: v ∧ g.isNonterminal s = true ∧ s < table.size ∧ p v := by
        constructor
        · rintro ⟨u, v, heq, hrest⟩
          cases u with
          | nil =>
              obtain ⟨rfl, rfl⟩ := List.cons.inj heq
              exact .inl ⟨rfl, hrest⟩
          | cons _ u => exact .inr ⟨u, v, (List.cons.inj heq).2, hrest⟩
        · rintro (⟨rfl, hrest⟩ | ⟨u, v, rfl, hrest⟩)
          · exact ⟨[], body, rfl, hrest⟩
          · exact ⟨r :: u, v, rfl, hrest⟩
      rw [stepThrough_cons, stepOver, hsplit]
      split
      · next hr =>
          have hne : r = s → g.isNonterminal s ≠ true := by
            rintro rfl hnon
            exact (isNonterminal_iff.mp hnon).1 hr
          rw [ih]
          exact or_congr_right (or_iff_right fun h => hne h.1 h.2.1).symm
      · split
        · next hnon =>
            rw [mem_ofSymbol_add, ih, size_stepThrough]
            constructor
            · rintro ((h | h) | ⟨rfl, hlt, h⟩)
              · exact .inl h
              · exact .inr (.inr h)
              · exact .inr (.inl ⟨rfl, hnon, hlt, h⟩)
            · rintro (h | ⟨rfl, _, hlt, h⟩ | h)
              · exact .inl (.inl h)
              · exact .inr ⟨rfl, hlt, h⟩
              · exact .inl (.inr h)
        · next hnon =>
            have hne : r = s → g.isNonterminal s ≠ true := by
              rintro rfl
              exact hnon
            rw [ih]
            exact or_congr_right (or_iff_right fun h => hne h.1 h.2.1).symm

theorem followBody_eq (left : Nat) (table : FollowTable) (body : Body) :
    g.followBody g.firstSets left table body =
      (g.stepThrough table (table.ofSymbol left) body).1 := rfl

theorem adds_followBody (hg : g.WellFormed) {left : Nat} {body : Body}
    (hbody : body ∈ g.bodies left) :
    Adds (Grounded g) Knows (g.followBody g.firstSets left · body) where
  keeps table h := by
    have hlt := (hg.fits hbody).lt_size hg
    rw [followBody_eq]
    refine ⟨(size_stepThrough _ _ _).trans h.size_eq, fun {s t} ht => ?_⟩
    rcases mem_stepThrough_table.mp ht with ht | ⟨u, v, rfl, _, _, ht⟩
    · exact h.isTerminal ht
    · have hv : ∀ s ∈ v, s < g.size := fun s hs => hlt s (by simp [hs])
      rcases (mem_stepThrough_trailer hg hv).mp ht with ht | ⟨_, ht⟩
      · exact hg.isTerminal_of_first hv ht
      · exact h.isTerminal ht
  grows table fact _ hfact := by
    rw [followBody_eq]
    exact mem_stepThrough_table.mpr (.inl hfact)

theorem adds_followBodies (hg : g.WellFormed) {n : Nonterminal} (hn : n ∈ g.nonterminals) :
    Adds (Grounded g) Knows fun table => n.bodies.foldl (g.followBody g.firstSets n.index) table :=
  Adds.foldl fun _ hbody => adds_followBody hg (hg.bodies_index hn ▸ hbody)

/-- A sweep keeps a table grounded and forgets nothing. -/
theorem adds_sweepFollow (hg : g.WellFormed) :
    Adds (Grounded g) Knows (g.sweepFollow g.firstSets) :=
  Adds.foldl fun _ hn => adds_followBodies hg hn

/-- Before the first sweep the end mark follows the start symbol, and that is all. -/
theorem mem_initialFollow {s t : Nat} :
    t ∈ g.initialFollow.ofSymbol s ↔ s = g.start ∧ g.start < g.size ∧ t = endMark := by
  have hempty : t ∉ FollowTable.ofSymbol (Array.replicate g.size ∅) s := by
    unfold FollowTable.ofSymbol
    rw [Array.getElem?_replicate]
    split <;> exact SortedSet.not_mem_empty t
  rw [initialFollow, mem_ofSymbol_add]
  simp [hempty]

theorem grounded_initialFollow (hg : g.WellFormed) : Grounded g g.initialFollow where
  size_eq := by simp [initialFollow]
  isTerminal ht := by
    rw [(mem_initialFollow.mp ht).2.2]
    exact hg.isTerminal_endMark

def followFacts (g : Grammar) : Finset (Nat × Nat) := Finset.range g.size ×ˢ Finset.range g.size

theorem card_followFacts_lt : g.followFacts.card < g.sweepLimit := by
  simp only [followFacts, Finset.card_product, Finset.card_range, sweepLimit]
  have : g.size * g.size ≤ g.size * (g.size + g.occurrences + 1) :=
    Nat.mul_le_mul_left _ (by omega)
  omega

theorem FollowTable.Grounded.mem_followFacts {table : FollowTable} (h : Grounded g table)
    {fact : Nat × Nat} (hfact : table.Knows fact) : fact ∈ g.followFacts := by
  refine Finset.mem_product.mpr ⟨Finset.mem_range.mpr ?_, Finset.mem_range.mpr ?_⟩
  · rw [← h.size_eq]
    exact lt_size_of_mem_ofSymbol hfact
  · exact lt_size_of_isTerminal (h.isTerminal hfact)

/-- The FOLLOW set of a symbol, when it is found with the FIRST sets of the same grammar. -/
def followers (g : Grammar) (s : Nat) : SortedSet Nat := (g.followSets g.firstSets).ofSymbol s

theorem table_followSets : (g.followSets g.firstSets).table =
    (settle (g.sweepFollow g.firstSets) g.sweepLimit g.initialFollow).1 := rfl

theorem grounded_followSets (hg : g.WellFormed) :
    Grounded g (g.followSets g.firstSets).table := by
  rw [table_followSets]
  exact (adds_sweepFollow hg).settle_keeps _ (grounded_initialFollow hg)

theorem knows_sweepFollow_or_mem (hg : g.WellFormed) {table : FollowTable} (h : Grounded g table)
    (fact : Nat × Nat) (hfact : (g.sweepFollow g.firstSets table).Knows fact) :
    table.Knows fact ∨ fact ∈ g.followFacts :=
  .inr (FollowTable.Grounded.mem_followFacts ((adds_sweepFollow hg).keeps table h) hfact)

theorem sweepFollow_eq_of_knows (hg : g.WellFormed) {table : FollowTable} (h : Grounded g table)
    (hback : ∀ fact, (g.sweepFollow g.firstSets table).Knows fact → table.Knows fact) :
    g.sweepFollow g.firstSets table = table := by
  apply Grounded.determines g _ _ ((adds_sweepFollow hg).keeps table h) h
  intro fact
  exact ⟨hback fact, (adds_sweepFollow hg).grows table fact h⟩

/-- One more sweep changes nothing. -/
theorem sweepFollow_followSets (hg : g.WellFormed) :
    g.sweepFollow g.firstSets (g.followSets g.firstSets).table =
      (g.followSets g.firstSets).table := by
  rw [table_followSets]
  exact (adds_sweepFollow hg).settle_fixed
    (fun table fact h => knows_sweepFollow_or_mem hg h fact)
    (fun _ h => sweepFollow_eq_of_knows hg h) card_followFacts_lt.le (grounded_initialFollow hg)

theorem followBody_followSets (hg : g.WellFormed) {left : Nat} {body : Body}
    (hbody : body ∈ g.bodies left) :
    g.followBody g.firstSets left (g.followSets g.firstSets).table body =
      (g.followSets g.firstSets).table := by
  have hground := grounded_followSets hg
  obtain ⟨n, hn, rfl, hbodies⟩ := hg.exists_nonterminal (hg.isNonterminal_of_mem_bodies hbody)
  have hbodies_fixed := Adds.foldl_fixed (Grounded.determines g)
    (fun n hn => adds_followBodies hg hn) hground (sweepFollow_followSets hg) n hn
  exact Adds.foldl_fixed (Grounded.determines g)
    (fun _ hbody => adds_followBody hg (hg.bodies_index hn ▸ hbody)) hground hbodies_fixed body
    (hbodies ▸ hbody)

/-- Whatever can come right after a nonterminal of the string is in its FOLLOW set. -/
def Followed (g : Grammar) (symbols : List Nat) : Prop :=
  ∀ ⦃u v : List Nat⦄ ⦃s t : Nat⦄, symbols = u ++ s :: v → g.isNonterminal s = true →
    (g.firstSets.ofSequence v).Has (some t) → t ∈ g.followers s

namespace WellFormed

variable (hg : g.WellFormed)

include hg

theorem isTerminal_of_mem_followers {s t : Nat} (ht : t ∈ g.followers s) :
    g.isTerminal t = true :=
  (grounded_followSets hg).isTerminal ht

theorem endMark_mem_followers_start : endMark ∈ g.followers g.start := by
  have hinitial : g.initialFollow.Knows (g.start, endMark) :=
    mem_initialFollow.mpr ⟨rfl, hg.start_lt_size, rfl⟩
  have hfinal := (adds_sweepFollow hg).settle_grows g.sweepLimit (grounded_initialFollow hg)
    hinitial
  rwa [← table_followSets] at hfinal

/-- The rule of the FOLLOW sets. What can come after a nonterminal in an alternative, or after the
left side if the rest of the alternative can vanish, is in the set of the nonterminal. -/
theorem mem_followers_of_body {left s t : Nat} {body : Body} {u v : List Nat}
    (hbody : body ∈ g.bodies left) (hsplit : body.visible = u ++ s :: v)
    (hs : g.isNonterminal s = true)
    (ht : (g.firstSets.ofSequence v).Has (some t) ∨
      (g.firstSets.ofSequence v).Has none ∧ t ∈ g.followers left) :
    t ∈ g.followers s := by
  have hvisible : body.visible = body := by
    apply (hg.fits hbody).visible_eq
    rintro rfl
    simp at hsplit
  rw [hvisible] at hsplit
  have hlt := (hg.fits hbody).lt_size hg
  have hv : ∀ r ∈ v, r < g.size := fun r hr => hlt r (by simp [hsplit, hr])
  have hfixed := followBody_followSets hg hbody
  rw [followBody_eq] at hfixed
  unfold followers FollowSets.ofSymbol
  rw [← hfixed]
  refine mem_stepThrough_table.mpr (.inr ⟨u, v, hsplit, hs, ?_, ?_⟩)
  · rw [(grounded_followSets hg).size_eq]
    exact lt_size_of_isNonterminal hs
  · exact (mem_stepThrough_trailer hg hv).mpr ht

/-- What may follow the left side of an alternative that can vanish may follow all its symbols. -/
theorem mem_followers_of_vanishing {left s t : Nat} {body : Body} (hbody : body ∈ g.bodies left)
    (hnull : (g.firstSets.ofSequence body).Has none) (ht : t ∈ g.followers left)
    (hmem : s ∈ body.visible) (hs : g.isNonterminal s = true) : t ∈ g.followers s := by
  obtain ⟨u, v, hsplit⟩ := List.append_of_mem hmem
  have hvisible := hg.first_visible.mpr hnull
  rw [hsplit, first_append_none, first_cons_none] at hvisible
  exact hg.mem_followers_of_body hbody hsplit hs (.inr ⟨hvisible.2.2, ht⟩)

theorem followed_of_body {left : Nat} {body : Body} (hbody : body ∈ g.bodies left) :
    g.Followed body.visible :=
  fun _ _ _ _ hsplit hs ht => hg.mem_followers_of_body hbody hsplit hs (.inl ht)

/-- A step of a derivation leaves the string followed as it should be. -/
theorem followed_of_produces {before after : List Nat} (h : g.Followed before)
    (hstep : g.Produces before after) : g.Followed after := by
  intro u v s t hsplit hs ht
  obtain ⟨left, body, front, rest, hbody, rfl, rfl⟩ := hstep
  rcases append_eq_append_cons hsplit with ⟨x, hfront, rfl⟩ | ⟨x, rfl, rfl⟩
  · rcases append_eq_append_cons hfront with ⟨y, rfl, rfl⟩ | ⟨y, hvisible, rfl⟩
    · -- before the alternative, which begins like its left side
      exact h (u := u) (v := y ++ left :: rest) (by simp) hs
        ((produces_of_mem hbody y rest).first hg ht)
    · -- within the alternative
      apply hg.mem_followers_of_body hbody hvisible hs
      rcases first_append.mp ht with ⟨ht, _⟩ | ⟨hnull, ht⟩
      · exact .inl ht
      · exact .inr ⟨hnull, h rfl (hg.isNonterminal_of_mem_bodies hbody) ht⟩
  · -- behind the alternative
    exact h (u := front ++ left :: x) (by simp) hs ht

/-- What holds of the nonterminals of a string holds of those of every string derived from it. -/
theorem followed_of_derives {u v : List Nat} (h : g.Followed u) (hder : g.Derives u v) :
    g.Followed v := by
  induction hder with
  | refl => exact h
  | tail _ hstep ih => exact hg.followed_of_produces ih hstep

theorem followed_start : g.Followed [g.start, endMark] := by
  intro u v s t hsplit hs ht
  have hend : g.firstSets.ofSymbol endMark = .terminal endMark :=
    hg.first_terminal hg.isTerminal_endMark
  cases u with
  | nil =>
      obtain ⟨rfl, rfl⟩ := List.cons.inj hsplit
      obtain rfl : t = endMark := by
        simpa [first_cons, hend] using ht
      exact hg.endMark_mem_followers_start
  | cons _ u =>
      -- the end mark is no nonterminal, and nothing else is left
      have hmem : s ∈ [endMark] := by simp [(List.cons.inj hsplit).2]
      rw [List.mem_singleton.mp hmem,
        not_isNonterminal_of_isTerminal hg.isTerminal_endMark] at hs
      cases hs

/-- In a string that the start symbol and the end mark derive, whatever can come right after a
nonterminal is in its FOLLOW set. -/
theorem mem_followers_of_derives {symbols : List Nat}
    (hder : g.Derives [g.start, endMark] symbols) {u v : List Nat} {s t : Nat}
    (hsplit : symbols = u ++ s :: v) (hs : g.isNonterminal s = true)
    (ht : (g.firstSets.ofSequence v).Has (some t)) : t ∈ g.followers s :=
  hg.followed_of_derives hg.followed_start hder hsplit hs ht

end WellFormed
end Grammar
end Lookahead
