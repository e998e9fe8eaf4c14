import Lookahead.Proofs.Grammar.Frame
import Lookahead.Proofs.LR0.Automaton
import Lookahead.Proofs.Machine.Steps

/-!
Names that nothing goes by yet. The loop that looks for one tries names that are all different, and a
grammar knows only so many, so it ends. A symbol that is added under what it ends with shares its name
with no other, and of several that are added one after another each avoids the names of those before it.
-/

namespace Lookahead

namespace Grammar

variable {g : Grammar}

/-! The loop. -/

/-- Appends an apostrophe for as long as something stands under the name: from the one name the loop comes
to the other one. -/
inductive PrimesTo (g : Grammar) : String → String → Prop
  | done {name : String} (free : g.index? name = none) : PrimesTo g name name
  | next {name result : String} (taken : g.index? name ≠ none)
      (following : PrimesTo g (name.push '\x27') result) : PrimesTo g name result

/-- The loop comes to one name at most. -/
theorem PrimesTo.unique {name result result' : String} (h : g.PrimesTo name result)
    (h' : g.PrimesTo name result') : result = result' := by
  induction h with
  | done free =>
      cases h' with
      | done => rfl
      | next taken => exact absurd free taken
  | next taken _ ih =>
      cases h' with
      | done free => exact absurd free taken
      | next _ following => exact ih following

/-- The loop passes over the names that are taken and stops at the first one that is not. -/
theorem primesTo_primes {name : String} {k : Nat}
    (hk : IsLeast {m | g.index? (primes name m) = none} k) : g.PrimesTo name (primes name k) := by
  obtain ⟨hfree, hleast⟩ := hk
  -- after one turn the name is longer, and one apostrophe fewer is missing
  induction k generalizing name with
  | zero => exact .done hfree
  | succ k ih =>
      have htaken : g.index? (primes name 0) ≠ none := fun h => absurd (hleast h) (by omega)
      refine .next htaken (ih hfree fun j hj => ?_)
      have hle : k + 1 ≤ j + 1 := hleast hj
      omega

theorem primes_injective (name : String) : Function.Injective (primes name) := by
  intro j k h
  have hlength := congrArg String.length h
  rw [length_primes, length_primes] at hlength
  omega

/-- The fresh name has as few apostrophes as it can have, and no more than there are names. -/
theorem exists_isLeast_freshName (g : Grammar) (name : String) :
    ∃ k ≤ g.names.size, IsLeast {m | g.index? (primes name m) = none} k ∧
      g.freshName name = primes name k := by
  obtain ⟨k, hk, hfree, htaken⟩ := g.exists_freshName name
  obtain ⟨k', hle, hk', -⟩ := g.exists_primed g.names.size name
  obtain rfl : k = k' := primes_injective name (hk.symm.trans hk')
  refine ⟨k, hle, ⟨by simpa [index?, SortedMap.contains] using hfree, fun j hj => ?_⟩, hk⟩
  by_contra hlt
  have hcontains := htaken j (by omega)
  rw [SortedMap.contains, ← index?, hj] at hcontains
  cases hcontains

/-! Symbols under fresh names. -/

/-- The larger grammar has all that the smaller one has, and more symbols after it. These stand under their
names, and under every other name stands what stood there before. Each of them goes by a name out of
`bases` with as few apostrophes as tell it from all names that were taken before its turn. -/
structure GrowsFresh (g : Grammar) (bases : List String) (g' : Grammar) : Prop extends g.Extends g' where
  index?_iff : ∀ name i, g'.index? name = some i ↔
    g.index? name = some i ∨ g.size ≤ i ∧ g'.name? i = some name
  first_free : ∀ i, g.size ≤ i → i < g'.size → ∃ base ∈ bases, ∃ k,
    g'.name? i = some (primes base k) ∧
      IsLeast {m | ∀ j < i, g'.index? (primes base m) ≠ some j} k

theorem index?_addNonterminal_eq_some {name : String} (hfree : g.index? name = none) (x : String)
    (i : Nat) : (g.addNonterminal name).index? x = some i ↔
      g.index? x = some i ∨ g.size ≤ i ∧ (g.addNonterminal name).name? i = some x := by
  rw [index?_addNonterminal, name?_addNonterminal]
  constructor
  · intro hi
    split at hi
    · next hx =>
        cases hi
        exact .inr ⟨le_rfl, by rw [if_pos rfl, hx]⟩
    · exact .inl hi
  · rintro (hi | ⟨hle, hx⟩)
    · have hne : name ≠ x := by
        rintro rfl
        rw [hfree] at hi
        cases hi
      rw [if_neg hne, hi]
    · split at hx
      · next hi => rw [if_pos (Option.some.inj hx), hi]
      · rw [name?_eq_none_of_le hle] at hx
        cases hx

namespace GrowsFresh

variable {bases : List String} {g' g'' : Grammar}

theorem updateBodies (left : Nat) (f : List Body → List Body) :
    g.GrowsFresh bases (g.updateBodies left f) where
  toExtends := extends_updateBodies left f
  index?_iff name i := by
    rw [index?_updateBodies, name?_updateBodies]
    refine (or_iff_left ?_).symm
    rintro ⟨hi, hname⟩
    rw [name?_eq_none_of_le hi] at hname
    cases hname
  first_free i hi hlt := by
    rw [size_updateBodies] at hlt
    exact absurd hlt hi.not_gt

theorem refl : g.GrowsFresh bases g := by
  have h : g.GrowsFresh bases (g.updateBodies epsilon fun bodies => bodies) := updateBodies _ _
  rwa [updateBodies_id] at h

theorem addBodies (left : Nat) (bodies : List Body) : g.GrowsFresh bases (g.addBodies left bodies) := by
  rw [addBodies_eq]
  exact .updateBodies left _

/-- A nonterminal may be added under the first name that is free. -/
theorem addNonterminal (hg : g.WellFormed) {base : String} (hbase : base ∈ bases) {k : Nat}
    (hk : IsLeast {m | g.index? (primes base m) = none} k) :
    g.GrowsFresh bases (g.addNonterminal (primes base k)) where
  toExtends := extends_addNonterminal _
  index?_iff := index?_addNonterminal_eq_some hk.1
  first_free i hi hlt := by
    rw [size_addNonterminal] at hlt
    obtain rfl : i = g.size := by omega
    refine ⟨base, hbase, k, by rw [name?_addNonterminal, if_pos rfl], fun j hj => ?_, fun m hm => ?_⟩
    · rw [index?_addNonterminal, if_pos rfl]
      simpa using hj.ne'
    · apply hk.2
      refine Option.eq_none_iff_forall_ne_some.mpr fun j hj => ?_
      exact hm j (hg.lt_size_of_index? hj)
        ((index?_addNonterminal_eq_some hk.1 (primes base m) j).mpr (.inl hj))

theorem index?_iff_of_lt (h : g.GrowsFresh bases g') {i : Nat} (hi : i < g.size) (name : String) :
    g'.index? name = some i ↔ g.index? name = some i := by
  rw [h.index?_iff]
  exact or_iff_left fun hnew => hnew.1.not_gt hi

/-- A name that was free before the second growth was free before the first. -/
theorem trans (h : g.GrowsFresh bases g') (h' : g'.GrowsFresh bases g'') :
    g.GrowsFresh bases g'' where
  toExtends := h.toExtends.trans h'.toExtends
  index?_iff name i := by
    rw [h'.index?_iff, h.index?_iff, or_assoc]
    refine or_congr_right ?_
    rcases lt_or_ge i g'.size with hi | hi
    · simp [h'.name?_eq i hi, hi.not_ge]
    · simp [name?_eq_none_of_le hi, hi, h.size_le.trans hi]
  first_free i hi hlt := by
    rcases lt_or_ge i g'.size with hold | hnew
    · obtain ⟨base, hbase, k, hname, hk⟩ := h.first_free i hi hold
      refine ⟨base, hbase, k, (h'.name?_eq i hold).trans hname, ?_⟩
      -- what was taken before the turn of `i` is taken in the last grammar by the same symbols
      have hsame : {m | ∀ j < i, g''.index? (primes base m) ≠ some j} =
          {m | ∀ j < i, g'.index? (primes base m) ≠ some j} :=
        Set.ext fun m => forall₂_congr fun j hj =>
          not_congr (h'.index?_iff_of_lt (hj.trans hold) (primes base m))
      rwa [hsame]
    · exact h'.first_free i hnew hlt

/-- A symbol that was added goes by a name that was new, and no other symbol goes by it. -/
theorem alone (h : g.GrowsFresh bases g') (hg : g.WellFormed) {i : Nat} (hi : g.size ≤ i)
    {name : String} (hname : g'.name? i = some name) :
    g.index? name = none ∧ ∀ j, g'.name? j = some name → j = i := by
  have hindex : g'.index? name = some i := (h.index?_iff name i).mpr (.inr ⟨hi, hname⟩)
  have hfree : g.index? name = none := by
    refine Option.eq_none_iff_forall_ne_some.mpr fun j hj => ?_
    obtain rfl : j = i := Option.some.inj (((h.index?_iff name j).mpr (.inl hj)).symm.trans hindex)
    exact absurd (hg.lt_size_of_index? hj) hi.not_gt
  refine ⟨hfree, fun j hj => ?_⟩
  rcases lt_or_ge j g.size with hlt | hle
  · rw [h.name?_eq j hlt] at hj
    rw [hg.index_of_name hj] at hfree
    cases hfree
  · have hj := (h.index?_iff name j).mpr (.inr ⟨hle, hj⟩)
    exact Option.some.inj (hj.symm.trans hindex)

/-! The removal of left recursion, step by step. -/

/-- A step of the removal adds at most its helper, under the first name that is free. -/
theorem removeRecursionOf (hg : g.WellFormed) (earlier : List Nat) {left : Nonterminal}
    (hleft : left.name ∈ bases) : g.GrowsFresh bases (g.removeRecursionOf earlier left).1 := by
  by_cases htails : recursiveTails left.index (g.expanded earlier left.index) = []
  · rw [removeRecursionOf_of_nil htails]
    exact (updateBodies _ _).trans (addBodies _ _)
  · obtain ⟨k, -, hk, hfresh⟩ := g.exists_isLeast_freshName left.name
    rw [removeRecursionOf_of_ne_nil htails, hfresh]
    refine (updateBodies _ _).trans <|
      (addNonterminal (hg.clearBodies left.index) hleft ?_).trans <|
        (addBodies _ _).trans (addBodies _ _)
    simpa only [Grammar.clearBodies, index?_updateBodies] using hk

theorem removeRecursionFrom (hg : g.WellFormed) (earlier : List Nat) {lefts : List Nonterminal}
    (hlefts : ∀ n ∈ lefts, n.name ∈ bases) :
    g.GrowsFresh bases (g.removeRecursionFrom earlier lefts).1 := by
  induction lefts generalizing g earlier with
  | nil => exact refl
  | cons left lefts ih =>
      obtain ⟨hleft, hrest⟩ := List.forall_mem_cons.mp hlefts
      rw [removeRecursionFrom_cons]
      exact (removeRecursionOf hg earlier hleft).trans (ih (hg.removeRecursionOf earlier left) _ hrest)

/-! The added start symbol. -/

theorem augment (hg : g.WellFormed) (hstart : g.isNonterminal g.start = true) (name : String) :
    g.GrowsFresh [name] (LR0.augment g name) := by
  obtain ⟨k, -, hk, hfresh⟩ := g.exists_isLeast_freshName name
  rw [LR0.augment_eq hstart, hfresh]
  exact (addNonterminal hg (List.mem_singleton.mpr rfl) hk).trans (updateBodies _ _)

end GrowsFresh
end Grammar

open Grammar

/-- Whatever the grammar, the loop that looks for a fresh name ends, with the fewest apostrophes that make
the name new. The helpers that the removal of left recursion adds to a grammar that was read, and the
nonterminal that its automaton adds, go by such names: no other symbol has any of them, and whatever the
grammar found under a name is found under it still. -/
theorem generated_names_fresh :
    (∀ (g : Grammar) (name : String), ∃ k ≤ g.names.size,
      IsLeast {m | g.index? (primes name m) = none} k ∧ g.freshName name = primes name k ∧
        ∀ result, g.PrimesTo name result ↔ result = primes name k) ∧
    ∀ g : Grammar, g.Readable →
      g.GrowsFresh (g.nonterminals.map Nonterminal.name) g.withoutLeftRecursion ∧
      (∀ i name, g.size ≤ i → g.withoutLeftRecursion.name? i = some name →
        g.index? name = none ∧ ∀ j, g.withoutLeftRecursion.name? j = some name → j = i) ∧
      ∃ a start, g.automaton? = some a ∧ g.name? g.start = some start ∧
        a.accept = g.size ∧ a.grammar.size = g.size + 1 ∧ g.GrowsFresh [start] a.grammar ∧
        a.grammar.name? a.accept = some (g.freshName start) ∧
        g.index? (g.freshName start) = none ∧
        ∀ j, a.grammar.name? j = some (g.freshName start) → j = a.accept := by
  constructor
  · intro g name
    obtain ⟨k, hle, hk, hfresh⟩ := g.exists_isLeast_freshName name
    have hloop := primesTo_primes hk
    exact ⟨k, hle, hk, hfresh, fun result => ⟨fun h => h.unique hloop, fun h => h ▸ hloop⟩⟩
  · intro g hg
    have hwf := hg.wellFormed
    have hstart := hg.isNonterminal_start
    have hremoved : g.GrowsFresh (g.nonterminals.map Nonterminal.name) g.withoutLeftRecursion :=
      .removeRecursionFrom hwf [] fun n hn => List.mem_map_of_mem hn
    obtain ⟨start, hname⟩ := Option.isSome_iff_exists.mp (isSome_name? hwf.start_lt_size)
    have hbuild : g.automaton? = some (LR0.build g start) := by
      rw [automaton?, hname]
      rfl
    have haugmented : g.GrowsFresh [start] (LR0.augment g start) := .augment hwf hstart start
    have haccept : (LR0.augment g start).name? g.size = some (g.freshName start) := by
      rw [LR0.name?_augment hstart, if_pos rfl]
    obtain ⟨hfree, halone⟩ := haugmented.alone hwf le_rfl haccept
    exact ⟨hremoved, fun i name hle hi => hremoved.alone hwf hle hi, LR0.build g start, start, hbuild,
      hname, rfl, LR0.size_augment hstart start, haugmented, haccept, hfree, halone⟩

/-! A second removal gives the helper of `S` a helper of its own, for which the first name is taken. -/

theorem primed_name_primed_again :
    ∃ g h a, Grammar.read .spaced "S -> S S | S\x27\x27 | ϵ" = .ok g ∧ h = g.withoutLeftRecursion ∧
      h.size = 5 ∧ h.name? 3 = some "S\x27\x27" ∧ h.name? 4 = some "S'" ∧
      h.PrimesTo "S'" "S\x27\x27\x27" ∧ h.index? "S\x27\x27\x27" = none ∧
      h.withoutLeftRecursion.name? 5 = some "S\x27\x27\x27" ∧
      (∀ j, h.withoutLeftRecursion.name? j = some "S\x27\x27\x27" → j = 5) ∧
      h.withoutLeftRecursion.index? "S'" = some 4 ∧
      h.automaton? = some a ∧ a.accept = 5 ∧ a.grammar.index? "S'" = some 4 ∧
      ∀ j, a.grammar.name? j = some (h.freshName "S") → j = 5 := by
  have hread : ((Grammar.read .spaced "S -> S S | S\x27\x27 | ϵ").toOption.map fun g =>
      decide (g.withoutLeftRecursion.size = 5 ∧ g.withoutLeftRecursion.name? 3 = some "S\x27\x27" ∧
        g.withoutLeftRecursion.name? 4 = some "S'" ∧
        g.withoutLeftRecursion.index? "S'" = some 4 ∧
        g.withoutLeftRecursion.name? g.withoutLeftRecursion.start = some "S" ∧
        g.withoutLeftRecursion.freshName "S'" = "S\x27\x27\x27" ∧
        g.withoutLeftRecursion.withoutLeftRecursion.name? 5 = some "S\x27\x27\x27")) = some true := by
    decide +kernel
  simp only [Option.map_eq_some_iff, toOption_eq_some, decide_eq_true_eq] at hread
  obtain ⟨g, hg, hsize, hterminal, hhelper, hindex, hstart, hfresh, hsecond⟩ := hread
  obtain ⟨k, -, -, hprimes, hloop⟩ :=
    generated_names_fresh.1 g.withoutLeftRecursion "S'"
  obtain ⟨hremoved, halone, a, start, ha, hstart', haccept, -, hadded, -, -, hlone⟩ :=
    generated_names_fresh.2 g.withoutLeftRecursion (.withoutLeftRecursion (.read hg))
  obtain rfl : start = "S" := Option.some.inj (hstart'.symm.trans hstart)
  obtain ⟨hfree, hsecond'⟩ := halone 5 "S\x27\x27\x27" hsize.le hsecond
  exact ⟨g, _, a, hg, rfl, hsize, hterminal, hhelper, (hloop _).mpr (hfresh.symm.trans hprimes), hfree,
    hsecond, hsecond', (hremoved.index?_iff "S'" 4).mpr (.inl hindex), ha, haccept.trans hsize,
    (hadded.index?_iff "S'" 4).mpr (.inl hindex), fun j hj => (hlone j hj).trans (haccept.trans hsize)⟩

end Lookahead
