import Lookahead.Proofs.Grammar.Derivation
import Lookahead.Proofs.Grammar.WellFormed
import Lookahead.Proofs.Sets.Settle
import Lookahead.Sets.First
import Mathlib.Data.Finset.Prod
import Mathlib.Tactic

/-!
The FIRST sets that the sweeps end with are closed under the rules: the set of a nonterminal holds
what the sets of its alternatives hold, and nothing else. Hence whatever begins a word that a string
derives is in the set of the string, and a string that derives the empty word is nullable.
-/

namespace Lookahead

namespace FirstSet

/-- What a set says: that the terminal can come first, or for `none` that nothing has to come. -/
def Has (f : FirstSet) : Option Nat → Prop
  | .none => f.nullable = true
  | .some t => t ∈ f.terminals

@[simp] theorem not_has_none (o : Option Nat) : ¬ none.Has o := by
  cases o <;> simp [Has, none, SortedSet.not_mem_empty]

@[simp] theorem has_nothing {o : Option Nat} : nothing.Has o ↔ o = .none := by
  cases o <;> simp [Has, nothing, SortedSet.not_mem_empty]

@[simp] theorem has_terminal {t : Nat} {o : Option Nat} : (terminal t).Has o ↔ o = .some t := by
  cases o <;> simp [Has, terminal]

@[simp] theorem has_or {a b : FirstSet} {o : Option Nat} : (a.or b).Has o ↔ a.Has o ∨ b.Has o := by
  cases o <;> simp [Has, or]

/-- Two parts begin as the first one does or, if that can vanish, as the second. -/
theorem has_andThen {a b : FirstSet} {o : Option Nat} :
    (a.andThen b).Has o ↔ a.Has o ∧ o ≠ .none ∨ a.Has .none ∧ b.Has o := by
  unfold andThen
  cases o <;> by_cases ha : a.nullable = true <;> simp [Has, ha]

theorem ext_has {a b : FirstSet} (h : ∀ o, a.Has o ↔ b.Has o) : a = b := by
  obtain ⟨terminals, nullable⟩ := a
  obtain ⟨terminals', nullable'⟩ := b
  have hterminals : terminals = terminals' := SortedSet.ext fun t => h (.some t)
  have hnullable : nullable = nullable' := Bool.eq_iff_iff.mpr (h .none)
  rw [hterminals, hnullable]

end FirstSet

namespace FirstTable

def Says (table : FirstTable) (fact : Nat × Option Nat) : Prop := (table.ofSymbol fact.1).Has fact.2

variable {table table' : FirstTable}

theorem ofSequence_cons (s : Nat) (symbols : List Nat) :
    table.ofSequence (s :: symbols) = (table.ofSymbol s).andThen (table.ofSequence symbols) := rfl

theorem has_ofSequence_append {u v : List Nat} {o : Option Nat} :
    (table.ofSequence (u ++ v)).Has o ↔
      (table.ofSequence u).Has o ∧ o ≠ none ∨
        (table.ofSequence u).Has none ∧ (table.ofSequence v).Has o := by
  induction u with
  | nil => simp [ofSequence]
  | cons s u ih =>
      simp only [List.cons_append, ofSequence_cons, FirstSet.has_andThen, ih]
      tauto

theorem has_ofBodies {bodies : List Body} {o : Option Nat} :
    (table.ofBodies bodies).Has o ↔ ∃ body ∈ bodies, (table.ofSequence body).Has o := by
  suffices ∀ f : FirstSet, (bodies.foldl (fun f body => f.or (table.ofSequence body)) f).Has o ↔
      f.Has o ∨ ∃ body ∈ bodies, (table.ofSequence body).Has o by
    simpa [ofBodies] using this .none
  induction bodies with
  | nil => simp
  | cons body bodies ih =>
      intro f
      rw [List.foldl_cons, ih, FirstSet.has_or, List.exists_mem_cons_iff, or_assoc]

/-- A table that says more of the symbols says more of every string. -/
theorem ofSequence_mono (h : ∀ fact, table.Says fact → table'.Says fact) {symbols : List Nat}
    {o : Option Nat} (ho : (table.ofSequence symbols).Has o) :
    (table'.ofSequence symbols).Has o := by
  induction symbols generalizing o with
  | nil => exact ho
  | cons s symbols ih =>
      rw [ofSequence_cons, FirstSet.has_andThen] at ho ⊢
      rcases ho with ⟨ho, hne⟩ | ⟨hnull, ho⟩
      · exact .inl ⟨h (s, o) ho, hne⟩
      · exact .inr ⟨h (s, none) hnull, ih ho⟩

theorem ofBodies_mono (h : ∀ fact, table.Says fact → table'.Says fact) {bodies : List Body}
    {o : Option Nat} (ho : (table.ofBodies bodies).Has o) : (table'.ofBodies bodies).Has o := by
  obtain ⟨body, hbody, ho⟩ := has_ofBodies.mp ho
  exact has_ofBodies.mpr ⟨body, hbody, ofSequence_mono h ho⟩

/-- What is true of the table before the first sweep and after each update: it is complete and right
for the symbols that are no nonterminals, and says of a nonterminal only what its alternatives bear
out. -/
structure Grounded (g : Grammar) (table : FirstTable) : Prop where
  size_eq : table.size = g.size
  ofSymbol_terminal : ∀ {t : Nat}, g.isTerminal t = true → table.ofSymbol t = .terminal t
  ofSymbol_epsilon : table.ofSymbol epsilon = .nothing
  isTerminal_of_has : ∀ {s t : Nat}, s < g.size → (table.ofSymbol s).Has (some t) →
    g.isTerminal t = true
  borneOut : ∀ n ∈ g.nonterminals, ∀ o, (table.ofSymbol n.index).Has o →
    (table.ofBodies n.bodies).Has o

/-- Only terminals come first. -/
theorem Grounded.isTerminal_of_ofSequence {g : Grammar} (h : table.Grounded g)
    {symbols : List Nat} (hsymbols : ∀ s ∈ symbols, s < g.size) {t : Nat}
    (ht : (table.ofSequence symbols).Has (some t)) : g.isTerminal t = true := by
  induction symbols with
  | nil => simp [ofSequence] at ht
  | cons s symbols ih =>
      rw [ofSequence_cons, FirstSet.has_andThen] at ht
      rcases ht with ⟨ht, _⟩ | ⟨_, ht⟩
      · exact h.isTerminal_of_has (hsymbols s (by simp)) ht
      · exact ih (fun r hr => hsymbols r (by simp [hr])) ht

theorem Grounded.has_visible {g : Grammar} (h : table.Grounded g) {body : Body}
    {o : Option Nat} :
    (table.ofSequence body.visible).Has o ↔ (table.ofSequence body).Has o := by
  induction body generalizing o with
  | nil => rfl
  | cons s body ih =>
      by_cases hs : s = epsilon
      · subst hs
        have hvisible : Body.visible (epsilon :: body) = Body.visible body := by
          simp [Body.visible]
        rw [hvisible, ih]
        simp [ofSequence_cons, h.ofSymbol_epsilon, FirstSet.has_andThen]
      · rw [Body.visible_cons hs]
        simp only [ofSequence_cons, FirstSet.has_andThen, ih]

theorem Grounded.determines (g : Grammar) : Determines (Grounded g) Says := by
  intro table table' h h' hsame
  have hsize : table.size = table'.size := h.size_eq.trans h'.size_eq.symm
  apply Array.ext hsize
  intro i hi hi'
  have heq : table.ofSymbol i = table'.ofSymbol i := FirstSet.ext_has fun o => hsame (i, o)
  simpa [ofSymbol, hi, hi'] using heq

end FirstTable

namespace Grammar

open FirstTable

variable {g : Grammar}

theorem ofSymbol_initialFirst {i : Nat} (hi : i < g.size) :
    g.initialFirst.ofSymbol i =
      if g.isTerminal i then .terminal i else if i = epsilon then .nothing else .none := by
  simp [initialFirst, ofSymbol, hi]

theorem grounded_initialFirst (hg : g.WellFormed) : Grounded g g.initialFirst where
  size_eq := by simp [initialFirst]
  ofSymbol_terminal ht := by
    rw [ofSymbol_initialFirst (lt_size_of_isTerminal ht), if_pos ht]
  ofSymbol_epsilon := by
    have hlt : epsilon < g.size := lt_size_of_getElem? hg.epsilon_symbol
    simp [ofSymbol_initialFirst hlt, hg.not_isTerminal_epsilon]
  isTerminal_of_has {s t} hs ht := by
    rw [ofSymbol_initialFirst hs] at ht
    split at ht
    · next hterm =>
        obtain rfl : t = s := by simpa using ht
        exact hterm
    · split at ht <;> simp at ht
  borneOut n hn o ho := by
    have hnon := hg.isNonterminal_index hn
    have hterm : g.isTerminal n.index = false := by
      rw [Bool.eq_false_iff]
      intro hterm
      rw [not_isNonterminal_of_isTerminal hterm] at hnon
      cases hnon
    have hne := (isNonterminal_iff.mp hnon).1
    simp [ofSymbol_initialFirst (lt_size_of_isNonterminal hnon), hterm, hne] at ho

theorem ofSymbol_updateFirst {table : FirstTable} {n : Nonterminal} (hn : n.index < table.size)
    (s : Nat) :
    (updateFirst table n).ofSymbol s =
      if s = n.index then table.ofBodies n.bodies else table.ofSymbol s := by
  unfold updateFirst ofSymbol
  by_cases hs : s = n.index
  · simp [hs, hn]
  · simp [Ne.symm hs, hs]

/-- An update forgets nothing: what the table said was borne out by the alternatives. -/
theorem says_updateFirst {table : FirstTable} (h : Grounded g table) {n : Nonterminal}
    (hg : g.WellFormed) (hn : n ∈ g.nonterminals) (fact : Nat × Option Nat)
    (hfact : table.Says fact) : (updateFirst table n).Says fact := by
  obtain ⟨s, o⟩ := fact
  have hlt : n.index < table.size :=
    h.size_eq ▸ lt_size_of_isNonterminal (hg.isNonterminal_index hn)
  unfold Says
  rw [ofSymbol_updateFirst hlt]
  split
  · next hs =>
      change s = n.index at hs
      subst hs
      exact h.borneOut n hn o hfact
  · exact hfact

/-- An update keeps a table grounded. -/
theorem Grounded.updateFirst {table : FirstTable} (h : Grounded g table) {n : Nonterminal}
    (hg : g.WellFormed) (hn : n ∈ g.nonterminals) : Grounded g (updateFirst table n) := by
  have hnon := hg.isNonterminal_index hn
  have hlt : n.index < table.size := h.size_eq ▸ lt_size_of_isNonterminal hnon
  constructor
  · simpa [Grammar.updateFirst] using h.size_eq
  · intro t ht
    have hne : t ≠ n.index := by
      rintro rfl
      rw [not_isNonterminal_of_isTerminal ht] at hnon
      cases hnon
    rw [ofSymbol_updateFirst hlt, if_neg hne, h.ofSymbol_terminal ht]
  · have hne : epsilon ≠ n.index := (hg.mem_nonterminals.mp hn).1.symm
    rw [ofSymbol_updateFirst hlt, if_neg hne, h.ofSymbol_epsilon]
  · intro s t hs ht
    rw [ofSymbol_updateFirst hlt] at ht
    split at ht
    · obtain ⟨body, hbody, ht⟩ := has_ofBodies.mp ht
      rw [← hg.bodies_index hn] at hbody
      exact h.isTerminal_of_ofSequence ((hg.fits hbody).lt_size hg) ht
    · exact h.isTerminal_of_has hs ht
  · intro m hm o ho
    apply ofBodies_mono (says_updateFirst h hg hn)
    rw [ofSymbol_updateFirst hlt] at ho
    split at ho
    · next hindex =>
        have hbodies : m.bodies = n.bodies := by
          rw [← hg.bodies_index hm, hindex, hg.bodies_index hn]
        rwa [hbodies]
    · exact h.borneOut m hm o ho

theorem adds_updateFirst (hg : g.WellFormed) :
    ∀ n ∈ g.nonterminals, Adds (Grounded g) Says (updateFirst · n) :=
  fun _ hn => ⟨fun _ h => Grounded.updateFirst h hg hn,
    fun _ fact h => says_updateFirst h hg hn fact⟩

theorem adds_sweepFirst (hg : g.WellFormed) : Adds (Grounded g) Says g.sweepFirst :=
  Adds.foldl (adds_updateFirst hg)

def firstFacts (g : Grammar) : Finset (Nat × Option Nat) :=
  Finset.range g.size ×ˢ Finset.insertNone (Finset.range g.size)

/-- There are fewer facts than sweeps. -/
theorem card_firstFacts_lt : g.firstFacts.card < g.sweepLimit := by
  simp only [firstFacts, Finset.card_product, Finset.card_range, Finset.card_insertNone, sweepLimit]
  have : g.size * (g.size + 1) ≤ g.size * (g.size + g.occurrences + 1) :=
    Nat.mul_le_mul_left _ (by omega)
  omega

theorem says_sweepFirst_or_mem (hg : g.WellFormed) {table : FirstTable} (h : Grounded g table)
    (fact : Nat × Option Nat) (hfact : (g.sweepFirst table).Says fact) :
    table.Says fact ∨ fact ∈ g.firstFacts := by
  obtain ⟨s, o⟩ := fact
  have h' := (adds_sweepFirst hg).keeps table h
  by_cases hs : s < g.size
  · refine .inr (Finset.mem_product.mpr ⟨Finset.mem_range.mpr hs, ?_⟩)
    cases o with
    | none => exact Finset.none_mem_insertNone
    | some t =>
        have ht := h'.isTerminal_of_has hs hfact
        exact Finset.some_mem_insertNone.mpr (Finset.mem_range.mpr (lt_size_of_isTerminal ht))
  · -- a symbol outside the grammar has the same set in every table
    have hsize : table.size ≤ s ∧ (g.sweepFirst table).size ≤ s := by
      rw [h.size_eq, h'.size_eq]
      omega
    simp only [Says, ofSymbol, Array.getElem?_eq_none hsize.2] at hfact
    exact .inl (by simpa only [Says, ofSymbol, Array.getElem?_eq_none hsize.1] using hfact)

theorem sweepFirst_eq_of_says (hg : g.WellFormed) {table : FirstTable} (h : Grounded g table)
    (hback : ∀ fact, (g.sweepFirst table).Says fact → table.Says fact) :
    g.sweepFirst table = table := by
  apply Grounded.determines g _ _ ((adds_sweepFirst hg).keeps table h) h
  intro fact
  exact ⟨hback fact, (adds_sweepFirst hg).grows table fact h⟩

theorem table_firstSets :
    g.firstSets.table = (settle g.sweepFirst g.sweepLimit g.initialFirst).1 := rfl

theorem grounded_firstSets (hg : g.WellFormed) : Grounded g g.firstSets.table := by
  rw [table_firstSets]
  exact (adds_sweepFirst hg).settle_keeps _ (grounded_initialFirst hg)

/-- One more sweep changes nothing. -/
theorem sweepFirst_firstSets (hg : g.WellFormed) :
    g.sweepFirst g.firstSets.table = g.firstSets.table := by
  rw [table_firstSets]
  exact (adds_sweepFirst hg).settle_fixed
    (fun table fact h => says_sweepFirst_or_mem hg h fact)
    (fun _ h => sweepFirst_eq_of_says hg h) card_firstFacts_lt.le (grounded_initialFirst hg)

namespace WellFormed

variable (hg : g.WellFormed)

include hg

theorem first_terminal {t : Nat} (ht : g.isTerminal t = true) :
    g.firstSets.ofSymbol t = .terminal t :=
  (grounded_firstSets hg).ofSymbol_terminal ht

/-- The set of a nonterminal is the union of the sets of its alternatives. -/
theorem first_nonterminal {left : Nat} (hleft : g.isNonterminal left = true) {o : Option Nat} :
    (g.firstSets.ofSymbol left).Has o ↔
      ∃ body ∈ g.bodies left, (g.firstSets.ofSequence body).Has o := by
  obtain ⟨n, hn, rfl, hbodies⟩ := hg.exists_nonterminal hleft
  have hground := grounded_firstSets hg
  have hfixed : updateFirst g.firstSets.table n = g.firstSets.table :=
    Adds.foldl_fixed (Grounded.determines g) (adds_updateFirst hg) hground
      (sweepFirst_firstSets hg) n hn
  have hlt : n.index < g.firstSets.table.size := hground.size_eq ▸ lt_size_of_isNonterminal hleft
  have hset : g.firstSets.ofSymbol n.index = g.firstSets.table.ofBodies n.bodies := by
    have hupdate := ofSymbol_updateFirst hlt n.index
    rwa [hfixed, if_pos rfl] at hupdate
  rw [hset, has_ofBodies, hbodies]
  rfl

theorem first_visible {body : Body} {o : Option Nat} :
    (g.firstSets.ofSequence body.visible).Has o ↔ (g.firstSets.ofSequence body).Has o :=
  (grounded_firstSets hg).has_visible

/-- An alternative adds nothing that its left side does not have. -/
theorem first_left_of_first_body {left : Nat} {body : Body} (hbody : body ∈ g.bodies left)
    {o : Option Nat} (ho : (g.firstSets.ofSequence body.visible).Has o) :
    (g.firstSets.ofSymbol left).Has o :=
  (hg.first_nonterminal (hg.isNonterminal_of_mem_bodies hbody)).mpr
    ⟨body, hbody, hg.first_visible.mp ho⟩

theorem isTerminal_of_first {symbols : List Nat} (hsymbols : ∀ s ∈ symbols, s < g.size) {t : Nat}
    (ht : (g.firstSets.ofSequence symbols).Has (some t)) : g.isTerminal t = true :=
  (grounded_firstSets hg).isTerminal_of_ofSequence hsymbols ht

end WellFormed

/-- What a string begins with, symbol by symbol. -/
theorem first_cons {s : Nat} {symbols : List Nat} {o : Option Nat} :
    (g.firstSets.ofSequence (s :: symbols)).Has o ↔
      (g.firstSets.ofSymbol s).Has o ∧ o ≠ none ∨
        (g.firstSets.ofSymbol s).Has none ∧ (g.firstSets.ofSequence symbols).Has o :=
  FirstSet.has_andThen

theorem WellFormed.first_cons_terminal (hg : g.WellFormed) {t : Nat} {rest : List Nat}
    (ht : g.isTerminal t = true) : (g.firstSets.ofSequence (t :: rest)).Has (some t) := by
  refine first_cons.mpr (.inl ⟨?_, by simp⟩)
  rw [hg.first_terminal ht]
  exact FirstSet.has_terminal.mpr rfl

theorem first_append {u v : List Nat} {o : Option Nat} :
    (g.firstSets.ofSequence (u ++ v)).Has o ↔
      (g.firstSets.ofSequence u).Has o ∧ o ≠ none ∨
        (g.firstSets.ofSequence u).Has none ∧ (g.firstSets.ofSequence v).Has o :=
  has_ofSequence_append

theorem first_singleton {s : Nat} {o : Option Nat} :
    (g.firstSets.ofSequence [s]).Has o ↔ (g.firstSets.ofSymbol s).Has o := by
  rw [first_cons]
  cases o <;> simp [FirstSets.ofSequence, ofSequence]

theorem first_cons_none {s : Nat} {symbols : List Nat} :
    (g.firstSets.ofSequence (s :: symbols)).Has none ↔
      (g.firstSets.ofSymbol s).Has none ∧ (g.firstSets.ofSequence symbols).Has none := by
  simp [first_cons]

theorem first_append_none {u v : List Nat} :
    (g.firstSets.ofSequence (u ++ v)).Has none ↔
      (g.firstSets.ofSequence u).Has none ∧ (g.firstSets.ofSequence v).Has none := by
  simp [first_append]

/-- A string has all that the strings derived from it have. -/
theorem Produces.first (hg : g.WellFormed) {before after : List Nat} (h : g.Produces before after)
    {o : Option Nat} (ho : (g.firstSets.ofSequence after).Has o) :
    (g.firstSets.ofSequence before).Has o := by
  obtain ⟨left, body, front, rest, hbody, rfl, rfl⟩ := h
  rw [List.append_assoc, first_append] at ho
  refine first_append.mpr (ho.imp id fun ⟨hfront, ho⟩ => ⟨hfront, first_cons.mpr ?_⟩)
  refine (first_append.mp ho).imp ?_ ?_
  · rintro ⟨hinner, hne⟩
    exact ⟨hg.first_left_of_first_body hbody hinner, hne⟩
  · rintro ⟨hinner, ho⟩
    exact ⟨hg.first_left_of_first_body hbody hinner, ho⟩

/-- A string can begin with whatever a string derived from it can begin with. -/
theorem Derives.first (hg : g.WellFormed) {u v : List Nat} (h : g.Derives u v) {o : Option Nat}
    (ho : (g.firstSets.ofSequence v).Has o) : (g.firstSets.ofSequence u).Has o := by
  induction h with
  | refl => exact ho
  | tail _ hstep ih => exact ih (hstep.first hg ho)

/-- The set of a string knows how every word that the string yields begins. -/
theorem Yields.first (hg : g.WellFormed) {symbols word : List Nat} (h : g.Yields symbols word) :
    (g.firstSets.ofSequence symbols).Has word.head? := by
  apply h.derives.first hg
  cases word with
  | nil => exact FirstSet.has_nothing.mpr rfl
  | cons t word => exact hg.first_cons_terminal (h.isTerminal_of_mem t (by simp))

theorem Yields.first_append (hg : g.WellFormed) {u v x y : List Nat} (hu : g.Yields u x)
    (hv : (g.firstSets.ofSequence v).Has y.head?) :
    (g.firstSets.ofSequence (u ++ v)).Has (x ++ y).head? := by
  have hfirst := hu.first hg
  rw [Grammar.first_append]
  cases x with
  | nil => exact .inr ⟨hfirst, hv⟩
  | cons t x => exact .inl ⟨hfirst, by simp⟩

end Grammar
end Lookahead
