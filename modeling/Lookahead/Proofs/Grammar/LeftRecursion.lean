import Lookahead.Grammar.LeftRecursion
import Lookahead.Proofs.Grammar.WellFormed

/-!
One step of the removal of left recursion, described by what it does to the alternatives of each
symbol: the nonterminal at hand gets new ones, a helper may appear with the next number, and all
other symbols keep theirs. The step, and so the whole removal, keeps a grammar well-formed and its
start symbol in place.
-/

namespace Lookahead.Grammar

variable {g : Grammar}

/-- An expanded alternative is one that begins with no earlier nonterminal, or one in which the earlier
nonterminal at the front gave way to an alternative of its own. -/
theorem mem_expandFirst {earlier : List Nat} {bodies : List Body} {body : Body} :
    body ∈ g.expandFirst earlier bodies ↔
      (body ∈ bodies ∧ ∀ first ∈ body.head?, first ∉ earlier) ∨
        ∃ first rest inner, first :: rest ∈ bodies ∧ first ∈ earlier ∧
          inner ∈ g.bodies first ∧ body = splice inner rest := by
  unfold expandFirst
  rw [List.mem_flatMap]
  constructor
  · rintro ⟨outer, houter, hbody⟩
    cases outer with
    | nil =>
        obtain rfl := List.mem_singleton.mp hbody
        exact .inl ⟨houter, by simp⟩
    | cons first rest =>
        by_cases hfirst : first ∈ earlier
        · simp only [hfirst, ↓reduceIte, List.mem_map] at hbody
          obtain ⟨inner, hinner, rfl⟩ := hbody
          exact .inr ⟨first, rest, inner, houter, hfirst, hinner, rfl⟩
        · simp only [hfirst, ↓reduceIte, List.mem_singleton] at hbody
          subst hbody
          exact .inl ⟨houter, by simpa using hfirst⟩
  · rintro (⟨hbody, hhead⟩ | ⟨first, rest, inner, houter, hfirst, hinner, rfl⟩)
    · refine ⟨body, hbody, ?_⟩
      cases body with
      | nil => simp
      | cons first rest =>
          have hfirst : first ∉ earlier := hhead first (by simp)
          simp [hfirst]
    · refine ⟨first :: rest, houter, ?_⟩
      simp only [hfirst, ↓reduceIte, List.mem_map]
      exact ⟨inner, hinner, rfl⟩

theorem mem_recursiveTails {left : Nat} {bodies : List Body} {tail : Body} :
    tail ∈ recursiveTails left bodies ↔ left :: tail ∈ bodies ∧ tail ≠ [] := by
  unfold recursiveTails
  rw [List.mem_filterMap]
  constructor
  · rintro ⟨body, hbody, htail⟩
    cases body with
    | nil => cases htail
    | cons first rest =>
        simp only [Option.ite_none_right_eq_some, Option.some.injEq] at htail
        obtain ⟨⟨rfl, hne⟩, rfl⟩ := htail
        exact ⟨hbody, hne⟩
  · rintro ⟨hbody, hne⟩
    exact ⟨left :: tail, hbody, by simp [hne]⟩

theorem mem_nonRecursive {left : Nat} {bodies : List Body} {body : Body} :
    body ∈ nonRecursive left bodies ↔ body ∈ bodies ∧ body.head? ≠ some left := by
  simp [nonRecursive]

/-- The alternatives of `left` once those of the earlier nonterminals are put in. -/
def expanded (g : Grammar) (earlier : List Nat) (left : Nat) : List Body :=
  g.expandFirst earlier (g.bodies left)

theorem WellFormed.covers_expanded (h : g.WellFormed) {earlier : List Nat} {left : Nat}
    {body : Body} (hbody : body ∈ g.expanded earlier left) : g.Covers body := by
  rcases mem_expandFirst.mp hbody with ⟨hbody, _⟩ | ⟨first, rest, inner, houter, _, hinner, rfl⟩
  · exact (h.fits hbody).covers
  · have hrest : g.Covers rest := (h.fits houter).covers.subset (List.subset_cons_self _ _)
    exact ((h.fits hinner).covers.append hrest).visible

theorem WellFormed.covers_recursiveTails (h : g.WellFormed) {earlier : List Nat} {left : Nat}
    {tail : Body} (htail : tail ∈ recursiveTails left (g.expanded earlier left)) :
    g.Covers tail :=
  (h.covers_expanded (mem_recursiveTails.mp htail).1).subset (List.subset_cons_self _ _)

theorem WellFormed.covers_size (h : g.WellFormed) (name : String) :
    (g.addNonterminal name).Covers [g.size] := by
  intro s hs _
  obtain rfl := List.mem_singleton.mp hs
  exact ⟨h.endMark_lt_size, by simp⟩

/-- The step when nothing is left recursive. -/
theorem removeRecursionOf_of_nil {earlier : List Nat} {left : Nonterminal}
    (htails : recursiveTails left.index (g.expanded earlier left.index) = []) :
    (g.removeRecursionOf earlier left).1 =
      (g.clearBodies left.index).addBodies left.index
        (nonRecursive left.index (g.expanded earlier left.index)) := by
  unfold expanded at htails ⊢
  simp [removeRecursionOf, htails]

/-- The step when something is left recursive. The helper has the number `g.size`. -/
theorem removeRecursionOf_of_ne_nil {earlier : List Nat} {left : Nonterminal}
    (htails : recursiveTails left.index (g.expanded earlier left.index) ≠ []) :
    (g.removeRecursionOf earlier left).1 =
      (((g.clearBodies left.index).addNonterminal (g.freshName left.name)).addBodies left.index
        ((nonRecursive left.index (g.expanded earlier left.index)).map
          fun body => body.visible ++ [g.size])).addBodies g.size
        ((recursiveTails left.index (g.expanded earlier left.index)).map (· ++ [g.size]) ++
          [[epsilon]]) := by
  unfold expanded at htails ⊢
  simp [removeRecursionOf, htails]

/-! The alternatives after one step: those of the nonterminal at hand, those of the helper, and all
others. -/

/-- The helper behind the alternatives that the step keeps, if it needs one. -/
def helper (g : Grammar) (earlier : List Nat) (left : Nat) : List Nat :=
  if recursiveTails left (g.expanded earlier left) = [] then [] else [g.size]

theorem mem_helper {earlier : List Nat} {left s : Nat} (h : s ∈ g.helper earlier left) :
    s = g.size := by
  unfold helper at h
  split at h
  · cases h
  · exact List.mem_singleton.mp h

/-- A step leaves `left` the expanded alternatives that do not begin with it, each with the helper
behind it. -/
theorem bodies_removeRecursionOf {earlier : List Nat} {left : Nonterminal}
    (hleft : g.isNonterminal left.index = true) :
    (g.removeRecursionOf earlier left).1.bodies left.index =
      (nonRecursive left.index (g.expanded earlier left.index)).map
        fun body => Body.normalize (body.visible ++ g.helper earlier left.index) := by
  by_cases htails : recursiveTails left.index (g.expanded earlier left.index) = []
  · rw [removeRecursionOf_of_nil htails, addBodies_eq, bodies_updateBodies, Grammar.clearBodies,
      bodies_updateBodies]
    simp [hleft, helper, htails, Body.normalize_visible]
  · rw [removeRecursionOf_of_ne_nil htails, addBodies_eq, addBodies_eq, bodies_updateBodies,
      if_neg (fun h => (lt_size_of_isNonterminal hleft).ne h.1), bodies_updateBodies,
      bodies_addNonterminal, Grammar.clearBodies, bodies_updateBodies]
    simp [hleft, helper, htails, isNonterminal_addNonterminal]

/-- If alternatives are recursive, the helper has their tails, each with the helper behind it, and the
empty string. -/
theorem bodies_removeRecursionOf_size {earlier : List Nat} {left : Nonterminal}
    (hleft : left.index < g.size) :
    (g.removeRecursionOf earlier left).1.bodies g.size =
      if recursiveTails left.index (g.expanded earlier left.index) = [] then []
      else ((recursiveTails left.index (g.expanded earlier left.index)).map (· ++ [g.size]) ++
        [[epsilon]]).map Body.normalize := by
  have hnone : g.bodies g.size = [] := bodies_size
  by_cases htails : recursiveTails left.index (g.expanded earlier left.index) = []
  · rw [removeRecursionOf_of_nil htails, addBodies_eq, bodies_updateBodies, Grammar.clearBodies,
      bodies_updateBodies]
    simp [htails, hleft.ne', hnone]
  · have hne : g.size ≠ epsilon := by
      simp only [epsilon]
      omega
    rw [removeRecursionOf_of_ne_nil htails, addBodies_eq, addBodies_eq, bodies_updateBodies,
      bodies_updateBodies, bodies_addNonterminal, Grammar.clearBodies, bodies_updateBodies]
    simp [htails, hleft.ne', hnone, isNonterminal_addNonterminal, hne]

/-- The alternatives of all other symbols stay as they are. -/
theorem bodies_removeRecursionOf_of_ne {earlier : List Nat} {left : Nonterminal} {i : Nat}
    (hleft : i ≠ left.index) (hsize : i ≠ g.size) :
    (g.removeRecursionOf earlier left).1.bodies i = g.bodies i := by
  by_cases htails : recursiveTails left.index (g.expanded earlier left.index) = []
  · rw [removeRecursionOf_of_nil htails, addBodies_eq, bodies_updateBodies, Grammar.clearBodies,
      bodies_updateBodies]
    simp [hleft]
  · rw [removeRecursionOf_of_ne_nil htails, addBodies_eq, addBodies_eq, bodies_updateBodies,
      bodies_updateBodies, bodies_addNonterminal, Grammar.clearBodies, bodies_updateBodies]
    simp [hleft, hsize]

/-- A step of the removal keeps a grammar well-formed. -/
theorem WellFormed.removeRecursionOf (h : g.WellFormed) (earlier : List Nat)
    (left : Nonterminal) : (g.removeRecursionOf earlier left).1.WellFormed := by
  by_cases htails : recursiveTails left.index (g.expanded earlier left.index) = []
  · rw [removeRecursionOf_of_nil htails]
    apply (h.clearBodies _).addBodies
    intro body hbody
    exact (h.covers_expanded (mem_nonRecursive.mp hbody).1).mono (by simp [Grammar.clearBodies])
  · rw [removeRecursionOf_of_ne_nil htails]
    have hsize : (g.clearBodies left.index).size = g.size := size_updateBodies _ _
    have hfresh : (g.clearBodies left.index).index? (g.freshName left.name) = none := by
      rw [Grammar.clearBodies, index?_updateBodies, index?_freshName]
    have hhelper := (h.clearBodies left.index).covers_size (g.freshName left.name)
    rw [hsize] at hhelper
    have hmono {symbols : List Nat} (hcovers : g.Covers symbols) :
        ((g.clearBodies left.index).addNonterminal (g.freshName left.name)).Covers symbols :=
      hcovers.mono (by rw [size_addNonterminal, hsize]; omega)
    refine (((h.clearBodies _).addNonterminal hfresh).addBodies ?_).addBodies ?_
    · intro body hbody
      obtain ⟨inner, hinner, rfl⟩ := List.mem_map.mp hbody
      exact (hmono (h.covers_expanded (mem_nonRecursive.mp hinner).1).visible).append hhelper
    · intro body hbody
      rw [addBodies_eq]
      rcases List.mem_append.mp hbody with hbody | hbody
      · obtain ⟨tail, htail, rfl⟩ := List.mem_map.mp hbody
        exact ((hmono (h.covers_recursiveTails htail)).append hhelper).mono (by simp)
      · obtain rfl := List.mem_singleton.mp hbody
        simp [Covers]

/-- What the removal leaves alone: the symbols that were there keep their numbers, their names and
their kinds, and the start symbol stays. Symbols that are added are nonterminals. -/
structure Extends (g g' : Grammar) : Prop where
  size_le : g.size ≤ g'.size
  name?_eq : ∀ i < g.size, g'.name? i = g.name? i
  isTerminal_eq : ∀ i, g'.isTerminal i = g.isTerminal i
  isNonterminal_eq : ∀ i < g.size, g'.isNonterminal i = g.isNonterminal i
  start_eq : g.start ≠ epsilon → g'.start = g.start

theorem Extends.refl : g.Extends g :=
  ⟨le_rfl, fun _ _ => rfl, fun _ => rfl, fun _ _ => rfl, fun _ => rfl⟩

theorem Extends.trans {g₁ g₂ g₃ : Grammar} (h : g₁.Extends g₂) (h' : g₂.Extends g₃) :
    g₁.Extends g₃ where
  size_le := h.size_le.trans h'.size_le
  name?_eq i hi := (h'.name?_eq i (hi.trans_le h.size_le)).trans (h.name?_eq i hi)
  isTerminal_eq i := (h'.isTerminal_eq i).trans (h.isTerminal_eq i)
  isNonterminal_eq i hi :=
    (h'.isNonterminal_eq i (hi.trans_le h.size_le)).trans (h.isNonterminal_eq i hi)
  start_eq hne := by
    have hstart := h.start_eq hne
    exact (h'.start_eq (hstart ▸ hne)).trans hstart

theorem extends_updateBodies (left : Nat) (f : List Body → List Body) :
    g.Extends (g.updateBodies left f) :=
  ⟨by simp, by simp, by simp, by simp, by simp⟩

theorem extends_addNonterminal (name : String) : g.Extends (g.addNonterminal name) where
  size_le := by simp
  name?_eq i hi := by rw [name?_addNonterminal, if_neg hi.ne]
  isTerminal_eq := isTerminal_addNonterminal name
  isNonterminal_eq i hi := by simp [isNonterminal_addNonterminal, hi.ne]
  start_eq hne := by simp [addNonterminal, hne]

/-- A step of the removal leaves the symbols alone that were there. -/
theorem extends_removeRecursionOf (earlier : List Nat) (left : Nonterminal) :
    g.Extends (g.removeRecursionOf earlier left).1 := by
  by_cases htails : recursiveTails left.index (g.expanded earlier left.index) = []
  · rw [removeRecursionOf_of_nil htails, addBodies_eq]
    exact (extends_updateBodies _ _).trans (extends_updateBodies _ _)
  · rw [removeRecursionOf_of_ne_nil htails, addBodies_eq, addBodies_eq]
    exact (extends_updateBodies _ _).trans <| (extends_addNonterminal _).trans <|
      (extends_updateBodies _ _).trans (extends_updateBodies _ _)

theorem removeRecursionFrom_cons (earlier : List Nat) (left : Nonterminal)
    (rest : List Nonterminal) :
    (g.removeRecursionFrom earlier (left :: rest)).1 =
      ((g.removeRecursionOf earlier left).1.removeRecursionFrom
        (earlier ++ [left.index]) rest).1 := rfl

theorem extends_removeRecursionFrom (earlier : List Nat) (lefts : List Nonterminal) :
    g.Extends (g.removeRecursionFrom earlier lefts).1 := by
  induction lefts generalizing g earlier with
  | nil => exact .refl
  | cons left lefts ih =>
      rw [removeRecursionFrom_cons]
      exact (extends_removeRecursionOf earlier left).trans (ih _)

theorem WellFormed.removeRecursionFrom (h : g.WellFormed) (earlier : List Nat)
    (lefts : List Nonterminal) : (g.removeRecursionFrom earlier lefts).1.WellFormed := by
  induction lefts generalizing g earlier with
  | nil => exact h
  | cons left lefts ih =>
      rw [removeRecursionFrom_cons]
      exact ih (h.removeRecursionOf earlier left) _

theorem extends_withoutLeftRecursion : g.Extends g.withoutLeftRecursion :=
  extends_removeRecursionFrom [] g.nonterminals

/-- The removal keeps a grammar well-formed, and its start symbol a nonterminal. -/
theorem WellFormed.withoutLeftRecursion (h : g.WellFormed)
    (hstart : g.isNonterminal g.start = true) :
    g.withoutLeftRecursion.WellFormed ∧
      g.withoutLeftRecursion.isNonterminal g.withoutLeftRecursion.start = true := by
  have hext : g.Extends g.withoutLeftRecursion := extends_withoutLeftRecursion
  refine ⟨h.removeRecursionFrom [] g.nonterminals, ?_⟩
  rw [hext.start_eq (isNonterminal_iff.mp hstart).1, hext.isNonterminal_eq _ h.start_lt_size]
  exact hstart

end Lookahead.Grammar
