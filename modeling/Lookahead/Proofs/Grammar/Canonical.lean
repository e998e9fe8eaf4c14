import Lookahead.Proofs.Grammar.Derivation

/-!
Leftmost and rightmost derivations, with the alternatives that they use on record. Both are readings
of a derivation tree: the one takes a node, what is below it and what is to the right of it in this
order, the other takes what is to the right of a node first. `Unfolds` holds the two readings of one
tree together, and the reading from the right tells which one is the reading from the left.
-/

namespace Lookahead

structure Rewrite where
  left : Nat
  production : Nat
  deriving DecidableEq

namespace Grammar

variable {g : Grammar}

/-- The alternative takes the place of a nonterminal that has only terminals to its left. -/
def LeftmostStep (g : Grammar) (r : Rewrite) (before after : List Nat) : Prop :=
  ∃ body front rest, (g.bodies r.left)[r.production]? = some body ∧
    (∀ t ∈ front, g.isTerminal t = true) ∧
    before = front ++ r.left :: rest ∧ after = front ++ body.visible ++ rest

/-- The alternative takes the place of a nonterminal that has only terminals to its right. -/
def RightmostStep (g : Grammar) (r : Rewrite) (before after : List Nat) : Prop :=
  ∃ body front rest, (g.bodies r.left)[r.production]? = some body ∧
    (∀ t ∈ rest, g.isTerminal t = true) ∧
    before = front ++ r.left :: rest ∧ after = front ++ body.visible ++ rest

inductive Applies (step : Rewrite → List Nat → List Nat → Prop) :
    List Rewrite → List Nat → List Nat → Prop
  | nil {u : List Nat} : Applies step [] u u
  | cons {r : Rewrite} {rewrites : List Rewrite} {u v w : List Nat} (first : step r u v)
      (following : Applies step rewrites v w) : Applies step (r :: rewrites) u w

def Leftmost (g : Grammar) : List Rewrite → List Nat → List Nat → Prop := Applies g.LeftmostStep

def Rightmost (g : Grammar) : List Rewrite → List Nat → List Nat → Prop := Applies g.RightmostStep

/-- No word has two leftmost derivations from the start symbol. -/
def Unambiguous (g : Grammar) : Prop :=
  ∀ word, (∀ t ∈ word, g.isTerminal t = true) → ∀ rewrites rewrites',
    g.Leftmost rewrites [g.start] word → g.Leftmost rewrites' [g.start] word →
      rewrites = rewrites'

namespace Applies

variable {step : Rewrite → List Nat → List Nat → Prop} {l l' : List Rewrite} {u v w : List Nat}

theorem append (h : Applies step l u v) (h' : Applies step l' v w) : Applies step (l ++ l') u w := by
  induction h with
  | nil => exact h'
  | cons hstep _ ih => exact .cons hstep (ih h')

theorem snoc_iff {r : Rewrite} :
    Applies step (l ++ [r]) u w ↔ ∃ v, Applies step l u v ∧ step r v w := by
  constructor
  · intro h
    induction l generalizing u with
    | nil =>
        cases h with
        | cons hstep hrest =>
            cases hrest
            exact ⟨u, .nil, hstep⟩
    | cons s l ih =>
        cases h with
        | cons hstep hrest =>
            obtain ⟨v, hv, hlast⟩ := ih hrest
            exact ⟨v, .cons hstep hv, hlast⟩
  · rintro ⟨v, hv, hlast⟩
    exact hv.append (.cons hlast .nil)

theorem map {step' : Rewrite → List Nat → List Nat → Prop} {f : List Nat → List Nat}
    (hstep : ∀ {r u v}, step r u v → step' r (f u) (f v)) (h : Applies step l u v) :
    Applies step' l (f u) (f v) := by
  induction h with
  | nil => exact .nil
  | cons hfirst _ ih => exact .cons (hstep hfirst) ih

theorem derives (hstep : ∀ {r u v}, step r u v → g.Produces u v) (h : Applies step l u v) :
    g.Derives u v := by
  induction h with
  | nil => exact .refl
  | cons hfirst _ ih => exact .head (hstep hfirst) ih

end Applies

theorem isTerminal_eq_false_of_bodies {left i : Nat} {body : Body}
    (h : (g.bodies left)[i]? = some body) : g.isTerminal left = false := by
  apply Bool.eq_false_iff.mpr
  intro hterm
  exact not_mem_bodies_of_isTerminal hterm (List.mem_of_getElem? h)

theorem LeftmostStep.produces {r : Rewrite} {u v : List Nat} (h : g.LeftmostStep r u v) :
    g.Produces u v := by
  obtain ⟨body, front, rest, hbody, -, rfl, rfl⟩ := h
  exact produces_of_mem (List.mem_of_getElem? hbody) front rest

theorem RightmostStep.produces {r : Rewrite} {u v : List Nat} (h : g.RightmostStep r u v) :
    g.Produces u v := by
  obtain ⟨body, front, rest, hbody, -, rfl, rfl⟩ := h
  exact produces_of_mem (List.mem_of_getElem? hbody) front rest

theorem Leftmost.derives {l : List Rewrite} {u v : List Nat} (h : g.Leftmost l u v) :
    g.Derives u v :=
  Applies.derives LeftmostStep.produces h

theorem Rightmost.derives {l : List Rewrite} {u v : List Nat} (h : g.Rightmost l u v) :
    g.Derives u v :=
  Applies.derives RightmostStep.produces h

/-- A leftmost derivation can be carried out behind terminals and in front of any string. -/
theorem Leftmost.context {l : List Rewrite} {u v : List Nat} (h : g.Leftmost l u v)
    (front rest : List Nat) (hfront : ∀ t ∈ front, g.isTerminal t = true) :
    g.Leftmost l (front ++ u ++ rest) (front ++ v ++ rest) := by
  refine Applies.map (f := fun u => front ++ u ++ rest) ?_ h
  rintro r _ _ ⟨body, x, y, hbody, hx, rfl, rfl⟩
  refine ⟨body, front ++ x, y ++ rest, hbody, ?_, by simp, by simp⟩
  intro t ht
  exact (List.mem_append.mp ht).elim (hfront t) (hx t)

/-- A rightmost derivation can be carried out in front of terminals and behind any string. -/
theorem Rightmost.context {l : List Rewrite} {u v : List Nat} (h : g.Rightmost l u v)
    (front rest : List Nat) (hrest : ∀ t ∈ rest, g.isTerminal t = true) :
    g.Rightmost l (front ++ u ++ rest) (front ++ v ++ rest) := by
  refine Applies.map (f := fun u => front ++ u ++ rest) ?_ h
  rintro r _ _ ⟨body, x, y, hbody, hy, rfl, rfl⟩
  refine ⟨body, front ++ x, y ++ rest, hbody, ?_, by simp, by simp⟩
  intro t ht
  exact (List.mem_append.mp ht).elim (hy t) (hrest t)

/-- The string derives the word, by the rewrites of a forest of derivation trees read from the left
and by the same rewrites read from the right. -/
inductive Unfolds (g : Grammar) : List Nat → List Rewrite → List Rewrite → List Nat → Prop
  | nil : Unfolds g [] [] [] []
  | terminal {t : Nat} {rest word : List Nat} {l r : List Rewrite}
      (isTerminal : g.isTerminal t = true) (following : Unfolds g rest l r word) :
      Unfolds g (t :: rest) l r (t :: word)
  | nonterminal {left production : Nat} {body : Body} {rest first second : List Nat}
      {l₁ r₁ l₂ r₂ : List Rewrite} (member : (g.bodies left)[production]? = some body)
      (inner : Unfolds g body.visible l₁ r₁ first) (following : Unfolds g rest l₂ r₂ second) :
      Unfolds g (left :: rest) (⟨left, production⟩ :: (l₁ ++ l₂)) (r₂ ++ ⟨left, production⟩ :: r₁)
        (first ++ second)

/-- Every word that a string yields has a forest of derivation trees. -/
theorem Yields.exists_unfolds {u word : List Nat} (h : g.Yields u word) :
    ∃ l r, g.Unfolds u l r word := by
  induction h with
  | nil => exact ⟨[], [], .nil⟩
  | terminal ht _ ih =>
      obtain ⟨l, r, h⟩ := ih
      exact ⟨l, r, .terminal ht h⟩
  | nonterminal hbody _ _ ihinner ihfollowing =>
      obtain ⟨l₁, r₁, hinner⟩ := ihinner
      obtain ⟨l₂, r₂, hfollowing⟩ := ihfollowing
      obtain ⟨production, hbody⟩ := List.mem_iff_getElem?.mp hbody
      exact ⟨_, _, .nonterminal hbody hinner hfollowing⟩

namespace Unfolds

variable {u v word : List Nat} {l r l' r' : List Rewrite}

theorem isTerminal_of_mem (h : g.Unfolds u l r word) : ∀ t ∈ word, g.isTerminal t = true := by
  induction h with
  | nil => simp
  | terminal ht _ ih => simpa [ht] using ih
  | nonterminal _ _ _ ihinner ihfollowing =>
      intro t ht
      exact (List.mem_append.mp ht).elim (ihinner t) (ihfollowing t)

theorem of_terminals {front : List Nat} (hfront : ∀ t ∈ front, g.isTerminal t = true)
    (h : g.Unfolds u l r word) : g.Unfolds (front ++ u) l r (front ++ word) := by
  induction front with
  | nil => exact h
  | cons t front ih =>
      exact .terminal (hfront t (by simp)) (ih fun s hs => hfront s (by simp [hs]))

/-- Terminals in front are left as they are. -/
theorem exists_of_terminals {front : List Nat} (hfront : ∀ t ∈ front, g.isTerminal t = true)
    (h : g.Unfolds (front ++ u) l r word) : ∃ rest, word = front ++ rest ∧ g.Unfolds u l r rest := by
  induction front generalizing word with
  | nil => exact ⟨word, rfl, h⟩
  | cons t front ih =>
      cases h with
      | terminal _ hrest =>
          obtain ⟨rest, rfl, hu⟩ := ih (fun s hs => hfront s (by simp [hs])) hrest
          exact ⟨rest, rfl, hu⟩
      | nonterminal hbody _ _ =>
          exact absurd (List.mem_of_getElem? hbody)
            (not_mem_bodies_of_isTerminal (hfront t (by simp)))

/-- The trees over a string in two parts are those over the parts. Read from the right, those over the
second part come first. -/
theorem split (h : g.Unfolds (u ++ v) l r word) :
    ∃ l₁ l₂ r₁ r₂ x y, l = l₁ ++ l₂ ∧ r = r₂ ++ r₁ ∧ word = x ++ y ∧
      g.Unfolds u l₁ r₁ x ∧ g.Unfolds v l₂ r₂ y := by
  induction u generalizing l r word with
  | nil => exact ⟨[], l, [], r, [], word, rfl, by simp, rfl, .nil, h⟩
  | cons s u ih =>
      cases h with
      | terminal ht hrest =>
          obtain ⟨l₁, l₂, r₁, r₂, x, y, rfl, rfl, rfl, hx, hy⟩ := ih hrest
          exact ⟨l₁, l₂, r₁, r₂, s :: x, y, rfl, rfl, rfl, .terminal ht hx, hy⟩
      | nonterminal hbody hinner hrest =>
          obtain ⟨l₁, l₂, r₁, r₂, x, y, rfl, rfl, rfl, hx, hy⟩ := ih hrest
          exact ⟨_, l₂, _, r₂, _, y, by simp, by simp, by simp, .nonterminal hbody hinner hx, hy⟩

/-- The reading from the left is a leftmost derivation. -/
theorem leftmost (h : g.Unfolds u l r word) : g.Leftmost l u word := by
  induction h with
  | nil => exact .nil
  | @terminal t _ _ _ _ ht _ ih =>
      simpa using Leftmost.context ih [t] [] (by simpa using ht)
  | @nonterminal left production body rest first second l₁ r₁ l₂ r₂ hbody hinner _ ihinner
      ihfollowing =>
      have hstep : g.LeftmostStep ⟨left, production⟩ (left :: rest) (body.visible ++ rest) :=
        ⟨body, [], rest, hbody, by simp, rfl, rfl⟩
      have hchildren : g.Leftmost l₁ (body.visible ++ rest) (first ++ rest) :=
        Leftmost.context ihinner [] rest (by simp)
      have hright : g.Leftmost l₂ (first ++ rest) (first ++ second) := by
        simpa using ihfollowing.context first [] hinner.isTerminal_of_mem
      exact .cons hstep (hchildren.append hright)

theorem yields (h : g.Unfolds u l r word) : g.Yields u word :=
  yields_iff.mpr ⟨h.leftmost.derives, h.isTerminal_of_mem⟩

/-- The reading from the right is a rightmost derivation. -/
theorem rightmost (h : g.Unfolds u l r word) : g.Rightmost r u word := by
  induction h with
  | nil => exact .nil
  | @terminal t _ _ _ _ _ _ ih =>
      simpa using Rightmost.context ih [t] [] (by simp)
  | @nonterminal left production body rest first second l₁ r₁ l₂ r₂ hbody _ hfollowing ihinner
      ihfollowing =>
      have hright : g.Rightmost r₂ (left :: rest) (left :: second) := by
        simpa using Rightmost.context ihfollowing [left] [] (by simp)
      have hstep : g.RightmostStep ⟨left, production⟩ (left :: second) (body.visible ++ second) :=
        ⟨body, [], second, hbody, hfollowing.isTerminal_of_mem, rfl, rfl⟩
      have hchildren : g.Rightmost r₁ (body.visible ++ second) (first ++ second) :=
        ihinner.context [] second hfollowing.isTerminal_of_mem
      exact hright.append (.cons hstep hchildren)

/-- Two forests with the same roots are read alike from the left if they are read alike from the
right. What comes after the readings lets the induction take a reading apart. -/
theorem eq_of_append_eq {word' : List Nat} {x x' : List Rewrite} (h : g.Unfolds u l r word)
    (h' : g.Unfolds u l' r' word') (heq : r ++ x = r' ++ x') : l = l' ∧ x = x' := by
  induction h generalizing l' r' word' x x' with
  | nil =>
      cases h'
      exact ⟨rfl, by simpa using heq⟩
  | terminal ht _ ih =>
      cases h' with
      | terminal _ hrest => exact ih hrest heq
      | nonterminal hbody _ _ =>
          exact absurd (List.mem_of_getElem? hbody) (not_mem_bodies_of_isTerminal ht)
  | nonterminal hbody _ _ ihinner ihfollowing =>
      cases h' with
      | terminal ht _ =>
          exact absurd (List.mem_of_getElem? hbody) (not_mem_bodies_of_isTerminal ht)
      | nonterminal hbody' hinner hrest =>
          simp only [List.append_assoc, List.cons_append] at heq
          obtain ⟨rfl, hcons⟩ := ihfollowing hrest heq
          obtain ⟨hsame, htail⟩ := List.cons.inj hcons
          obtain rfl := (Rewrite.mk.inj hsame).2
          obtain rfl := Option.some.inj (hbody.symm.trans hbody')
          obtain ⟨rfl, hx⟩ := ihinner hinner htail
          exact ⟨rfl, hx⟩

end Unfolds

/-- A leftmost derivation of a word is the reading of a forest. The first rewrite becomes the node
above what the rest of the derivation makes of its alternative. -/
theorem Leftmost.exists_unfolds {l : List Rewrite} {u word : List Nat} (h : g.Leftmost l u word)
    (hword : ∀ t ∈ word, g.isTerminal t = true) : ∃ r, g.Unfolds u l r word := by
  induction h with
  | @nil u =>
      exact ⟨[], by simpa using Unfolds.nil.of_terminals hword⟩
  | @cons s l u v word hstep _ ih =>
      obtain ⟨r, hunfolds⟩ := ih hword
      obtain ⟨body, front, rest, hbody, hfront, rfl, rfl⟩ := hstep
      rw [List.append_assoc] at hunfolds
      obtain ⟨back, rfl, hback⟩ := hunfolds.exists_of_terminals hfront
      obtain ⟨l₁, l₂, r₁, r₂, x, y, rfl, rfl, rfl, hinner, hrest⟩ := hback.split
      exact ⟨_, Unfolds.of_terminals hfront (.nonterminal hbody hinner hrest)⟩

/-- A word with one rightmost derivation has one leftmost derivation. -/
theorem leftmost_unique_of_rightmost {u word : List Nat}
    (hword : ∀ t ∈ word, g.isTerminal t = true)
    (hunique : ∀ r r', g.Rightmost r u word → g.Rightmost r' u word → r = r')
    {l l' : List Rewrite} (h : g.Leftmost l u word) (h' : g.Leftmost l' u word) : l = l' := by
  obtain ⟨r, hr⟩ := h.exists_unfolds hword
  obtain ⟨r', hr'⟩ := h'.exists_unfolds hword
  have hsame : r ++ [] = r' ++ [] := by
    rw [hunique r r' hr.rightmost hr'.rightmost]
  exact (hr.eq_of_append_eq hr' hsame).1

end Grammar
end Lookahead
