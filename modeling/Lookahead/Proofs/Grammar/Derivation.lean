import Lookahead.Grammar.Basic
import Mathlib.Logic.Relation
import Mathlib.Tactic

/-!
What a grammar derives. A step of a derivation rewrites one symbol of a string by one of its
alternatives. `Yields` follows a whole derivation of a word of terminals from a string, symbol by
symbol, so that an induction on it goes along the derivation tree; `yields_iff` says that it is
nothing but a derivation that ends in terminals.
-/

namespace Lookahead

/-- A symbol of a string in two parts is in one of them. -/
theorem append_eq_append_cons {a b u v : List Nat} {s : Nat} (h : a ++ b = u ++ s :: v) :
    (∃ x, a = u ++ s :: x ∧ v = x ++ b) ∨ ∃ x, b = x ++ s :: v ∧ u = a ++ x := by
  rcases List.append_eq_append_iff.mp h with ⟨x, hu, hb⟩ | ⟨x, ha, hx⟩
  · exact .inr ⟨x, hb, hu⟩
  · cases x with
    | nil => exact .inr ⟨[], by simpa using hx.symm, by simpa using ha.symm⟩
    | cons r x =>
        obtain ⟨rfl, rfl⟩ := List.cons.inj hx
        exact .inl ⟨x, ha, rfl⟩

namespace Grammar

open Relation

variable {g : Grammar}

/-- One symbol of the string is rewritten by one of its alternatives. -/
def Produces (g : Grammar) (before after : List Nat) : Prop :=
  ∃ left body front rest, body ∈ g.bodies left ∧
    before = front ++ left :: rest ∧ after = front ++ body.visible ++ rest

def Derives (g : Grammar) : List Nat → List Nat → Prop := ReflTransGen g.Produces

def DerivesPlus (g : Grammar) : List Nat → List Nat → Prop := TransGen g.Produces

/-- The string derives the word, which holds terminals only. -/
inductive Yields (g : Grammar) : List Nat → List Nat → Prop
  | nil : Yields g [] []
  | terminal {t : Nat} {rest word : List Nat} (isTerminal : g.isTerminal t = true)
      (following : Yields g rest word) : Yields g (t :: rest) (t :: word)
  | nonterminal {left : Nat} {body : Body} {rest first second : List Nat}
      (member : body ∈ g.bodies left) (inner : Yields g body.visible first)
      (following : Yields g rest second) : Yields g (left :: rest) (first ++ second)

def Productive (g : Grammar) (s : Nat) : Prop := ∃ word, g.Yields [s] word

def Reachable (g : Grammar) (s : Nat) : Prop :=
  ∃ front rest, g.Derives [g.start] (front ++ s :: rest)

/-- The tokens are the names of the terminals of a word. The end mark is no such terminal. -/
def Spells (g : Grammar) (tokens : List String) (word : List Nat) : Prop :=
  List.Forall₂ (fun token t => g.name? t = some token ∧ g.isTerminal t = true ∧ t ≠ endMark)
    tokens word

def IsSentence (g : Grammar) (tokens : List String) : Prop :=
  ∃ word, g.Spells tokens word ∧ g.Derives [g.start] word

theorem bodies_of_isTerminal {t : Nat} (h : g.isTerminal t = true) : g.bodies t = [] := by
  unfold isTerminal at h
  unfold bodies nonterminal?
  cases hs : g.symbols[t]? with
  | none => rfl
  | some s =>
      cases s with
      | nonterminal n => simp [hs, Symbol.isTerminal] at h
      | terminal name => rfl

theorem not_mem_bodies_of_isTerminal {t : Nat} {body : Body} (h : g.isTerminal t = true) :
    body ∉ g.bodies t := by
  simp [bodies_of_isTerminal h]

/-- A step can be made within a longer string. -/
theorem Produces.context {before after : List Nat} (h : g.Produces before after)
    (front rest : List Nat) :
    g.Produces (front ++ before ++ rest) (front ++ after ++ rest) := by
  obtain ⟨left, body, u, v, hbody, rfl, rfl⟩ := h
  exact ⟨left, body, front ++ u, v ++ rest, hbody, by simp, by simp⟩

theorem produces_of_mem {left : Nat} {body : Body} (h : body ∈ g.bodies left)
    (front rest : List Nat) :
    g.Produces (front ++ left :: rest) (front ++ body.visible ++ rest) :=
  ⟨left, body, front, rest, h, rfl, rfl⟩

theorem Derives.tail {u v w : List Nat} (h : g.Derives u v) (hstep : g.Produces v w) :
    g.Derives u w :=
  ReflTransGen.tail h hstep

theorem Derives.trans {u v w : List Nat} (h : g.Derives u v) (h' : g.Derives v w) :
    g.Derives u w :=
  ReflTransGen.trans h h'

theorem Derives.context {before after : List Nat} (h : g.Derives before after)
    (front rest : List Nat) :
    g.Derives (front ++ before ++ rest) (front ++ after ++ rest) := by
  induction h with
  | refl => exact .refl
  | tail _ hstep ih => exact ih.tail (hstep.context front rest)

/-- Two strings can be derived side by side. -/
theorem Derives.append {u u' v v' : List Nat} (hu : g.Derives u u') (hv : g.Derives v v') :
    g.Derives (u ++ v) (u' ++ v') := by
  have hleft : g.Derives (u ++ v) (u' ++ v) := by simpa using hu.context [] v
  have hright : g.Derives (u' ++ v) (u' ++ v') := by simpa using hv.context u' []
  exact hleft.trans hright

theorem Derives.append_left {v v' : List Nat} (h : g.Derives v v') (front : List Nat) :
    g.Derives (front ++ v) (front ++ v') :=
  Derives.append .refl h

theorem Derives.append_right {u u' : List Nat} (h : g.Derives u u') (rest : List Nat) :
    g.Derives (u ++ rest) (u' ++ rest) :=
  Derives.append h .refl

namespace Yields

theorem append {u v x y : List Nat} (hu : g.Yields u x) (hv : g.Yields v y) :
    g.Yields (u ++ v) (x ++ y) := by
  induction hu with
  | nil => simpa using hv
  | terminal ht _ ih => exact .terminal ht ih
  | nonterminal hbody hinner _ _ ih =>
      rw [List.append_assoc]
      exact .nonterminal hbody hinner ih

/-- What a string in two parts yields is in two parts too. -/
theorem split {u v word : List Nat} (h : g.Yields (u ++ v) word) :
    ∃ x y, word = x ++ y ∧ g.Yields u x ∧ g.Yields v y := by
  induction u generalizing word with
  | nil => exact ⟨[], word, rfl, .nil, h⟩
  | cons s u ih =>
      cases h with
      | terminal ht hrest =>
          obtain ⟨x, y, rfl, hx, hy⟩ := ih hrest
          exact ⟨s :: x, y, rfl, .terminal ht hx, hy⟩
      | nonterminal hbody hinner hrest =>
          obtain ⟨x, y, rfl, hx, hy⟩ := ih hrest
          exact ⟨_ ++ x, y, by simp, .nonterminal hbody hinner hx, hy⟩

theorem isTerminal_of_mem {u word : List Nat} (h : g.Yields u word) :
    ∀ t ∈ word, g.isTerminal t = true := by
  induction h with
  | nil => simp
  | terminal ht _ ih => simpa [ht] using ih
  | nonterminal _ _ _ ihinner ihrest =>
      intro t ht
      rcases List.mem_append.mp ht with ht | ht
      · exact ihinner t ht
      · exact ihrest t ht

theorem refl {word : List Nat} (h : ∀ t ∈ word, g.isTerminal t = true) : g.Yields word word := by
  induction word with
  | nil => exact .nil
  | cons t word ih => exact .terminal (h t (by simp)) (ih fun s hs => h s (by simp [hs]))

theorem derives {u word : List Nat} (h : g.Yields u word) : g.Derives u word := by
  induction h with
  | nil => exact .refl
  | @terminal t _ _ _ _ ih => exact ih.append_left [t]
  | @nonterminal left body rest first second hbody _ _ ihinner ihrest =>
      have hstep : g.Derives [left] body.visible :=
        ReflTransGen.single (by simpa using produces_of_mem hbody [] [])
      exact Derives.append (hstep.trans ihinner) ihrest

/-- A word that is yielded after a step is yielded before it. -/
theorem of_produces {u v word : List Nat} (hstep : g.Produces u v) (h : g.Yields v word) :
    g.Yields u word := by
  obtain ⟨left, body, front, rest, hbody, rfl, rfl⟩ := hstep
  rw [List.append_assoc] at h
  obtain ⟨x, y, rfl, hx, hy⟩ := h.split
  obtain ⟨y, z, rfl, hy, hz⟩ := hy.split
  exact hx.append (.nonterminal hbody hy hz)

end Yields

/-- Yielding a word is deriving it, for words of terminals. -/
theorem yields_iff {u word : List Nat} :
    g.Yields u word ↔ g.Derives u word ∧ ∀ t ∈ word, g.isTerminal t = true := by
  constructor
  · intro h
    exact ⟨h.derives, h.isTerminal_of_mem⟩
  · rintro ⟨hder, hterm⟩
    induction hder using ReflTransGen.head_induction_on with
    | refl => exact .refl hterm
    | head hstep _ ih => exact .of_produces hstep ih

theorem Spells.isTerminal {tokens : List String} {word : List Nat} (h : g.Spells tokens word) :
    ∀ t ∈ word, g.isTerminal t = true := by
  intro t ht
  obtain ⟨i, hi, rfl⟩ := List.mem_iff_getElem.mp ht
  have hlen := h.length_eq
  exact (h.get (i := i) (by omega) hi).2.1

/-- Whether the tokens are a sentence can be read off a derivation tree. -/
theorem isSentence_iff {tokens : List String} :
    g.IsSentence tokens ↔ ∃ word, g.Spells tokens word ∧ g.Yields [g.start] word := by
  constructor
  · rintro ⟨word, hspell, hder⟩
    exact ⟨word, hspell, yields_iff.mpr ⟨hder, hspell.isTerminal⟩⟩
  · rintro ⟨word, hspell, hyield⟩
    exact ⟨word, hspell, hyield.derives⟩

end Grammar
end Lookahead
