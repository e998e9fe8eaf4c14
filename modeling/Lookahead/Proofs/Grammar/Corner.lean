import Lookahead.Proofs.Grammar.Derivation

/-!
Left recursion through the corners of a grammar. A corner of a nonterminal is a symbol that can come
first in a string derived from it, because all that stands before the symbol in some alternative can
vanish. A nonterminal is left recursive exactly if a chain of corners leads back to it.
-/

namespace Lookahead.Grammar

open Relation

variable {g : Grammar}

/-- Some alternative of `left` holds `first`, and what stands before it derives the empty string. -/
def Corner (g : Grammar) (left first : Nat) : Prop :=
  ∃ body ∈ g.bodies left, ∃ front rest, body.visible = front ++ first :: rest ∧ g.Yields front []

/-- The symbol derives, in at least one step, a string that begins with it. -/
def LeftRecursive (g : Grammar) (s : Nat) : Prop := ∃ rest, g.DerivesPlus [s] (s :: rest)

theorem corner_of_mem {left first : Nat} {rest : Body} (hne : first ≠ epsilon)
    (h : first :: rest ∈ g.bodies left) : g.Corner left first :=
  ⟨_, h, [], Body.visible rest, by simp [Body.visible, hne], .nil⟩

theorem yields_nil_append {u v : List Nat} :
    g.Yields (u ++ v) [] ↔ g.Yields u [] ∧ g.Yields v [] := by
  constructor
  · intro h
    obtain ⟨x, y, hxy, hu, hv⟩ := h.split
    obtain ⟨rfl, rfl⟩ := List.append_eq_nil_iff.mp hxy.symm
    exact ⟨hu, hv⟩
  · rintro ⟨hu, hv⟩
    exact hu.append hv

theorem DerivesPlus.append_right {u v : List Nat} (h : g.DerivesPlus u v) (rest : List Nat) :
    g.DerivesPlus (u ++ rest) (v ++ rest) := by
  induction h with
  | single hstep => exact .single (hstep.context [] rest)
  | tail _ hstep ih => exact .tail ih (hstep.context [] rest)

/-- The first step from a symbol alone puts in one of its alternatives. -/
theorem exists_body_of_produces {s : Nat} {after : List Nat} (h : g.Produces [s] after) :
    ∃ body ∈ g.bodies s, after = body.visible := by
  obtain ⟨left, body, front, rest, hbody, hsplit, rfl⟩ := h
  obtain ⟨rfl, hcons⟩ : front = [] ∧ [s] = left :: rest := by
    cases front with
    | nil => exact ⟨rfl, hsplit⟩
    | cons r front => simp at hsplit
  obtain ⟨rfl, rfl⟩ := List.cons.inj hcons
  exact ⟨body, hbody, by simp⟩

/-- The symbol that comes first in a derived string comes, by corners, from a symbol of the string it
is derived from, and what stood before that one vanished. -/
theorem exists_corner_of_derives {u rest : List Nat} {s : Nat} (h : g.Derives u (s :: rest)) :
    ∃ front r back, u = front ++ r :: back ∧ g.Yields front [] ∧
      ReflTransGen g.Corner r s := by
  induction h using ReflTransGen.head_induction_on with
  | refl => exact ⟨[], s, rest, rfl, .nil, .refl⟩
  | head hstep _ ih =>
      obtain ⟨left, body, u, v, hbody, rfl, rfl⟩ := hstep
      obtain ⟨front, r, back, hsplit, hnull, hcorner⟩ := ih
      rcases append_eq_append_cons hsplit with ⟨x, hx, rfl⟩ | ⟨x, rfl, rfl⟩
      · rcases append_eq_append_cons hx with ⟨y, rfl, rfl⟩ | ⟨y, hvisible, rfl⟩
        · exact ⟨front, r, y ++ left :: v, by simp, hnull, hcorner⟩
        · obtain ⟨hu, hy⟩ := yields_nil_append.mp hnull
          exact ⟨u, left, v, rfl, hu, hcorner.head ⟨body, hbody, y, x, hvisible, hy⟩⟩
      · refine ⟨u ++ left :: x, r, back, by simp, ?_, hcorner⟩
        rw [List.append_assoc] at hnull
        exact .of_produces (produces_of_mem hbody u x) (by simpa using hnull)

theorem Corner.exists_derivesPlus {left first : Nat} (h : g.Corner left first) :
    ∃ rest, g.DerivesPlus [left] (first :: rest) := by
  obtain ⟨body, hbody, front, rest, hvisible, hnull⟩ := h
  have hstep : g.Produces [left] (front ++ first :: rest) := by
    simpa [hvisible] using produces_of_mem hbody [] []
  exact ⟨rest, TransGen.head' hstep (hnull.derives.append_right _)⟩

/-- What can come first in strings derived from a symbol is what chains of corners lead to. -/
theorem exists_derivesPlus_cons_iff {left s : Nat} :
    (∃ rest, g.DerivesPlus [left] (s :: rest)) ↔ TransGen g.Corner left s := by
  constructor
  · rintro ⟨rest, h⟩
    obtain ⟨u, hstep, hder⟩ := TransGen.head'_iff.mp h
    obtain ⟨body, hbody, rfl⟩ := exists_body_of_produces hstep
    obtain ⟨front, r, back, hsplit, hnull, hcorner⟩ := exists_corner_of_derives hder
    exact TransGen.head' ⟨body, hbody, front, back, hsplit, hnull⟩ hcorner
  · intro h
    induction h with
    | single hcorner => exact hcorner.exists_derivesPlus
    | tail _ hcorner ih =>
        obtain ⟨before, hbefore⟩ := ih
        obtain ⟨after, hafter⟩ := hcorner.exists_derivesPlus
        exact ⟨after ++ before, TransGen.trans hbefore (hafter.append_right before)⟩

/-- A symbol is left recursive exactly when corners lead from it back to it. -/
theorem leftRecursive_iff {s : Nat} : g.LeftRecursive s ↔ TransGen g.Corner s s :=
  exists_derivesPlus_cons_iff

end Lookahead.Grammar
