import Lookahead.Proofs.Grammar.Renaming
import Lookahead.Proofs.Sets.Follows

/-!
The sets of a grammar under other numbers. How a string can begin and what can follow a nonterminal
is said by the rules alone, so a renaming carries every such fact over, and the sets of the one
grammar are the images of those of the other, however the sweeps came to find them.
-/

namespace Lookahead

open Std

def SortedSet.image {α β : Type} [Ord α] [Ord β] [TransOrd β] [LawfulEqOrd β] (f : α → β)
    (s : SortedSet α) : SortedSet β := .ofList (s.toList.map f)

namespace SortedSet

variable {α β : Type} [Ord α] [Ord β] [TransOrd β] [LawfulEqOrd β] {s : SortedSet α}

theorem mem_image {f : α → β} {b : β} : b ∈ s.image f ↔ ∃ a ∈ s, f a = b := by
  rw [image, mem_ofList, List.mem_map]
  rfl

theorem image_congr {f f' : α → β} (h : ∀ a ∈ s, f a = f' a) : s.image f = s.image f' := by
  rw [image, image, List.map_congr_left h]

theorem apply_mem_image (e : α ≃ β) {a : α} : e a ∈ s.image e ↔ a ∈ s := by
  simp [mem_image]

theorem image_injective [TransOrd α] [LawfulEqOrd α] (e : α ≃ β) :
    Function.Injective fun s : SortedSet α => s.image e := by
  intro s t h
  ext a
  replace h : s.image e = t.image e := h
  rw [← apply_mem_image e, h, apply_mem_image]

end SortedSet

namespace FirstSet

def image (f : Nat → Nat) (s : FirstSet) : FirstSet := ⟨s.terminals.image f, s.nullable⟩

theorem has_image (e : Equiv.Perm Nat) {s : FirstSet} {o : Option Nat} :
    (s.image e).Has (o.map e) ↔ s.Has o := by
  cases o with
  | none => rfl
  | some t => exact SortedSet.apply_mem_image e

end FirstSet

namespace Grammar

variable {g h : Grammar} {e : Equiv.Perm Nat} {σ : Nat → Equiv.Perm Nat}

namespace Relabels

variable (r : Relabels e σ g h)

include r

theorem begins {symbols : List Nat} {o : Option Nat} (hbegins : g.Begins symbols o) :
    h.Begins (symbols.map e) (o.map e) := by
  induction hbegins with
  | nil => exact .nil
  | terminal hterm => exact .terminal ((r.isTerminal _).trans hterm)
  | inside hbody _ ih =>
      rw [← r.visible_map] at ih
      exact .inside (r.map_mem_bodies hbody) ih
  | behind hbody _ _ ihinner ihrest =>
      rw [← r.visible_map] at ihinner
      exact .behind (r.map_mem_bodies hbody) ihinner ihrest

/-- A string begins in the same ways under the other numbers. -/
theorem begins_iff {symbols : List Nat} {o : Option Nat} :
    h.Begins (symbols.map e) (o.map e) ↔ g.Begins symbols o := by
  refine ⟨fun hbegins => ?_, r.begins⟩
  simpa [Function.comp_def] using r.symm.begins hbegins

end Relabels

namespace Renaming

variable (r : Renaming e σ g h)

include r

theorem follows {s t : Nat} (hfollows : g.Follows s t) : h.Follows (e s) (e t) := by
  have hsplit {body : Body} {u v : List Nat} {s : Nat} (hsplit : body.visible = u ++ s :: v) :
      Body.visible (body.map e) = u.map e ++ e s :: v.map e := by
    rw [r.visible_map, hsplit, List.map_append, List.map_cons]
  induction hfollows with
  | start =>
      rw [r.map_start, r.map_endMark]
      exact .start
  | within hbody hbodysplit hs hbegins =>
      exact .within (r.map_mem_bodies hbody) (hsplit hbodysplit) ((r.isNonterminal _).trans hs)
        (r.begins hbegins)
  | behind hbody hbodysplit hs hvanishes _ ih =>
      exact .behind (r.map_mem_bodies hbody) (hsplit hbodysplit) ((r.isNonterminal _).trans hs)
        (r.begins hvanishes) ih

theorem follows_iff {s t : Nat} : h.Follows (e s) (e t) ↔ g.Follows s t := by
  refine ⟨fun hfollows => ?_, r.follows⟩
  simpa using r.symm.follows hfollows

variable (hg : g.WellFormed) (hh : h.WellFormed)

include hg hh

/-- The FIRST set of an image is the image of the FIRST set. -/
theorem first_symbol {s : Nat} (hs : s < g.size) :
    h.firstSets.ofSymbol (e s) = (g.firstSets.ofSymbol s).image e := by
  by_cases hne : s = epsilon
  · rw [hne, r.map_epsilon]
    exact (grounded_firstSets hh).ofSymbol_epsilon.trans
      (congrArg (FirstSet.image e) (grounded_firstSets hg).ofSymbol_epsilon).symm
  · apply FirstSet.ext_has
    intro o
    obtain ⟨o, rfl⟩ : ∃ o', o'.map e = o := ⟨o.map e.symm, by simp [Function.comp_def]⟩
    have hne' : e s ≠ epsilon := mt r.apply_eq_epsilon.mp hne
    rw [FirstSet.has_image, ← first_singleton, ← first_singleton,
      hg.first_iff_begins (by simpa using ⟨hs, hne⟩),
      hh.first_iff_begins (by simpa using ⟨r.lt_size hs, hne'⟩)]
    change h.Begins ([s].map e) (o.map e) ↔ _
    exact r.begins_iff

theorem first_body {left : Nat} {body : Body} (hbody : body ∈ g.bodies left) {o : Option Nat} :
    (h.firstSets.ofSequence (body.map e)).Has (o.map e) ↔ (g.firstSets.ofSequence body).Has o := by
  rw [hh.first_body_iff_begins (r.map_mem_bodies hbody), hg.first_body_iff_begins hbody,
    r.visible_map, r.begins_iff]

theorem mem_followers {s t : Nat} : e t ∈ h.followers (e s) ↔ t ∈ g.followers s := by
  rw [hh.mem_followers_iff, hg.mem_followers_iff, r.follows_iff]

/-- The same for FOLLOW sets. -/
theorem followers_symbol (s : Nat) : h.followers (e s) = (g.followers s).image e := by
  ext t
  obtain ⟨t, rfl⟩ := e.surjective t
  rw [r.mem_followers hg hh, SortedSet.apply_mem_image]

end Renaming

end Grammar
end Lookahead
