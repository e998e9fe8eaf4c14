import Lookahead.Proofs.Grammar.Sentential
import Mathlib.Algebra.Group.End
import Mathlib.SetTheory.Cardinal.Finite

/-!
The same grammar under other numbers. A renaming maps the symbols of one grammar to those of another
and keeps all that a grammar says, up to the order of the alternatives. It extends to a permutation of
all numbers, and the order of the alternatives to a permutation of their numbers for each left side,
so that a renaming can be undone by another one and what is carried over in one direction is carried
over in both.
-/

namespace Lookahead

def shiftPerm (σ : Equiv.Perm Nat) : Equiv.Perm Nat where
  toFun
    | 0 => 0
    | i + 1 => σ i + 1
  invFun
    | 0 => 0
    | i + 1 => σ.symm i + 1
  left_inv := by
    rintro (_ | i)
    · rfl
    · simp
  right_inv := by
    rintro (_ | i)
    · rfl
    · simp

/-- Lists with the same elements have them at places that correspond. -/
theorem exists_getElem?_of_perm {α : Type} {l l' : List α} (h : l.Perm l') :
    ∃ σ : Equiv.Perm Nat, ∀ i, l'[σ i]? = l[i]? := by
  induction h with
  | nil => exact ⟨1, fun _ => rfl⟩
  | cons a _ ih =>
      obtain ⟨σ, hσ⟩ := ih
      refine ⟨shiftPerm σ, ?_⟩
      rintro (_ | i)
      · rfl
      · exact hσ i
  | swap a b l =>
      refine ⟨Equiv.swap 0 1, ?_⟩
      rintro (_ | _ | i)
      · rfl
      · rfl
      · rw [Equiv.swap_apply_of_ne_of_ne (by omega) (by omega)]
        rfl
  | trans _ _ ih ih' =>
      obtain ⟨σ, hσ⟩ := ih
      obtain ⟨τ, hτ⟩ := ih'
      exact ⟨σ.trans τ, fun i => (hτ (σ i)).trans (hσ i)⟩

namespace Grammar

variable {g h : Grammar}

/-- The function takes the symbols of the one grammar to those of the other and keeps the special
ones, the kinds and the names. For each left side the alternatives are the same but for their order. -/
structure Renames (f : Nat → Nat) (g h : Grammar) : Prop where
  bijOn : Set.BijOn f (Set.Iio g.size) (Set.Iio h.size)
  map_epsilon : f epsilon = epsilon
  map_endMark : f endMark = endMark
  map_start : f g.start = h.start
  isTerminal : ∀ s < g.size, h.isTerminal (f s) = g.isTerminal s
  name : ∀ s < g.size, h.name? (f s) = g.name? s
  bodies : ∀ s < g.size, (h.bodies (f s)).Perm ((g.bodies s).map (List.map f))

/-- The rules of the one grammar are those of the other, with the symbols permuted by `e` and the
alternatives of each left side by its `σ`. -/
structure Relabels (e : Equiv.Perm Nat) (σ : Nat → Equiv.Perm Nat) (g h : Grammar) : Prop where
  map_epsilon : e epsilon = epsilon
  isTerminal : ∀ s, h.isTerminal (e s) = g.isTerminal s
  isNonterminal : ∀ s, h.isNonterminal (e s) = g.isNonterminal s
  bodies : ∀ left p, (h.bodies (e left))[σ left p]? = ((g.bodies left)[p]?).map (List.map e)

/-- A permutation that keeps the start symbol, the end mark and the names too, and moves no number
that stands for no symbol. -/
structure Renaming (e : Equiv.Perm Nat) (σ : Nat → Equiv.Perm Nat) (g h : Grammar) : Prop
    extends Relabels e σ g h where
  size_eq : h.size = g.size
  fixed : ∀ s, g.size ≤ s → e s = s
  map_endMark : e endMark = endMark
  map_start : e g.start = h.start
  name : ∀ s, h.name? (e s) = g.name? s

theorem bodies_eq_nil_of_le {s : Nat} (h : g.size ≤ s) : g.bodies s = [] := by
  rw [List.eq_nil_iff_forall_not_mem]
  intro body hbody
  obtain ⟨n, hn, -⟩ := mem_bodies_iff.mp hbody
  have hlt := lt_size_of_getElem? hn
  omega

theorem isTerminal_eq_false_of_le {s : Nat} (h : g.size ≤ s) : g.isTerminal s = false := by
  rw [isTerminal, Array.getElem?_eq_none h]
  rfl

theorem isNonterminal_eq_false_of_le {s : Nat} (h : g.size ≤ s) : g.isNonterminal s = false := by
  rw [Bool.eq_false_iff]
  intro hs
  have hlt := lt_size_of_isNonterminal hs
  omega

theorem isNonterminal_eq {s : Nat} (hs : s < g.size) :
    g.isNonterminal s = (decide (s ≠ epsilon) && !g.isTerminal s) := by
  by_cases hne : s = epsilon
  · simp [isNonterminal, hne]
  · rcases isTerminal_or_isNonterminal hs hne with hterm | hnon
    · simp [not_isNonterminal_of_isTerminal hterm, hterm]
    · have hterm : g.isTerminal s = false := by
        rw [Bool.eq_false_iff]
        intro hterm
        simp [not_isNonterminal_of_isTerminal hterm] at hnon
      simp [hnon, hterm, hne]

theorem Renames.size_eq {f : Nat → Nat} (hf : Renames f g h) : h.size = g.size := by
  have hcard := Nat.card_congr (hf.bijOn.equiv f)
  simpa using hcard.symm

/-- A bijection between the numbers below `n` goes over to a permutation of all numbers. -/
theorem exists_perm_of_bijOn {f : Nat → Nat} {n : Nat} (hf : Set.BijOn f (Set.Iio n) (Set.Iio n)) :
    ∃ e : Equiv.Perm Nat, (∀ s < n, e s = f s) ∧ ∀ s, n ≤ s → e s = s := by
  let inner : Equiv.Perm (Set.Iio n) := hf.equiv f
  refine ⟨Equiv.Perm.ofSubtype inner, fun s hs => ?_, fun s hs => ?_⟩
  · rw [Equiv.Perm.ofSubtype_apply_of_mem inner (Set.mem_Iio.mpr hs)]
    rfl
  · rw [Equiv.Perm.ofSubtype_apply_of_not_mem inner (mt Set.mem_Iio.mp hs.not_gt)]

section Extend

variable {f : Nat → Nat} {e : Equiv.Perm Nat} (hf : Renames f g h) (he : ∀ s < g.size, e s = f s)
  (hfixed : ∀ s, g.size ≤ s → e s = s)

include he hfixed

/-- What a renaming keeps of the symbols, and what is alike for all other numbers, is kept. -/
theorem apply_perm_eq {α : Type} {u v : Nat → α} (hin : ∀ s < g.size, v (f s) = u s)
    (hout : ∀ s, g.size ≤ s → v s = u s) (s : Nat) : v (e s) = u s := by
  rcases Nat.lt_or_ge s g.size with hs | hs
  · rw [he s hs, hin s hs]
  · rw [hfixed s hs, hout s hs]

include hf

theorem Renames.isNonterminal (hg : g.WellFormed) :
    ∀ s, h.isNonterminal (e s) = g.isNonterminal s := by
  have hsize := hf.size_eq
  apply apply_perm_eq he hfixed
  · intro s hs
    have heps : e epsilon = epsilon := (he _ hg.epsilon_lt_size).trans hf.map_epsilon
    have hne : f s = epsilon ↔ s = epsilon := by
      rw [← he s hs, ← e.eq_symm_apply, e.symm_apply_eq.mpr heps.symm]
    rw [isNonterminal_eq (hf.bijOn.mapsTo hs), isNonterminal_eq hs, hf.isTerminal s hs]
    simp [hne]
  · intro s hs
    rw [isNonterminal_eq_false_of_le hs, isNonterminal_eq_false_of_le (hsize ▸ hs)]

/-- The alternatives of a left side and of its image are the same up to a permutation. -/
theorem Renames.exists_bodies (hg : g.WellFormed) (left : Nat) : ∃ σ : Equiv.Perm Nat,
    ∀ p, (h.bodies (e left))[σ p]? = ((g.bodies left)[p]?).map (List.map e) := by
  rcases Nat.lt_or_ge left g.size with hleft | hleft
  · obtain ⟨σ, hσ⟩ := exists_getElem?_of_perm (hf.bodies left hleft).symm
    refine ⟨σ, fun p => ?_⟩
    rw [he left hleft, hσ, List.getElem?_map]
    apply Option.map_congr
    intro body hbody
    apply List.map_congr_left
    intro s hs
    exact (he s ((hg.fits (List.mem_of_getElem? hbody)).lt_size hg s hs)).symm
  · refine ⟨1, fun p => ?_⟩
    rw [hfixed left hleft, bodies_eq_nil_of_le hleft, bodies_eq_nil_of_le (hf.size_eq ▸ hleft)]
    rfl

end Extend

/-- A renaming goes over to all numbers and to the numbers of the alternatives. -/
theorem Renames.exists_renaming {f : Nat → Nat} (hf : Renames f g h) (hg : g.WellFormed) :
    ∃ e σ, Renaming e σ g h ∧ ∀ s < g.size, e s = f s := by
  have hsize := hf.size_eq
  obtain ⟨e, he, hfixed⟩ := exists_perm_of_bijOn (hsize ▸ hf.bijOn)
  choose σ hσ using hf.exists_bodies he hfixed hg
  refine ⟨e, σ, ⟨⟨?_, ?_, hf.isNonterminal he hfixed hg, hσ⟩, hsize, hfixed, ?_, ?_, ?_⟩, he⟩
  · rw [he _ hg.epsilon_lt_size, hf.map_epsilon]
  · refine apply_perm_eq he hfixed hf.isTerminal fun s hs => ?_
    rw [isTerminal_eq_false_of_le hs, isTerminal_eq_false_of_le (hsize ▸ hs)]
  · rw [he _ hg.endMark_lt_size, hf.map_endMark]
  · rw [he _ hg.start_lt_size, hf.map_start]
  · refine apply_perm_eq he hfixed hf.name fun s hs => ?_
    rw [name?_eq_none_of_le hs, name?_eq_none_of_le (hsize ▸ hs)]

namespace Relabels

variable {e : Equiv.Perm Nat} {σ : Nat → Equiv.Perm Nat} (r : Relabels e σ g h)

include r

/-- The same permutations, taken back, lead from the second grammar to the first. -/
theorem symm : Relabels e.symm (fun left => (σ (e.symm left)).symm) h g where
  map_epsilon := by
    rw [Equiv.symm_apply_eq, r.map_epsilon]
  isTerminal s := by
    rw [← r.isTerminal, e.apply_symm_apply]
  isNonterminal s := by
    rw [← r.isNonterminal, e.apply_symm_apply]
  bodies left p := by
    have hbodies := r.bodies (e.symm left) ((σ (e.symm left)).symm p)
    rw [e.apply_symm_apply, Equiv.apply_symm_apply] at hbodies
    rw [hbodies, Option.map_map]
    simp [Function.comp_def]

theorem apply_eq_epsilon {s : Nat} : e s = epsilon ↔ s = epsilon := by
  rw [← r.map_epsilon, e.apply_eq_iff_eq, r.map_epsilon]

theorem visible_map (body : Body) : Body.visible (body.map e) = body.visible.map e := by
  simp only [Body.visible, List.filter_map]
  congr 1
  apply List.filter_congr
  intro s _
  simp [r.apply_eq_epsilon]

theorem map_mem_bodies {left : Nat} {body : Body} (hbody : body ∈ g.bodies left) :
    body.map e ∈ h.bodies (e left) := by
  obtain ⟨p, hp⟩ := List.mem_iff_getElem?.mp hbody
  have hget := r.bodies left p
  rw [hp] at hget
  exact List.mem_of_getElem? hget

theorem body_map (left p : Nat) : h.body (e left) (σ left p) = (g.body left p).map e := by
  rw [Grammar.body, r.bodies, Grammar.body]
  cases (g.bodies left)[p]? <;> rfl

/-- What a string yields, its image yields under the other numbers. -/
theorem yields {symbols word : List Nat} (hyields : g.Yields symbols word) :
    h.Yields (symbols.map e) (word.map e) := by
  induction hyields with
  | nil => exact .nil
  | terminal hterm _ ih => exact .terminal ((r.isTerminal _).trans hterm) ih
  | nonterminal hbody _ _ ihinner ihfollowing =>
      rw [List.map_append]
      rw [← r.visible_map] at ihinner
      exact .nonterminal (r.map_mem_bodies hbody) ihinner ihfollowing

end Relabels

namespace Renaming

variable {e : Equiv.Perm Nat} {σ : Nat → Equiv.Perm Nat} (r : Renaming e σ g h)

include r

theorem symm : Renaming e.symm (fun left => (σ (e.symm left)).symm) h g where
  toRelabels := r.toRelabels.symm
  size_eq := r.size_eq.symm
  fixed s hs := by
    rw [Equiv.symm_apply_eq, r.fixed s (r.size_eq ▸ hs)]
  map_endMark := by
    rw [Equiv.symm_apply_eq, r.map_endMark]
  map_start := by
    rw [Equiv.symm_apply_eq, r.map_start]
  name s := by
    rw [← r.name, e.apply_symm_apply]

theorem lt_size {s : Nat} (hs : s < g.size) : e s < h.size := by
  by_contra hle
  rw [r.size_eq, Nat.not_lt] at hle
  have hsame : e s = s := e.injective (r.fixed (e s) hle)
  omega

theorem spells {tokens : List String} {word : List Nat} (hspells : g.Spells tokens word) :
    h.Spells tokens (word.map e) := by
  rw [Spells, List.forall₂_map_right_iff]
  refine hspells.imp fun token t ⟨hname, hterm, hne⟩ => ⟨?_, ?_, ?_⟩
  · rw [r.name, hname]
  · rw [r.isTerminal, hterm]
  · rw [← r.map_endMark]
    exact fun heq => hne (e.injective heq)

/-- A sentence of the one grammar is one of the other, since the symbols keep their names. -/
theorem isSentence {tokens : List String} (hsentence : g.IsSentence tokens) :
    h.IsSentence tokens := by
  obtain ⟨word, hspells, hyields⟩ := isSentence_iff.mp hsentence
  refine isSentence_iff.mpr ⟨word.map e, r.spells hspells, ?_⟩
  simpa [r.map_start] using r.yields hyields

end Renaming

end Grammar
end Lookahead
