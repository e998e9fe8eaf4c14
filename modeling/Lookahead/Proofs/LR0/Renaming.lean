import Lookahead.Proofs.LR0.Collection
import Lookahead.Proofs.Sets.Renaming

/-!
The automaton under other numbers. A renaming goes over to the items, and takes the items that are
valid for a string to those that are valid for the renamed string. A state is told by its items, so
the states of the two automata correspond, although they are found in different orders.
-/

namespace Lookahead

def Item.relabel (e : Equiv.Perm Nat) (σ : Nat → Equiv.Perm Nat) : Equiv.Perm Item where
  toFun i := ⟨e i.left, σ i.left i.production, i.position⟩
  invFun i := ⟨e.symm i.left, (σ (e.symm i.left)).symm i.production, i.position⟩
  left_inv i := by simp
  right_inv i := by simp

namespace Grammar.Relabels

variable {g h : Grammar} {e : Equiv.Perm Nat} {σ : Nat → Equiv.Perm Nat} (r : Relabels e σ g h)

include r

theorem nextSymbol (i : Item) :
    h.nextSymbol (Item.relabel e σ i) = (g.nextSymbol i).map e := by
  change (h.body (e i.left) (σ i.left i.production))[i.position]? = _
  rw [r.body_map, List.getElem?_map, Grammar.nextSymbol]

theorem nextSymbol_eq_none {i : Item} :
    h.nextSymbol (Item.relabel e σ i) = none ↔ g.nextSymbol i = none := by
  rw [r.nextSymbol, Option.map_eq_none_iff]

theorem nextSymbol_eq_some {i : Item} {s : Nat} :
    h.nextSymbol (Item.relabel e σ i) = some (e s) ↔ g.nextSymbol i = some s := by
  rw [r.nextSymbol]
  exact (Option.map_injective e.injective).eq_iff (b := some s)

theorem initialItem (left production : Nat) :
    Item.relabel e σ (g.initialItem left production) =
      h.initialItem (e left) (σ left production) := by
  have hsame : (fun s => s == epsilon) ∘ e = fun s => s == epsilon := by
    funext s
    rw [Function.comp_apply, Bool.eq_iff_iff, beq_iff_eq, beq_iff_eq, r.apply_eq_epsilon]
  simp only [Grammar.initialItem, Item.relabel, r.body_map, List.takeWhile_map, List.length_map,
    hsame]
  rfl

theorem mem_initialItems {left : Nat} {i : Item} (hi : i ∈ g.initialItems left) :
    Item.relabel e σ i ∈ h.initialItems (e left) := by
  obtain ⟨production, hlt, rfl⟩ := Grammar.mem_initialItems.mp hi
  refine Grammar.mem_initialItems.mpr ⟨σ left production, ?_, r.initialItem left production⟩
  have hbody := r.bodies left production
  rw [List.getElem?_eq_getElem hlt] at hbody
  exact (List.getElem?_eq_some_iff.mp hbody).1

end Grammar.Relabels

namespace LR0

open Grammar

/-- The grammars of the automata are the same under other numbers, with the added nonterminals. -/
structure Automaton.Relabels (e : Equiv.Perm Nat) (σ : Nat → Equiv.Perm Nat) (a b : Automaton) :
    Prop extends Grammar.Relabels e σ a.grammar b.grammar where
  accept : e a.accept = b.accept
  production : σ a.accept 0 = 0

section Augment

variable {g h : Grammar} {e : Equiv.Perm Nat} {σ : Nat → Equiv.Perm Nat} (r : Renaming e σ g h)
  (hg : g.WellFormed) (hgstart : g.isNonterminal g.start = true)
  (hh : h.WellFormed) (hhstart : h.isNonterminal h.start = true)

include r

theorem apply_eq_size {s : Nat} : e s = h.size ↔ s = g.size := by
  have hsize : e g.size = h.size := (r.fixed g.size le_rfl).trans r.size_eq.symm
  rw [← hsize, e.apply_eq_iff_eq]

include hg hgstart hh hhstart

/-- The permutations extend to the grammars with the added nonterminals. -/
theorem relabels_build (name name' : String) :
    (build g name).Relabels e (fun left => if left = g.size then 1 else σ left)
      (build h name') where
  map_epsilon := r.map_epsilon
  isTerminal s := by
    change (augment h name').isTerminal (e s) = (augment g name).isTerminal s
    rw [isTerminal_augment hhstart, isTerminal_augment hgstart, r.isTerminal]
  isNonterminal s := by
    change (augment h name').isNonterminal (e s) = (augment g name).isNonterminal s
    rw [Bool.eq_iff_iff, isNonterminal_augment hh hhstart, isNonterminal_augment hg hgstart,
      apply_eq_size r, r.isNonterminal]
  bodies left p := by
    change ((augment h name').bodies (e left))[_]? = (((augment g name).bodies left)[p]?).map _
    rw [bodies_augment hh hhstart, bodies_augment hg hgstart]
    simp only [apply_eq_size r]
    split
    · rw [← List.getElem?_map, List.map_singleton, List.map_singleton, r.map_start]
      rfl
    · exact r.bodies left p
  accept := (apply_eq_size r).mpr rfl
  production := by
    change (if g.size = g.size then (1 : Equiv.Perm Nat) else σ g.size) 0 = 0
    rw [if_pos rfl]
    rfl

end Augment

variable {a b : Automaton} {e : Equiv.Perm Nat} {σ : Nat → Equiv.Perm Nat}

namespace Automaton.Relabels

variable (r : a.Relabels e σ b)

include r

theorem symm : b.Relabels e.symm (fun left => (σ (e.symm left)).symm) a where
  toRelabels := r.toRelabels.symm
  accept := by
    rw [Equiv.symm_apply_eq, r.accept]
  production := by
    rw [← r.accept, e.symm_apply_apply, Equiv.symm_apply_eq, r.production]

/-- A valid item is valid under the other numbers. -/
theorem valid {string : List Nat} {i : Item} (hi : a.Valid string i) :
    b.Valid (string.map e) (Item.relabel e σ i) := by
  induction hi with
  | start =>
      rw [r.initialItem, r.accept, r.production]
      exact .start
  | move _ hnext ih =>
      rw [List.map_append]
      exact .move ih (r.nextSymbol_eq_some.mpr hnext)
  | expand _ hnext hnon hmem ih =>
      exact .expand ih (r.nextSymbol_eq_some.mpr hnext) ((r.isNonterminal _).trans hnon)
        (r.mem_initialItems hmem)

theorem valid_iff {string : List Nat} {i : Item} :
    b.Valid (string.map e) (Item.relabel e σ i) ↔ a.Valid string i := by
  refine ⟨fun hi => ?_, r.valid⟩
  have hback := r.symm.valid hi
  rw [List.map_map, e.symm_comp_self, List.map_id] at hback
  exact (Item.relabel e σ).symm_apply_apply i ▸ hback

variable {h : Grammar} {symbols : List Nat} (hcollects : a.Collects symbols) (hb : b.IsFor h)

include hcollects hb

/-- Each state of the one automaton has its image among those of the other. -/
theorem size_states_le : a.states.size ≤ b.states.size := by
  let image : ItemSet → ItemSet := fun items => items.image (Item.relabel e σ)
  have hnodup : ((a.states.toList.map State.items).map image).Nodup :=
    hcollects.nodup.map (SortedSet.image_injective _)
  have hsubset : (a.states.toList.map State.items).map image ⊆ b.states.toList.map State.items := by
    intro items hitems
    obtain ⟨_, hmem, rfl⟩ := List.mem_map.mp hitems
    obtain ⟨s, hs, rfl⟩ := List.mem_map.mp hmem
    obtain ⟨k, hk⟩ := List.mem_iff_getElem?.mp hs
    obtain ⟨string, ⟨i, hi⟩, hvalid⟩ := hcollects.reached (Array.getElem?_toList ▸ hk)
    obtain ⟨k', s', hs', hvalid'⟩ := (r.valid hi).exists_state hb
    have hsame : s'.items = image s.items := by
      ext j
      obtain ⟨j, rfl⟩ := (Item.relabel e σ).surjective j
      rw [hvalid', r.valid_iff, SortedSet.apply_mem_image, hvalid]
    rw [← hsame]
    exact List.mem_map_of_mem (Array.mem_toList_iff.mpr (Array.mem_of_getElem? hs'))
  simpa using (hnodup.subperm hsubset).length_le

end Automaton.Relabels

end LR0
end Lookahead
