import Lookahead.Proofs.SLR1.Steps
import Mathlib.Data.Set.Finite.Lattice
import Mathlib.Order.WellFounded

/-!
When reductions go on forever. While one terminal is at hand the machine only reduces, and every
reduction leaves some lower part of the string alone. Reductions that never end leave infinitely many
lower parts alone for good, so that two of these are followed by the same symbol and have the same
valid items; what happens between them can be repeated without end. A loop is such a piece of work.
-/

namespace Lookahead.SLR1

open Grammar LR0 Relation

variable {g : Grammar} {a : Automaton} {follow : FollowSets} {t : Nat}

/-- The string can stand on the stack right after a shift, or before any turn: it is the start of a
string that the automaton can read, it yields a word, and no reduction has come since the shift. -/
def Lands (g : Grammar) (a : Automaton) (string : List Nat) : Prop :=
  (∃ i, a.Valid string i) ∧ (∃ word, g.Yields string word) ∧
    (string = [] ∨ ∃ front s, string = front ++ [s] ∧ g.isTerminal s = true)

def Arrives (g : Grammar) (a : Automaton) (follow : FollowSets) (t : Nat) (string : List Nat) :
    Prop :=
  ∃ landing, Lands g a landing ∧ ReflTransGen (Reduces a follow t) landing string

/-- A reduction that leaves the lower part `front` of the string alone. -/
def ReducesAbove (a : Automaton) (follow : FollowSets) (t : Nat) (front upper upper' : List Nat) :
    Prop :=
  upper' ≠ [] ∧ Reduces a follow t (front ++ upper) (front ++ upper')

/-- While some terminal is at hand, reductions above `front` lead from a symbol to the same symbol
above `front ++ pumped`, and `pumped` makes no difference to the items that are valid. -/
def Loops (g : Grammar) (a : Automaton) (follow : FollowSets) : Prop :=
  ∃ t front s pumped, Arrives g a follow t (front ++ [s]) ∧
    (∀ i, a.Valid (front ++ pumped) i ↔ a.Valid front i) ∧
    TransGen (ReducesAbove a follow t front) [s] (pumped ++ [s])

/-! A loop goes on forever. -/

/-- What happens above a lower part depends only on the items that are valid for it. -/
theorem ReducesAbove.reduces {front front' upper upper' : List Nat}
    (h : ReducesAbove a follow t front upper upper')
    (hsame : ∀ i, a.Valid front' i ↔ a.Valid front i) :
    Reduces a follow t (front' ++ upper) (front' ++ upper') := by
  obtain ⟨hne, bottom, i, hi, hdone, hleft, hfollow, hupper, hupper'⟩ := h
  obtain rfl | ⟨rest, s, rfl⟩ := List.eq_nil_or_concat' upper'
  · exact absurd rfl hne
  · rw [← List.append_assoc] at hupper'
    obtain ⟨rfl, hs⟩ := List.append_inj' hupper' rfl
    rw [List.append_assoc] at hupper
    refine ⟨front' ++ rest, i, ?_, hdone, hleft, hfollow, ?_, ?_⟩
    · exact (valid_append_congr hsame upper i).mpr hi
    · rw [List.append_cancel_left hupper, List.append_assoc]
    · rw [hs, List.append_assoc]

/-- What makes no difference once makes none when it is repeated. -/
theorem valid_pump {front pumped : List Nat}
    (h : ∀ i, a.Valid (front ++ pumped) i ↔ a.Valid front i) (k : Nat) :
    ∀ i, a.Valid (front ++ (List.replicate k pumped).flatten) i ↔ a.Valid front i := by
  induction k with
  | zero => simp
  | succ k ih =>
      intro i
      rw [List.replicate_succ, List.flatten_cons, ← List.append_assoc]
      exact (valid_append_congr h _ i).trans (ih i)

/-- A cycle that leaves more on the stack each time can be gone round without end. -/
theorem not_acc_of_cycle {front pumped : List Nat} {s : Nat}
    (hsame : ∀ i, a.Valid (front ++ pumped) i ↔ a.Valid front i)
    (hcycle : TransGen (ReducesAbove a follow t front) [s] (pumped ++ [s])) :
    ¬ Acc (flip (Reduces a follow t)) (front ++ [s]) := by
  -- the string is somewhere on its way through the cycle, which was gone through `k` times
  suffices ∀ string, Acc (flip (Reduces a follow t)) string → ∀ k upper,
      string = front ++ (List.replicate k pumped).flatten ++ upper →
      TransGen (ReducesAbove a follow t front) upper (pumped ++ [s]) → False from
    fun hacc => this _ hacc 0 [s] (by simp) hcycle
  intro string hacc
  induction hacc with
  | intro string _ ih =>
      rintro k upper rfl hrest
      obtain ⟨upper', hstep, hrest⟩ := TransGen.head'_iff.mp hrest
      have hreduces := hstep.reduces (valid_pump hsame k)
      rcases reflTransGen_iff_eq_or_transGen.mp hrest with heq | hrest
      · refine ih _ hreduces (k + 1) [s] ?_ hcycle
        rw [← heq, List.replicate_succ']
        simp
      · exact ih _ hreduces k upper' rfl hrest

/-! Reductions that go on forever come from a loop. -/

section Chain

variable {f : Nat → List Nat}

theorem reflTransGen_of_chain (hf : ∀ n, Reduces a follow t (f n) (f (n + 1))) (n : Nat) :
    ReflTransGen (Reduces a follow t) (f 0) (f n) := by
  induction n with
  | zero => exact .refl
  | succ n ih => exact ih.tail (hf n)

def IsFloor (f : Nat → List Nat) (n : Nat) : Prop :=
  ∀ k ≥ n, (f (n + 1)).length ≤ (f (k + 1)).length

/-- A sequence of strings comes to a floor again and again. -/
theorem infinite_floors (f : Nat → List Nat) : {n | IsFloor f n}.Infinite := by
  classical
  apply Set.infinite_of_forall_exists_gt
  intro m
  have hsome : ∃ height, ∃ k > m, (f (k + 1)).length = height := ⟨_, m + 1, by omega, rfl⟩
  obtain ⟨n, hn, hheight⟩ := Nat.find_spec hsome
  refine ⟨n, fun k hk => ?_, hn⟩
  rw [hheight]
  exact Nat.find_min' hsome ⟨k, by omega, rfl⟩

/-- What stands below the symbol that a reduction has just put there. -/
theorem exists_dropLast (hf : ∀ n, Reduces a follow t (f n) (f (n + 1))) (n : Nat) :
    ∃ i, f n = (f (n + 1)).dropLast ++ (a.grammar.body i.left i.production).visible ∧
      f (n + 1) = (f (n + 1)).dropLast ++ [i.left] ∧ a.Valid (f n) i := by
  obtain ⟨front, i, hi, -, -, -, hbefore, hafter⟩ := hf n
  refine ⟨i, ?_, ?_, hi⟩
  · rw [hafter, List.dropLast_concat]
    exact hbefore
  · rw [hafter, List.dropLast_concat]

/-- The lower part at a floor is left alone for good. -/
theorem IsFloor.dropLast_prefix (hf : ∀ n, Reduces a follow t (f n) (f (n + 1))) {n : Nat}
    (hn : IsFloor f n) {k : Nat} (hk : n ≤ k) : (f (n + 1)).dropLast <+: f (k + 1) := by
  induction k, hk using Nat.le_induction with
  | base => exact List.dropLast_prefix _
  | succ k hk ih =>
      obtain ⟨i, hbefore, hafter, -⟩ := exists_dropLast hf (k + 1)
      have hlength : (f (n + 1)).length ≤ (f (k + 2)).length := hn (k + 1) (by omega)
      have hpre : (f (n + 1)).dropLast <+: (f (k + 2)).dropLast := by
        rw [hbefore] at ih
        refine List.prefix_of_prefix_length_le ih (List.prefix_append _ _) ?_
        simp only [List.length_dropLast]
        omega
      exact hpre.trans (List.dropLast_prefix _)

theorem IsFloor.exists_upper (hf : ∀ n, Reduces a follow t (f n) (f (n + 1))) {n : Nat}
    (hn : IsFloor f n) {k : Nat} (hk : n ≤ k) :
    ∃ upper ≠ [], f (k + 1) = (f (n + 1)).dropLast ++ upper := by
  obtain ⟨upper, hupper⟩ := hn.dropLast_prefix hf hk
  refine ⟨upper, ?_, hupper.symm⟩
  rintro rfl
  obtain ⟨i, -, hafter, -⟩ := exists_dropLast hf n
  have hlength := hn k hk
  rw [← hupper, hafter] at hlength
  simp at hlength

/-- All that happens from one floor on happens above it. -/
theorem IsFloor.transGen (hf : ∀ n, Reduces a follow t (f n) (f (n + 1))) {n : Nat}
    (hn : IsFloor f n) {s : Nat} (hs : f (n + 1) = (f (n + 1)).dropLast ++ [s]) {k : Nat}
    (hk : n < k) {upper : List Nat} (hupper : f (k + 1) = (f (n + 1)).dropLast ++ upper) :
    TransGen (ReducesAbove a follow t (f (n + 1)).dropLast) [s] upper := by
  have hne {k : Nat} (hk : n ≤ k) {upper : List Nat}
      (hupper : f (k + 1) = (f (n + 1)).dropLast ++ upper) : upper ≠ [] := by
    obtain ⟨upper', hne, hsame⟩ := hn.exists_upper hf hk
    rwa [List.append_cancel_left (hupper.symm.trans hsame)]
  induction k, hk using Nat.le_induction generalizing upper with
  | base =>
      refine .single ⟨hne (by omega) hupper, ?_⟩
      rw [← hs, ← hupper]
      exact hf (n + 1)
  | succ k hk ih =>
      obtain ⟨middle, -, hmiddle⟩ := hn.exists_upper hf (k := k) (by omega)
      refine .tail (ih hmiddle) ⟨hne (by omega) hupper, ?_⟩
      rw [← hmiddle, ← hupper]
      exact hf (k + 1)

end Chain

open Classical in
/-- Two floors with the same symbol on top and the same valid items below it. There are only
finitely many such views of a floor. -/
theorem exists_floors_alike (hholds : ∀ {string i}, a.Valid string i → a.grammar.Holds i)
    {f : Nat → List Nat} (hf : ∀ n, Reduces a follow t (f n) (f (n + 1))) :
    ∃ n m s, IsFloor f n ∧ n < m ∧
      f (n + 1) = (f (n + 1)).dropLast ++ [s] ∧ f (m + 1) = (f (m + 1)).dropLast ++ [s] ∧
      ∀ i, a.Valid (f (n + 1)).dropLast i ↔ a.Valid (f (m + 1)).dropLast i := by
  choose item _ hafter hvalid using exists_dropLast hf
  let items (n : Nat) : Finset Item :=
    (allItems a.grammar).toFinset.filter (a.Valid (f (n + 1)).dropLast)
  have hview : Set.MapsTo (fun n => (items n, (item n).left)) {n | IsFloor f n}
      ((allItems a.grammar).toFinset.powerset ×ˢ Finset.range a.grammar.size :
        Finset (Finset Item × Nat)) := by
    intro n _
    refine Finset.mem_coe.mpr (Finset.mem_product.mpr ⟨?_, Finset.mem_range.mpr ?_⟩)
    · exact Finset.mem_powerset.mpr (Finset.filter_subset _ _)
    · obtain ⟨m, hm, -⟩ := mem_bodies_iff.mp (hholds (hvalid n)).body_mem
      exact lt_size_of_getElem? hm
  obtain ⟨n, hn, m, hm, hne, hsame⟩ :=
    (infinite_floors f).exists_ne_map_eq_of_mapsTo hview (Finset.finite_toSet _)
  wlog hlt : n < m generalizing n m
  · exact this m hm n hn hne.symm hsame.symm (by omega)
  obtain ⟨hitems, hleft⟩ := Prod.mk.inj hsame
  refine ⟨n, m, (item n).left, hn, hlt, hafter n, hleft ▸ hafter m, fun i => ?_⟩
  have hmem {k : Nat} : i ∈ items k ↔ a.Valid (f (k + 1)).dropLast i := by
    simp only [items, Finset.mem_filter, List.mem_toFinset, and_iff_right_iff_imp]
    exact fun hi => mem_allItems (hholds hi)
  rw [← hmem, ← hmem, hitems]

/-- Reductions that never end hold a loop. -/
theorem loops_of_chain (hholds : ∀ {string i}, a.Valid string i → a.grammar.Holds i)
    {f : Nat → List Nat} (hlands : Lands g a (f 0))
    (hf : ∀ n, Reduces a follow t (f n) (f (n + 1))) : Loops g a follow := by
  obtain ⟨n, m, s, hn, hlt, hs, hs', hsame⟩ := exists_floors_alike hholds hf
  -- the second floor is above the first one
  have hpre : (f (n + 1)).dropLast <+: (f (m + 1)).dropLast := by
    refine List.prefix_of_prefix_length_le (hn.dropLast_prefix hf hlt.le)
      (List.dropLast_prefix _) ?_
    have := hn m hlt.le
    simp only [List.length_dropLast]
    omega
  obtain ⟨pumped, hpumped⟩ := hpre
  have hupper : f (m + 1) = (f (n + 1)).dropLast ++ (pumped ++ [s]) := by
    rw [← List.append_assoc, hpumped]
    exact hs'
  refine ⟨t, (f (n + 1)).dropLast, s, pumped, ⟨f 0, hlands, ?_⟩, fun i => ?_,
    hn.transGen hf hs hlt hupper⟩
  · rw [← hs]
    exact reflTransGen_of_chain hf (n + 1)
  · rw [hpumped]
    exact (hsame i).symm

end Lookahead.SLR1
