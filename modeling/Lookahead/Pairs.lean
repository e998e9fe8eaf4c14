/-!
The pairs of a list, each element with each later one.
-/

namespace Lookahead

def pairs {α : Type} : List α → List (α × α)
  | [] => []
  | a :: l => l.map (a, ·) ++ pairs l

theorem mem_pairs_iff {α : Type} {a b : α} {l : List α} :
    (a, b) ∈ pairs l ↔ ∃ i j : Nat, i < j ∧ l[i]? = some a ∧ l[j]? = some b := by
  induction l with
  | nil => simp [pairs]
  | cons c l ih =>
    simp only [pairs, List.mem_append, List.mem_map, Prod.mk.injEq, ih]
    constructor
    · rintro (⟨x, hx, rfl, rfl⟩ | ⟨i, j, hij, hi, hj⟩)
      · obtain ⟨j, hj⟩ := List.mem_iff_getElem?.mp hx
        exact ⟨0, j + 1, by omega, rfl, hj⟩
      · exact ⟨i + 1, j + 1, by omega, hi, hj⟩
    · rintro ⟨i, j, hij, hi, hj⟩
      obtain ⟨k, rfl⟩ : ∃ k, j = k + 1 := ⟨j - 1, by omega⟩
      cases i with
      | zero => exact .inl ⟨b, List.mem_of_getElem? hj, Option.some.inj hi, rfl⟩
      | succ i => exact .inr ⟨i, k, by omega, hi, hj⟩

theorem mem_of_mem_pairs {α : Type} {a b : α} {l : List α} (h : (a, b) ∈ pairs l) :
    a ∈ l ∧ b ∈ l := by
  obtain ⟨i, j, -, hi, hj⟩ := mem_pairs_iff.mp h
  exact ⟨List.mem_of_getElem? hi, List.mem_of_getElem? hj⟩

theorem ne_of_mem_pairs {α : Type} {a b : α} {l : List α} (hl : l.Nodup) (h : (a, b) ∈ pairs l) :
    a ≠ b := by
  rintro rfl
  obtain ⟨i, j, hij, hi, hj⟩ := mem_pairs_iff.mp h
  have hlt := (List.getElem?_eq_some_iff.mp hi).1
  exact Nat.ne_of_lt hij ((List.getElem?_inj hlt hl).mp (hi.trans hj.symm))

/-- Two elements of a list are a pair of it in one order or the other. -/
theorem mem_pairs_of_ne {α : Type} {a b : α} {l : List α} (ha : a ∈ l) (hb : b ∈ l) (hne : a ≠ b) :
    (a, b) ∈ pairs l ∨ (b, a) ∈ pairs l := by
  obtain ⟨i, hi⟩ := List.mem_iff_getElem?.mp ha
  obtain ⟨j, hj⟩ := List.mem_iff_getElem?.mp hb
  have hij : i ≠ j := by
    rintro rfl
    exact hne (Option.some.inj (hi.symm.trans hj))
  rcases Nat.lt_or_gt_of_ne hij with hlt | hlt
  · exact .inl (mem_pairs_iff.mpr ⟨i, j, hlt, hi, hj⟩)
  · exact .inr (mem_pairs_iff.mpr ⟨j, i, hlt, hj, hi⟩)

end Lookahead
