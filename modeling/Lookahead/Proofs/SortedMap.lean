import Lookahead.SortedMap
import Mathlib.Tactic

/-!
How the entries of a map and its answers belong together: a key is answered by the one entry it has,
and a map made from a list with distinct keys answers what the list says.
-/

namespace Lookahead.SortedMap

open Std

variable {κ ν : Type} [Ord κ] [LawfulEqOrd κ]

theorem find?_eq_some_iff (m : SortedMap κ ν) (k : κ) (v : ν) :
    m.find? k = some v ↔ (k, v) ∈ m.entries := by
  obtain ⟨l, hl⟩ := m
  unfold find?
  induction l with
  | nil => simp
  | cons e l ih =>
      have hl' := List.pairwise_cons.mp hl
      by_cases he : e.1 = k
      · subst he
        have hnot : ∀ w, (e.1, w) ∉ l := by
          intro w hw
          have hlt := hl'.1 _ hw
          simp at hlt
        simp [hnot, Prod.ext_iff, eq_comm]
      · have hne : (compare e.1 k == .eq) = false := by simpa using he
        have hnot : (k, v) ≠ e := by
          rintro rfl
          exact he rfl
        simpa [hne, hnot] using ih hl'.2

theorem nodup_keys (m : SortedMap κ ν) : m.keys.Nodup := by
  unfold keys
  refine List.pairwise_map.mpr (m.ascending.imp fun {a b} hlt heq => ?_)
  simp [heq] at hlt

theorem contains_iff_mem_keys (m : SortedMap κ ν) (k : κ) :
    m.contains k = true ↔ k ∈ m.keys := by
  simp [contains, Option.isSome_iff_exists, find?_eq_some_iff, keys]

theorem find?_ofList [TransOrd κ] [DecidableEq κ] {l : List (κ × ν)}
    (hl : (l.map (·.1)).Nodup) (k : κ) (v : ν) :
    (ofList l).find? k = some v ↔ (k, v) ∈ l := by
  suffices ∀ m : SortedMap κ ν, (∀ e ∈ l, m.find? e.1 = none) →
      ((l.foldl (fun m e => m.insert e.1 e.2) m).find? k = some v ↔
        m.find? k = some v ∨ (k, v) ∈ l) by
    simpa [ofList] using this ∅ (by simp)
  induction l with
  | nil => simp
  | cons e l ih =>
      intro m hm
      have hl' := List.nodup_cons.mp hl
      have hrest : ∀ e' ∈ l, (m.insert e.1 e.2).find? e'.1 = none := by
        intro e' he'
        have hne : e.1 ≠ e'.1 := by
          intro h
          exact hl'.1 (List.mem_map.mpr ⟨e', he', h.symm⟩)
        rw [find?_insert, if_neg hne]
        exact hm e' (by simp [he'])
      rw [List.foldl_cons, ih hl'.2 _ hrest, find?_insert, List.mem_cons]
      by_cases hk : e.1 = k
      · have hnone : m.find? k = none := hk ▸ hm e (by simp)
        have hrest : (k, v) ∉ l := fun h => hl'.1 (List.mem_map.mpr ⟨_, h, hk.symm⟩)
        simp [hk, hnone, hrest, Prod.ext_iff, eq_comm]
      · have hne : (k, v) ≠ e := by
          rintro rfl
          exact hk rfl
        simp [hk, hne]

end Lookahead.SortedMap
