/-!
Finite maps kept as lists of entries with strictly ascending keys. A later value for a key replaces
the earlier one, and two maps that answer every key alike are equal.
-/

namespace Lookahead

open Std

/-- A finite map, listed in ascending order of its keys. -/
structure SortedMap (κ ν : Type) [Ord κ] where
  entries : List (κ × ν)
  ascending : entries.Pairwise fun a b => compare a.1 b.1 = .lt
  deriving DecidableEq

namespace SortedMap

variable {κ ν : Type} [Ord κ]

def empty : SortedMap κ ν := ⟨[], .nil⟩

instance : EmptyCollection (SortedMap κ ν) := ⟨empty⟩

instance : Inhabited (SortedMap κ ν) := ⟨∅⟩

def size (m : SortedMap κ ν) : Nat := m.entries.length

def isEmpty (m : SortedMap κ ν) : Bool := m.entries.isEmpty

def keys (m : SortedMap κ ν) : List κ := m.entries.map (·.1)

/-- The value under the key `k`. -/
def find? (m : SortedMap κ ν) (k : κ) : Option ν :=
  (m.entries.find? fun e => compare e.1 k == .eq).map (·.2)

@[simp] theorem find?_empty (k : κ) : (∅ : SortedMap κ ν).find? k = none := rfl

def contains (m : SortedMap κ ν) (k : κ) : Bool := (m.find? k).isSome

/-- Places an entry in an ascending list of entries, over an entry of the same key. -/
def place (k : κ) (v : ν) : List (κ × ν) → List (κ × ν)
  | [] => [(k, v)]
  | e :: l =>
    match compare k e.1 with
    | .lt => (k, v) :: e :: l
    | .eq => (k, v) :: l
    | .gt => e :: place k v l

private theorem mem_place {k : κ} {v : ν} {l : List (κ × ν)} {e : κ × ν} (h : e ∈ place k v l) :
    e = (k, v) ∨ e ∈ l := by
  induction l with
  | nil => simpa [place] using h
  | cons a l ih =>
    rw [place] at h
    split at h <;> grind

private theorem ascending_place [TransOrd κ] [LawfulEqOrd κ] (k : κ) (v : ν) {l : List (κ × ν)}
    (h : l.Pairwise fun a b => compare a.1 b.1 = .lt) :
    (place k v l).Pairwise fun a b => compare a.1 b.1 = .lt := by
  induction l with
  | nil => simp [place]
  | cons e l ih =>
    have h' := List.pairwise_cons.mp h
    rw [place]
    split <;> rename_i hk
    · refine List.pairwise_cons.mpr ⟨fun x hx => ?_, h⟩
      rcases List.mem_cons.mp hx with rfl | hx
      · exact hk
      · exact TransCmp.lt_trans hk (h'.1 x hx)
    · have hk := LawfulEqCmp.eq_of_compare hk
      exact List.pairwise_cons.mpr ⟨fun x hx => hk ▸ h'.1 x hx, h'.2⟩
    · refine List.pairwise_cons.mpr ⟨fun x hx => ?_, ih h'.2⟩
      rcases mem_place hx with rfl | hx
      · exact OrientedCmp.lt_of_gt hk
      · exact h'.1 x hx

section Lawful

variable [TransOrd κ] [LawfulEqOrd κ]

def insert (m : SortedMap κ ν) (k : κ) (v : ν) : SortedMap κ ν :=
  ⟨place k v m.entries, ascending_place k v m.ascending⟩

theorem find?_insert [DecidableEq κ] (m : SortedMap κ ν) (k : κ) (v : ν) (x : κ) :
    (m.insert k v).find? x = if k = x then some v else m.find? x := by
  suffices ∀ l : List (κ × ν), ((place k v l).find? fun e => compare e.1 x == .eq).map (·.2) =
      if k = x then some v else (l.find? fun e => compare e.1 x == .eq).map (·.2) from
    this m.entries
  intro l
  have self (a : κ) : (compare a a == .eq) = true := by simp
  have other {a : κ} (h : a ≠ x) : (compare a x == .eq) = false := by simpa using h
  induction l with
  | nil => by_cases h : k = x <;> simp [place, h]
  | cons e l ih =>
    rw [place]
    split <;> rename_i hk
    · by_cases h : k = x <;> simp [h]
    · have hk := LawfulEqCmp.eq_of_compare hk
      by_cases h : k = x <;> simp [h, ← hk]
    · by_cases he : e.1 = x
      · have hne : k ≠ x := by
          rintro rfl
          simp [he] at hk
        simp [he, hne]
      · simp [he, ih]

def ofList (l : List (κ × ν)) : SortedMap κ ν := l.foldl (fun m e => m.insert e.1 e.2) ∅

end Lawful

end SortedMap
end Lookahead
