import Lookahead.Grammar.Basic
import Lookahead.Proofs.SortedMap
import Mathlib.Tactic

/-!
What every grammar keeps while it is built from names that are not taken. Symbols stand at their
numbers, a body is `[0]` or a string of symbols of the grammar without 0 and without the end mark,
and the name table and the names of the symbols tell the same story. Each building step has one
lemma for each of the views `symbols[i]?`, `name?`, `index?`, `isTerminal`, `isNonterminal` and
`bodies`, and one that it keeps a grammar well-formed.
-/

namespace Lookahead

theorem ne_epsilon_of_lt {s : Nat} (h : endMark < s) : s ≠ epsilon := by
  rintro rfl
  simp [epsilon] at h

theorem Body.mem_visible {body : Body} {s : Nat} :
    s ∈ body.visible ↔ s ∈ body ∧ s ≠ epsilon := by
  simp [Body.visible]

@[simp] theorem Body.visible_epsilon : Body.visible [epsilon] = [] := rfl

theorem Body.visible_append (u v : Body) : Body.visible (u ++ v) = u.visible ++ v.visible :=
  List.filter_append u v

@[simp] theorem Body.visible_visible (body : Body) : body.visible.visible = body.visible := by
  simp [Body.visible]

@[simp] theorem Body.visible_normalize (body : Body) : body.normalize.visible = body.visible := by
  unfold Body.normalize
  split
  · next h => rw [Body.visible_epsilon, List.isEmpty_iff.mp h]
  · exact body.visible_visible

theorem Body.visible_cons {s : Nat} (hs : s ≠ epsilon) (body : Body) :
    Body.visible (s :: body) = s :: body.visible := by
  simp [Body.visible, hs]

theorem Body.visible_of_not_mem {body : Body} (h : epsilon ∉ body) : body.visible = body := by
  apply List.filter_eq_self.mpr
  intro s hs
  simp only [decide_not, Bool.not_eq_eq_eq_not, Bool.not_true, decide_eq_false_iff_not]
  rintro rfl
  exact h hs

theorem Body.normalize_visible (body : Body) : body.visible.normalize = body.normalize := by
  simp [Body.normalize, Body.visible]

theorem Body.visible_of_lt {body : Body} (h : ∀ s ∈ body, endMark < s) : body.visible = body := by
  apply Body.visible_of_not_mem
  intro hmem
  exact ne_epsilon_of_lt (h epsilon hmem) rfl

theorem Body.normalize_of_lt {body : Body} (hne : body ≠ []) (h : ∀ s ∈ body, endMark < s) :
    body.normalize = body := by
  rw [Body.normalize, Body.visible_of_lt h, if_neg (by simpa using hne)]

namespace Grammar

variable {g : Grammar}

theorem nonterminal?_eq_some {i : Nat} {n : Nonterminal} :
    g.nonterminal? i = some n ↔ g.symbols[i]? = some (.nonterminal n) := by
  unfold nonterminal?
  cases hs : g.symbols[i]? with
  | none => simp
  | some s => cases s <;> simp [Symbol.nonterminal?]

theorem isTerminal_iff {i : Nat} :
    g.isTerminal i = true ↔ ∃ name, g.symbols[i]? = some (.terminal name) := by
  unfold isTerminal
  cases hs : g.symbols[i]? with
  | none => simp
  | some s => cases s <;> simp [Symbol.isTerminal]

/-- The empty string is kept as a nonterminal, but does not count as one. -/
theorem isNonterminal_iff {i : Nat} :
    g.isNonterminal i = true ↔ i ≠ epsilon ∧ ∃ n, g.symbols[i]? = some (.nonterminal n) := by
  simp [isNonterminal, Option.isSome_iff_exists, nonterminal?_eq_some]

theorem mem_bodies_iff {left : Nat} {body : Body} :
    body ∈ g.bodies left ↔ ∃ n, g.symbols[left]? = some (.nonterminal n) ∧ body ∈ n.bodies := by
  unfold bodies
  cases hn : g.nonterminal? left with
  | none =>
      have hnone : ∀ n, g.symbols[left]? ≠ some (.nonterminal n) := fun n h => by
        simp [nonterminal?_eq_some.mpr h] at hn
      simp [hnone]
  | some n => simp [nonterminal?_eq_some.mp hn]

theorem bodies_eq {i : Nat} {n : Nonterminal} (h : g.symbols[i]? = some (.nonterminal n)) :
    g.bodies i = n.bodies := by
  simp [bodies, nonterminal?_eq_some.mpr h]

theorem lt_size_of_getElem? {i : Nat} {s : Symbol} (h : g.symbols[i]? = some s) : i < g.size :=
  (Array.getElem?_eq_some_iff.mp h).1

theorem lt_size_of_name? {i : Nat} {name : String} (h : g.name? i = some name) : i < g.size := by
  obtain ⟨symbol, hsymbol, -⟩ := Option.map_eq_some_iff.mp h
  exact lt_size_of_getElem? hsymbol

theorem name?_eq_none_of_le {i : Nat} (h : g.size ≤ i) : g.name? i = none := by
  rw [name?, Array.getElem?_eq_none h]
  rfl

theorem lt_size_of_isTerminal {i : Nat} (h : g.isTerminal i = true) : i < g.size := by
  obtain ⟨name, hname⟩ := isTerminal_iff.mp h
  exact lt_size_of_getElem? hname

theorem lt_size_of_isNonterminal {i : Nat} (h : g.isNonterminal i = true) : i < g.size := by
  obtain ⟨_, n, hn⟩ := isNonterminal_iff.mp h
  exact lt_size_of_getElem? hn

theorem not_isNonterminal_of_isTerminal {i : Nat} (h : g.isTerminal i = true) :
    g.isNonterminal i = false := by
  obtain ⟨name, hname⟩ := isTerminal_iff.mp h
  rw [Bool.eq_false_iff]
  intro hn
  obtain ⟨_, n, hn⟩ := isNonterminal_iff.mp hn
  simp [hname] at hn

/-- Every symbol but the empty string is of one of the two kinds. -/
theorem isTerminal_or_isNonterminal {i : Nat} (hlt : i < g.size) (hne : i ≠ epsilon) :
    g.isTerminal i = true ∨ g.isNonterminal i = true := by
  obtain ⟨s, hs⟩ : ∃ s, g.symbols[i]? = some s := ⟨_, Array.getElem?_eq_getElem hlt⟩
  cases s with
  | nonterminal n => exact .inr (isNonterminal_iff.mpr ⟨hne, n, hs⟩)
  | terminal name => exact .inl (isTerminal_iff.mpr ⟨name, hs⟩)

theorem bodies_size : g.bodies g.size = [] := by
  simp [bodies, nonterminal?, size]

/-! What the building steps do to the symbols. -/

@[simp] theorem size_addNonterminal (name : String) :
    (g.addNonterminal name).size = g.size + 1 := by
  simp [addNonterminal, size]

@[simp] theorem size_addTerminal (name : String) : (g.addTerminal name).size = g.size + 1 := by
  simp [addTerminal, size]

@[simp] theorem size_updateBodies (left : Nat) (f : List Body → List Body) :
    (g.updateBodies left f).size = g.size := by
  unfold updateBodies size
  split <;> simp

theorem symbols_empty {i : Nat} {s : Symbol} (h : (∅ : Grammar).symbols[i]? = some s) :
    i = epsilon ∧ s = .nonterminal ⟨epsilon, epsilonName, []⟩ ∨
      i = endMark ∧ s = .terminal endMarkName := by
  rcases i with _ | _ | i
  · exact .inl ⟨rfl, (Option.some.inj h).symm⟩
  · exact .inr ⟨rfl, (Option.some.inj h).symm⟩
  · cases h

/-- A new nonterminal comes after all symbols that are there. -/
theorem symbols_addNonterminal (name : String) (i : Nat) :
    (g.addNonterminal name).symbols[i]? =
      if i = g.size then some (.nonterminal ⟨g.size, name, []⟩) else g.symbols[i]? :=
  Array.getElem?_push

theorem symbols_addTerminal (name : String) (i : Nat) :
    (g.addTerminal name).symbols[i]? =
      if i = g.size then some (.terminal name) else g.symbols[i]? :=
  Array.getElem?_push

/-- Only the left side is changed, and only if it is not the empty string. -/
theorem symbols_updateBodies (left : Nat) (f : List Body → List Body) (i : Nat) :
    (g.updateBodies left f).symbols[i]? =
      if i = left ∧ left ≠ epsilon then g.symbols[i]?.map (Symbol.mapBodies f)
      else g.symbols[i]? := by
  unfold updateBodies
  by_cases hleft : left = epsilon
  · simp [hleft]
  · simp only [hleft, ↓reduceIte, Array.getElem?_modify, ne_eq, not_false_eq_true, and_true]
    grind

theorem name?_addNonterminal (name : String) (i : Nat) :
    (g.addNonterminal name).name? i = if i = g.size then some name else g.name? i := by
  unfold name?
  rw [symbols_addNonterminal]
  split <;> rfl

theorem name?_addTerminal (name : String) (i : Nat) :
    (g.addTerminal name).name? i = if i = g.size then some name else g.name? i := by
  unfold name?
  rw [symbols_addTerminal]
  split <;> rfl

@[simp] theorem name?_updateBodies (left : Nat) (f : List Body → List Body) (i : Nat) :
    (g.updateBodies left f).name? i = g.name? i := by
  unfold name?
  rw [symbols_updateBodies]
  split
  · cases g.symbols[i]? with
    | none => rfl
    | some s => cases s <;> rfl
  · rfl

theorem isTerminal_addNonterminal (name : String) (i : Nat) :
    (g.addNonterminal name).isTerminal i = g.isTerminal i := by
  unfold isTerminal
  rw [symbols_addNonterminal]
  split
  · next h => simp [h, size, Symbol.isTerminal]
  · rfl

@[simp] theorem isTerminal_updateBodies (left : Nat) (f : List Body → List Body) (i : Nat) :
    (g.updateBodies left f).isTerminal i = g.isTerminal i := by
  unfold isTerminal
  rw [symbols_updateBodies]
  split
  · cases g.symbols[i]? with
    | none => rfl
    | some s => cases s <;> rfl
  · rfl

theorem isNonterminal_addNonterminal (name : String) (i : Nat) :
    (g.addNonterminal name).isNonterminal i =
      (i != epsilon && i == g.size || g.isNonterminal i) := by
  unfold isNonterminal nonterminal?
  rw [symbols_addNonterminal]
  split
  · next h => simp [h, size, Symbol.nonterminal?]
  · next h => simp [h]

@[simp] theorem isNonterminal_addTerminal (name : String) (i : Nat) :
    (g.addTerminal name).isNonterminal i = g.isNonterminal i := by
  unfold isNonterminal nonterminal?
  rw [symbols_addTerminal]
  split
  · next h => simp [h, size, Symbol.nonterminal?]
  · rfl

@[simp] theorem isNonterminal_updateBodies (left : Nat) (f : List Body → List Body) (i : Nat) :
    (g.updateBodies left f).isNonterminal i = g.isNonterminal i := by
  unfold isNonterminal nonterminal?
  rw [symbols_updateBodies]
  split
  · cases g.symbols[i]? with
    | none => rfl
    | some s => cases s <;> rfl
  · rfl

theorem bodies_addNonterminal (name : String) (i : Nat) :
    (g.addNonterminal name).bodies i = g.bodies i := by
  unfold bodies nonterminal?
  rw [symbols_addNonterminal]
  split
  · next h => simp [h, size, Symbol.nonterminal?]
  · rfl

theorem bodies_addTerminal (name : String) (i : Nat) :
    (g.addTerminal name).bodies i = g.bodies i := by
  unfold bodies nonterminal?
  rw [symbols_addTerminal]
  split
  · next h => simp [h, size, Symbol.nonterminal?]
  · rfl

/-- Only a nonterminal has its alternatives changed. -/
theorem bodies_updateBodies (left : Nat) (f : List Body → List Body) (i : Nat) :
    (g.updateBodies left f).bodies i =
      if i = left ∧ g.isNonterminal left = true then f (g.bodies i) else g.bodies i := by
  unfold bodies isNonterminal nonterminal?
  rw [symbols_updateBodies]
  by_cases hi : i = left
  · subst hi
    cases hs : g.symbols[i]? with
    | none => simp
    | some s =>
        by_cases he : i = epsilon <;> cases s <;>
          simp [he, Symbol.mapBodies, Symbol.nonterminal?]
  · simp [hi]

@[simp] theorem start_addTerminal (name : String) : (g.addTerminal name).start = g.start := rfl

@[simp] theorem start_updateBodies (left : Nat) (f : List Body → List Body) :
    (g.updateBodies left f).start = g.start := by
  unfold updateBodies
  split <;> rfl

/-- The new nonterminal stands under its name, even if something stood there before. -/
theorem index?_addNonterminal (name x : String) :
    (g.addNonterminal name).index? x = if name = x then some g.size else g.index? x :=
  SortedMap.find?_insert _ _ _ _

theorem index?_addTerminal (name x : String) :
    (g.addTerminal name).index? x = if name = x then some g.size else g.index? x :=
  SortedMap.find?_insert _ _ _ _

@[simp] theorem index?_updateBodies (left : Nat) (f : List Body → List Body) (x : String) :
    (g.updateBodies left f).index? x = g.index? x := by
  unfold updateBodies
  split <;> rfl

/-- A body that a grammar may hold: the empty string, or symbols of the grammar of which none is
the empty string or the end mark. -/
def Fits (g : Grammar) (body : Body) : Prop :=
  body = [epsilon] ∨ body ≠ [] ∧ ∀ s ∈ body, endMark < s ∧ s < g.size

/-- Every symbol of the string but the empty one is a symbol of the grammar and not the end mark. -/
def Covers (g : Grammar) (symbols : List Nat) : Prop :=
  ∀ s ∈ symbols, s ≠ epsilon → endMark < s ∧ s < g.size

/-- A grammar in which symbols, bodies and names fit together. -/
structure WellFormed (g : Grammar) : Prop where
  epsilon_symbol : g.symbols[epsilon]? = some (.nonterminal ⟨epsilon, epsilonName, []⟩)
  endMark_symbol : g.symbols[endMark]? = some (.terminal endMarkName)
  index_eq : ∀ {i : Nat} {n : Nonterminal}, g.symbols[i]? = some (Symbol.nonterminal n) → n.index = i
  fits : ∀ {left : Nat} {body : Body}, body ∈ g.bodies left → g.Fits body
  name_of_index : ∀ {name : String} {i : Nat}, g.index? name = some i →
    g.name? i = some name ∨ name = epsilonAlias ∧ i = epsilon
  index_of_name : ∀ {name : String} {i : Nat}, g.name? i = some name → g.index? name = some i
  start_eq : g.start = epsilon ∧ (∀ i, g.isNonterminal i = false) ∨
    g.isNonterminal g.start = true

theorem Fits.mono {g' : Grammar} {body : Body} (h : g.Fits body) (hsize : g.size ≤ g'.size) :
    g'.Fits body := by
  refine h.imp id fun ⟨hne, hmem⟩ => ⟨hne, fun s hs => ⟨(hmem s hs).1, ?_⟩⟩
  have := (hmem s hs).2
  omega

/-- A larger grammar covers the string too. -/
theorem Covers.mono {g' : Grammar} {symbols : List Nat} (h : g.Covers symbols)
    (hsize : g.size ≤ g'.size) : g'.Covers symbols := by
  intro s hs hne
  have := h s hs hne
  omega

theorem Covers.append {u v : List Nat} (hu : g.Covers u) (hv : g.Covers v) :
    g.Covers (u ++ v) := by
  intro s hs
  rcases List.mem_append.mp hs with hs | hs
  · exact hu s hs
  · exact hv s hs

theorem Covers.subset {u v : List Nat} (hv : g.Covers v) (h : u ⊆ v) : g.Covers u :=
  fun s hs => hv s (h hs)

theorem Covers.visible {body : Body} (h : g.Covers body) : g.Covers body.visible :=
  h.subset fun _ hs => (Body.mem_visible.mp hs).1

theorem Fits.covers {body : Body} (h : g.Fits body) : g.Covers body := by
  intro s hs hne
  rcases h with rfl | ⟨_, h⟩
  · exact absurd (List.mem_singleton.mp hs) hne
  · exact h s hs

/-- A string that the grammar covers is a body that fits once it is normalized. -/
theorem fits_normalize {body : Body} (h : g.Covers body) : g.Fits body.normalize := by
  unfold Body.normalize
  split
  · exact .inl rfl
  · next hne =>
      refine .inr ⟨by simpa using hne, fun s hs => ?_⟩
      have hs := Body.mem_visible.mp hs
      exact h s hs.1 hs.2

/-- The symbols that a body shows are symbols of the grammar other than the end mark. -/
theorem Fits.visible {body : Body} (h : g.Fits body) :
    ∀ s ∈ body.visible, endMark < s ∧ s < g.size := by
  intro s hs
  have hs := Body.mem_visible.mp hs
  exact h.covers s hs.1 hs.2

/-- Every symbol of a body is visible, unless the body is the empty string. -/
theorem Fits.visible_eq {body : Body} (h : g.Fits body) (hne : body ≠ [epsilon]) :
    body.visible = body := by
  rcases h with h | ⟨_, h⟩
  · exact absurd h hne
  · exact Body.visible_of_lt fun s hs => (h s hs).1

namespace WellFormed

theorem endMark_lt_size (h : g.WellFormed) : endMark < g.size :=
  lt_size_of_getElem? h.endMark_symbol

theorem epsilon_lt_size (h : g.WellFormed) : epsilon < g.size :=
  lt_size_of_getElem? h.epsilon_symbol

theorem size_ne_epsilon (h : g.WellFormed) : g.size ≠ epsilon := ne_epsilon_of_lt h.endMark_lt_size

theorem isTerminal_endMark (h : g.WellFormed) : g.isTerminal endMark = true :=
  isTerminal_iff.mpr ⟨_, h.endMark_symbol⟩

/-- Only nonterminals have alternatives. -/
theorem isNonterminal_of_mem_bodies (h : g.WellFormed) {left : Nat} {body : Body}
    (hbody : body ∈ g.bodies left) : g.isNonterminal left = true := by
  obtain ⟨n, hn, hmem⟩ := mem_bodies_iff.mp hbody
  refine isNonterminal_iff.mpr ⟨?_, n, hn⟩
  rintro rfl
  rw [h.epsilon_symbol] at hn
  obtain rfl : (⟨epsilon, epsilonName, []⟩ : Nonterminal) = n := by simpa using hn
  simp at hmem

/-- No alternative holds the end mark. -/
theorem endMark_not_mem_visible (h : g.WellFormed) {left : Nat} {body : Body}
    (hbody : body ∈ g.bodies left) : endMark ∉ body.visible := by
  intro hmem
  exact lt_irrefl _ ((h.fits hbody).visible endMark hmem).1

theorem endMark_not_mem_append (h : g.WellFormed) {left : Nat} {body : Body} {rest : List Nat}
    (hbody : body ∈ g.bodies left) (hrest : endMark ∉ rest) : endMark ∉ body.visible ++ rest := by
  rw [List.mem_append, not_or]
  exact ⟨h.endMark_not_mem_visible hbody, hrest⟩

theorem not_isTerminal_epsilon (h : g.WellFormed) : g.isTerminal epsilon = false := by
  simp [isTerminal, h.epsilon_symbol, Symbol.isTerminal]

/-- The list has exactly the symbols that are nonterminals, and tells their numbers. -/
theorem mem_nonterminals (h : g.WellFormed) {n : Nonterminal} :
    n ∈ g.nonterminals ↔ n.index ≠ epsilon ∧ g.symbols[n.index]? = some (.nonterminal n) := by
  obtain ⟨rest, hrest⟩ : ∃ rest, g.symbols.toList =
      .nonterminal ⟨epsilon, epsilonName, []⟩ :: rest := by
    have hzero : g.symbols.toList[0]? = some (.nonterminal ⟨epsilon, epsilonName, []⟩) := by
      simpa [epsilon] using h.epsilon_symbol
    cases hl : g.symbols.toList with
    | nil => simp [hl] at hzero
    | cons s rest => exact ⟨rest, by simpa [hl] using hzero⟩
  have hget (i : Nat) : g.symbols[i + 1]? = rest[i]? := by
    rw [← Array.getElem?_toList, hrest, List.getElem?_cons_succ]
  have hmem : n ∈ g.nonterminals ↔ .nonterminal n ∈ rest := by
    unfold nonterminals
    rw [hrest]
    simp only [List.filterMap_cons, Symbol.nonterminal?, List.drop_succ_cons, List.drop_zero,
      List.mem_filterMap]
    constructor
    · rintro ⟨s, hs, hn⟩
      cases s with
      | nonterminal m => exact (Option.some.inj hn) ▸ hs
      | terminal name => cases hn
    · intro hn
      exact ⟨_, hn, rfl⟩
  rw [hmem]
  constructor
  · intro hn
    obtain ⟨i, hi⟩ := List.mem_iff_getElem?.mp hn
    rw [← hget] at hi
    have hindex := h.index_eq hi
    exact ⟨by simp [hindex, epsilon], hindex.symm ▸ hi⟩
  · rintro ⟨hne, hn⟩
    obtain ⟨i, hi⟩ : ∃ i, n.index = i + 1 := Nat.exists_eq_succ_of_ne_zero hne
    rw [hi, hget] at hn
    exact List.mem_of_getElem? hn

/-- Nonterminals are listed in the order of their numbers. -/
theorem pairwise_nonterminals (h : g.WellFormed) :
    g.nonterminals.Pairwise fun m n => m.index < n.index := by
  unfold nonterminals
  refine List.Pairwise.drop (List.pairwise_filterMap.mpr (List.pairwise_iff_getElem.mpr ?_))
  intro i j hi hj hij m hm n hn
  have hindex {i : Nat} (hi : i < g.symbols.toList.length) {n : Nonterminal}
      (hn : g.symbols.toList[i].nonterminal? = some n) : n.index = i := by
    refine h.index_eq (nonterminal?_eq_some.mp ?_)
    rw [nonterminal?, ← Array.getElem?_toList, List.getElem?_eq_getElem hi]
    exact hn
  rw [hindex hi hm, hindex hj hn]
  exact hij

theorem mem_nonterminals_of_getElem? (h : g.WellFormed) {i : Nat} {n : Nonterminal}
    (hne : i ≠ epsilon) (hn : g.symbols[i]? = some (.nonterminal n)) :
    n ∈ g.nonterminals ∧ n.index = i := by
  obtain rfl := h.index_eq hn
  exact ⟨h.mem_nonterminals.mpr ⟨hne, hn⟩, rfl⟩

theorem bodies_index (h : g.WellFormed) {n : Nonterminal} (hn : n ∈ g.nonterminals) :
    g.bodies n.index = n.bodies :=
  bodies_eq (h.mem_nonterminals.mp hn).2

theorem isNonterminal_index (h : g.WellFormed) {n : Nonterminal} (hn : n ∈ g.nonterminals) :
    g.isNonterminal n.index = true :=
  isNonterminal_iff.mpr ⟨(h.mem_nonterminals.mp hn).1, n, (h.mem_nonterminals.mp hn).2⟩

theorem exists_nonterminal (h : g.WellFormed) {i : Nat} (hi : g.isNonterminal i = true) :
    ∃ n ∈ g.nonterminals, n.index = i ∧ n.bodies = g.bodies i := by
  obtain ⟨hne, n, hn⟩ := isNonterminal_iff.mp hi
  obtain ⟨hmem, hindex⟩ := h.mem_nonterminals_of_getElem? hne hn
  exact ⟨n, hmem, hindex, (bodies_eq hn).symm⟩

/-! Each building step keeps a grammar well-formed. -/

theorem empty : (∅ : Grammar).WellFormed where
  epsilon_symbol := rfl
  endMark_symbol := rfl
  index_eq := by
    intro i n hn
    rcases symbols_empty hn with ⟨rfl, hs⟩ | ⟨rfl, hs⟩
    · obtain rfl := Symbol.nonterminal.inj hs
      rfl
    · cases hs
  fits := by
    intro left body hbody
    obtain ⟨n, hn, hmem⟩ := mem_bodies_iff.mp hbody
    rcases symbols_empty hn with ⟨rfl, hs⟩ | ⟨rfl, hs⟩
    · obtain rfl := Symbol.nonterminal.inj hs
      cases hmem
    · cases hs
  name_of_index := by
    intro name i hi
    have hnames : (∅ : Grammar).index? name =
        if endMarkName = name then some endMark else if epsilonAlias = name then some epsilon
        else if epsilonName = name then some epsilon else none := by
      change (SortedMap.ofList _).find? name = _
      simp [SortedMap.ofList, SortedMap.find?_insert]
    rw [hnames] at hi
    split at hi
    · next h =>
        cases hi
        exact .inl (congrArg some h)
    · split at hi
      · next h =>
          cases hi
          exact .inr ⟨h.symm, rfl⟩
      · split at hi
        · next h =>
            cases hi
            exact .inl (congrArg some h)
        · cases hi
  index_of_name := by
    intro name i hi
    obtain ⟨s, hs, rfl⟩ := Option.map_eq_some_iff.mp hi
    rcases symbols_empty hs with ⟨rfl, rfl⟩ | ⟨rfl, rfl⟩
    · rfl
    · rfl
  start_eq := by
    refine .inl ⟨rfl, fun i => ?_⟩
    rw [Bool.eq_false_iff]
    intro hi
    obtain ⟨hne, n, hn⟩ := isNonterminal_iff.mp hi
    rcases symbols_empty hn with ⟨rfl, -⟩ | ⟨rfl, hs⟩
    · exact hne rfl
    · cases hs

/-- A nonterminal anywhere means that the start symbol is one. -/
theorem isNonterminal_start (h : g.WellFormed) {i : Nat} (hi : g.isNonterminal i = true) :
    g.isNonterminal g.start = true := by
  rcases h.start_eq with ⟨_, hnone⟩ | hstart
  · rw [hnone i] at hi
    cases hi
  · exact hstart

theorem start_lt_size (h : g.WellFormed) : g.start < g.size := by
  rcases h.start_eq with ⟨hstart, _⟩ | hstart
  · exact hstart ▸ h.epsilon_lt_size
  · exact lt_size_of_isNonterminal hstart

theorem name_ne_of_index (h : g.WellFormed) {name : String} {i : Nat}
    (hi : g.name? i = some name) {other : String} (hother : g.index? other = none) :
    other ≠ name := by
  rintro rfl
  rw [h.index_of_name hi] at hother
  cases hother

/-- A nonterminal may be added under a name that nothing stands under. -/
theorem addNonterminal (h : g.WellFormed) {name : String} (hfresh : g.index? name = none) :
    (g.addNonterminal name).WellFormed where
  epsilon_symbol := by
    rw [symbols_addNonterminal, if_neg h.size_ne_epsilon.symm, h.epsilon_symbol]
  endMark_symbol := by
    rw [symbols_addNonterminal, if_neg h.endMark_lt_size.ne, h.endMark_symbol]
  index_eq := by
    intro i n hn
    rw [symbols_addNonterminal] at hn
    split at hn
    · next hi =>
        cases hn
        exact hi.symm
    · exact h.index_eq hn
  fits := by
    intro left body hbody
    rw [bodies_addNonterminal] at hbody
    exact (h.fits hbody).mono (by simp)
  name_of_index := by
    intro x i hi
    rw [index?_addNonterminal] at hi
    rw [name?_addNonterminal]
    split at hi
    · next hx =>
        cases hi
        simp [hx]
    · rcases h.name_of_index hi with hname | halias
      · have hne : i ≠ g.size := by
          rintro rfl
          simp [name?_eq_none_of_le le_rfl] at hname
        exact .inl (by rw [if_neg hne, hname])
      · exact .inr halias
  index_of_name := by
    intro x i hi
    rw [name?_addNonterminal] at hi
    rw [index?_addNonterminal]
    split at hi
    · next hsize =>
        cases hi
        simp [hsize]
    · rw [if_neg (h.name_ne_of_index hi hfresh), h.index_of_name hi]
  start_eq := by
    have hne := h.size_ne_epsilon
    right
    rcases h.start_eq with ⟨hstart, _⟩ | hstart
    · have hnew : (g.addNonterminal name).start = g.size := by
        simp [Grammar.addNonterminal, hstart]
      rw [hnew, isNonterminal_addNonterminal]
      simp [hne]
    · have hne' : g.start ≠ epsilon := (isNonterminal_iff.mp hstart).1
      rw [isNonterminal_addNonterminal]
      simp [Grammar.addNonterminal, hne', hstart]

/-- A terminal may be added on the same terms. -/
theorem addTerminal (h : g.WellFormed) {name : String} (hfresh : g.index? name = none) :
    (g.addTerminal name).WellFormed where
  epsilon_symbol := by
    rw [symbols_addTerminal, if_neg h.size_ne_epsilon.symm, h.epsilon_symbol]
  endMark_symbol := by
    rw [symbols_addTerminal, if_neg h.endMark_lt_size.ne, h.endMark_symbol]
  index_eq := by
    intro i n hn
    rw [symbols_addTerminal] at hn
    split at hn
    · cases hn
    · exact h.index_eq hn
  fits := by
    intro left body hbody
    rw [bodies_addTerminal] at hbody
    exact (h.fits hbody).mono (by simp)
  name_of_index := by
    intro x i hi
    rw [index?_addTerminal] at hi
    rw [name?_addTerminal]
    split at hi
    · next hx =>
        cases hi
        simp [hx]
    · rcases h.name_of_index hi with hname | halias
      · have hne : i ≠ g.size := by
          rintro rfl
          simp [name?_eq_none_of_le le_rfl] at hname
        exact .inl (by rw [if_neg hne, hname])
      · exact .inr halias
  index_of_name := by
    intro x i hi
    rw [name?_addTerminal] at hi
    rw [index?_addTerminal]
    split at hi
    · next hsize =>
        cases hi
        simp [hsize]
    · rw [if_neg (h.name_ne_of_index hi hfresh), h.index_of_name hi]
  start_eq := by
    simpa only [start_addTerminal, isNonterminal_addTerminal] using h.start_eq

/-- Alternatives may be changed to any that fit. -/
theorem updateBodies (h : g.WellFormed) {left : Nat} {f : List Body → List Body}
    (hf : ∀ body ∈ f (g.bodies left), g.Fits body) : (g.updateBodies left f).WellFormed where
  epsilon_symbol := by
    rw [symbols_updateBodies, if_neg (by simp only [ne_eq]; tauto), h.epsilon_symbol]
  endMark_symbol := by
    rw [symbols_updateBodies, h.endMark_symbol]
    split <;> rfl
  index_eq := by
    intro i n hn
    rw [symbols_updateBodies] at hn
    split at hn
    · obtain ⟨s, hs, hn⟩ := Option.map_eq_some_iff.mp hn
      cases s with
      | nonterminal m =>
          have hm := h.index_eq hs
          cases hn
          exact hm
      | terminal name => cases hn
    · exact h.index_eq hn
  fits := by
    intro i body hbody
    rw [bodies_updateBodies] at hbody
    split at hbody
    · next hi => exact (hf body (hi.1 ▸ hbody)).mono (by simp)
    · exact (h.fits hbody).mono (by simp)
  name_of_index := by
    intro x i hi
    rw [index?_updateBodies] at hi
    rw [name?_updateBodies]
    exact h.name_of_index hi
  index_of_name := by
    intro x i hi
    rw [name?_updateBodies] at hi
    rw [index?_updateBodies]
    exact h.index_of_name hi
  start_eq := by
    simpa only [start_updateBodies, isNonterminal_updateBodies] using h.start_eq

theorem clearBodies (h : g.WellFormed) (left : Nat) : (g.clearBodies left).WellFormed :=
  h.updateBodies (by simp)

/-- An alternative may be added whose symbols the grammar has. -/
theorem addBody (h : g.WellFormed) {left : Nat} {body : Body} (hbody : g.Covers body) :
    (g.addBody left body).WellFormed := by
  apply h.updateBodies
  intro b hb
  rcases List.mem_append.mp hb with hb | hb
  · exact h.fits hb
  · rw [List.mem_singleton.mp hb]
    exact fits_normalize hbody

end WellFormed

theorem Fits.lt_size {body : Body} (hg : g.WellFormed) (h : g.Fits body) :
    ∀ s ∈ body, s < g.size := by
  intro s hs
  by_cases hne : s = epsilon
  · exact hne ▸ hg.epsilon_lt_size
  · exact (h.covers s hs hne).2

/-! Changing the alternatives of one nonterminal several times. -/

theorem updateBodies_updateBodies (left : Nat) (f f' : List Body → List Body) :
    (g.updateBodies left f).updateBodies left f' = g.updateBodies left fun b => f' (f b) := by
  unfold updateBodies
  by_cases hleft : left = epsilon
  · simp [hleft]
  · simp only [hleft, ↓reduceIte, Grammar.mk.injEq, and_true]
    apply Array.ext_getElem?
    intro i
    simp only [Array.getElem?_modify]
    split
    · cases g.symbols[i]? with
      | none => rfl
      | some s => cases s <;> rfl
    · rfl

theorem updateBodies_id (left : Nat) : (g.updateBodies left fun b => b) = g := by
  unfold updateBodies
  split
  · rfl
  · have hsymbols : g.symbols.modify left (Symbol.mapBodies fun b => b) = g.symbols := by
      apply Array.ext_getElem?
      intro i
      rw [Array.getElem?_modify]
      split
      · cases g.symbols[i]? with
        | none => rfl
        | some s => cases s <;> rfl
      · rfl
    rw [hsymbols]

/-- Alternatives added one by one are appended to what was there. -/
theorem addBodies_eq (left : Nat) (bodies : List Body) :
    g.addBodies left bodies = g.updateBodies left (· ++ bodies.map Body.normalize) := by
  induction bodies generalizing g with
  | nil =>
      change g = _
      simp [updateBodies_id]
  | cons body bodies ih =>
      change (g.addBody left body).addBodies left bodies = _
      rw [ih, addBody, updateBodies_updateBodies]
      simp

theorem WellFormed.addBodies (h : g.WellFormed) {left : Nat} {bodies : List Body}
    (hbodies : ∀ body ∈ bodies, g.Covers body) : (g.addBodies left bodies).WellFormed := by
  rw [addBodies_eq]
  apply h.updateBodies
  intro b hb
  rcases List.mem_append.mp hb with hb | hb
  · exact h.fits hb
  · obtain ⟨body, hbody, rfl⟩ := List.mem_map.mp hb
    exact fits_normalize (hbodies body hbody)

/-! Names with apostrophes. -/

def primes (name : String) (k : Nat) : String := (fun s => s.push '\x27')^[k] name

theorem length_primes (name : String) (k : Nat) : (primes name k).length = name.length + k := by
  induction k with
  | zero => rfl
  | succ k ih =>
      rw [primes, Function.iterate_succ_apply', ← primes, String.length_push, ih]
      omega

theorem primes_push (name : String) (k : Nat) :
    primes (name.push '\x27') k = primes name (k + 1) := rfl

/-- The name that is chosen has no more apostrophes than it was given chances, every shorter choice
is taken, and it is taken itself only if there were no chances left. -/
theorem exists_primed (limit : Nat) (name : String) :
    ∃ k ≤ limit, g.primed limit name = primes name k ∧
      (∀ j < k, g.names.contains (primes name j) = true) ∧
      (k < limit → g.names.contains (primes name k) = false) := by
  induction limit generalizing name with
  | zero => exact ⟨0, le_rfl, rfl, by simp, by simp⟩
  | succ limit ih =>
      by_cases hname : g.names.contains name = true
      · obtain ⟨k, hk, heq, htaken, hfree⟩ := ih (name.push '\x27')
        refine ⟨k + 1, by omega, ?_, ?_, fun h => hfree (by omega)⟩
        · rw [primed, if_pos hname, heq, primes_push]
        · intro j hj
          cases j with
          | zero => exact hname
          | succ j => exact htaken j (by omega)
      · refine ⟨0, by omega, ?_, by simp, fun _ => Bool.eq_false_iff.mpr hname⟩
        rw [primed, if_neg hname]
        rfl

/-- The fresh name is the first of the names with apostrophes that no symbol goes by: there cannot
be as many taken ones as there are names. -/
theorem exists_freshName (name : String) :
    ∃ k, g.freshName name = primes name k ∧ g.names.contains (primes name k) = false ∧
      ∀ j < k, g.names.contains (primes name j) = true := by
  obtain ⟨k, hk, heq, htaken, hfree⟩ := g.exists_primed g.names.size name
  refine ⟨k, heq, ?_, htaken⟩
  rcases Nat.lt_or_ge k g.names.size with hlt | hge
  · exact hfree hlt
  rw [Bool.eq_false_iff]
  intro hlast
  have hall : ∀ x ∈ (List.range (k + 1)).map (primes name), x ∈ g.names.keys := by
    intro x hx
    obtain ⟨j, hj, rfl⟩ := List.mem_map.mp hx
    rw [← SortedMap.contains_iff_mem_keys]
    rcases Nat.lt_or_ge j k with hjk | hjk
    · exact htaken j hjk
    · obtain rfl : j = k := by
        have := List.mem_range.mp hj
        omega
      exact hlast
  have hnodup : ((List.range (k + 1)).map (primes name)).Nodup := by
    refine List.Nodup.map (fun i j hij => ?_) List.nodup_range
    have hlen := congrArg String.length hij
    simp only [length_primes] at hlen
    omega
  have hle := (List.subperm_of_subset hnodup hall).length_le
  simp only [List.length_map, List.length_range, SortedMap.keys] at hle
  unfold SortedMap.size at hge
  omega

/-- Nothing stands under the name that is generated. -/
theorem index?_freshName (name : String) : g.index? (g.freshName name) = none := by
  obtain ⟨k, heq, hfree, _⟩ := g.exists_freshName name
  rw [heq, index?]
  simpa [SortedMap.contains] using hfree

end Grammar
end Lookahead
