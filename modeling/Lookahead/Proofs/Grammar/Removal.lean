import Lookahead.Proofs.Grammar.Corner
import Lookahead.Proofs.Grammar.Readable

/-!
What the removal of left recursion achieves on a grammar without empty alternatives in which no
symbol derives itself. Which nonterminals come first in the new alternatives can be read off the old
grammar, and a symbol of the new grammar is left recursive exactly if these lead from it back to it.
An alternative that begins with an earlier nonterminal is looked at once only: what comes first in it
after the earlier one is replaced stays there, even if it is an earlier nonterminal again.
-/

namespace Lookahead.Grammar

open Relation

variable {g c : Grammar}

/-- The nonterminals that come first in the alternatives of `left` after the removal. A later one that
comes first before it stays; an earlier one gives way to those that come first in its own new
alternatives, less `left` itself. -/
inductive Leads (g : Grammar) : Nat → Nat → Prop
  | later {left first : Nat} {rest : Body} (member : first :: rest ∈ g.bodies left)
      (isNonterminal : g.isNonterminal first = true) (lt : left < first) : Leads g left first
  | earlier {left first next : Nat} {rest : Body} (member : first :: rest ∈ g.bodies left)
      (lt : first < left) (leads : Leads g first next) (ne : next ≠ left) : Leads g left next

theorem Leads.isNonterminal_left (hg : g.WellFormed) {left s : Nat} (h : g.Leads left s) :
    g.isNonterminal left = true := by
  cases h with
  | later hbody _ _ => exact hg.isNonterminal_of_mem_bodies hbody
  | earlier hbody _ _ _ => exact hg.isNonterminal_of_mem_bodies hbody

theorem Leads.isNonterminal_right {left s : Nat} (h : g.Leads left s) :
    g.isNonterminal s = true := by
  induction h with
  | later _ hfirst _ => exact hfirst
  | earlier _ _ _ _ ih => exact ih

def old (g : Grammar) (body : Body) : Body := body.filter (· < g.size)

theorem old_append (u v : Body) : g.old (u ++ v) = g.old u ++ g.old v :=
  List.filter_append u v

theorem old_of_lt {body : Body} (h : ∀ s ∈ body, s < g.size) : g.old body = body :=
  List.filter_eq_self.mpr fun s hs => decide_eq_true (h s hs)

/-- How far the removal has come: `c` is the grammar, and the nonterminals in `earlier` are done. New
alternatives of old nonterminals begin with old symbols, and without their helpers they are derived in
the old grammar. Alternatives of helpers begin with earlier helpers and then an old symbol. -/
structure Removed (g c : Grammar) (earlier : List Nat) : Prop where
  wellFormed : c.WellFormed
  kept : g.Extends c
  untouched : ∀ i < g.size, i ∉ earlier → c.bodies i = g.bodies i
  begins : ∀ {i : Nat} {body : Body}, i < g.size → body ∈ c.bodies i →
    ∃ first rest, body = first :: rest ∧ endMark < first ∧ first < g.size
  derived : ∀ {i : Nat} {body : Body}, i < g.size → body ∈ c.bodies i →
    g.DerivesPlus [i] (g.old body)
  leads_iff : ∀ i ∈ earlier, ∀ s, g.isNonterminal s = true →
    ((∃ rest, s :: rest ∈ c.bodies i) ↔ g.Leads i s)
  helpers : ∀ {i : Nat} {body : Body}, g.size ≤ i → body ∈ c.bodies i →
    body = [epsilon] ∨ ∃ front s rest, body = front ++ s :: rest ∧
      (∀ r ∈ front, g.size ≤ r ∧ r < i) ∧ endMark < s ∧ s < g.size

theorem mem_bodies_lt_size {i : Nat} {body : Body} (h : body ∈ g.bodies i) : i < g.size := by
  obtain ⟨n, hn, -⟩ := mem_bodies_iff.mp h
  exact lt_size_of_getElem? hn

/-- Before the first step no nonterminal is done. No alternative may be the empty string, since each has
to begin with a symbol. -/
theorem removed_nil (hg : g.WellFormed) (hepsilon : ∀ left, [epsilon] ∉ g.bodies left) :
    g.Removed g [] where
  wellFormed := hg
  kept := .refl
  untouched _ _ _ := rfl
  begins := by
    intro i body _ hbody
    rcases hg.fits hbody with rfl | ⟨hne, hmem⟩
    · exact absurd hbody (hepsilon i)
    · obtain ⟨first, rest, rfl⟩ := List.exists_cons_of_ne_nil hne
      exact ⟨first, rest, rfl, hmem first (by simp)⟩
  derived := by
    intro i body _ hbody
    have hne : body ≠ [epsilon] := by
      rintro rfl
      exact hepsilon i hbody
    have hvisible := (hg.fits hbody).visible_eq hne
    rw [old_of_lt fun s hs => ((hg.fits hbody).visible s (hvisible.symm ▸ hs)).2]
    exact .single (by simpa [hvisible] using produces_of_mem hbody [] [])
  leads_iff i hi := by cases hi
  helpers := by
    intro i body hi hbody
    have := mem_bodies_lt_size hbody
    omega

namespace Removed

variable {earlier : List Nat} (h : g.Removed c earlier)

include h

theorem bounds {i : Nat} {body : Body} (hi : i < g.size) (hbody : body ∈ c.bodies i) :
    ∀ s ∈ body, endMark < s ∧ s < c.size := by
  rcases h.wellFormed.fits hbody with rfl | ⟨-, hmem⟩
  · obtain ⟨first, rest, hcons, hlt, -⟩ := h.begins hi hbody
    exact absurd (List.cons.inj hcons).1.symm (ne_epsilon_of_lt hlt)
  · exact hmem

/-- An alternative that begins with an earlier nonterminal, after this one is replaced. -/
theorem splice_eq {i first : Nat} {rest inner : Body} (hi : i < g.size)
    (hbody : first :: rest ∈ c.bodies i) (hfirst : first < g.size)
    (hinner : inner ∈ c.bodies first) : splice inner rest = inner ++ rest := by
  apply Body.visible_of_lt
  intro s hs
  rcases List.mem_append.mp hs with hs | hs
  · exact (h.bounds hfirst hinner s hs).1
  · exact (h.bounds hi hbody s (by simp [hs])).1

/-! The alternatives of the nonterminal at hand with the earlier ones put in. -/

section Expanded

variable {left : Nat} (hleft : g.isNonterminal left = true)
  (hearlier : ∀ i, i ∈ earlier ↔ i < left ∧ g.isNonterminal i = true)

include hleft hearlier

omit h hleft in
theorem lt_size_of_mem_earlier {i : Nat} (hi : i ∈ earlier) : i < g.size :=
  lt_size_of_isNonterminal ((hearlier i).mp hi).2

theorem bodies_left : c.bodies left = g.bodies left := by
  apply h.untouched left (lt_size_of_isNonterminal hleft)
  intro hmem
  exact lt_irrefl left ((hearlier left).mp hmem).1

/-- Expanded alternatives are put together as they stand, since none that takes part is the empty
string. -/
theorem mem_expanded {body : Body} :
    body ∈ c.expanded earlier left ↔
      (body ∈ c.bodies left ∧ ∀ first ∈ body.head?, first ∉ earlier) ∨
        ∃ first rest inner, first :: rest ∈ c.bodies left ∧ first ∈ earlier ∧
          inner ∈ c.bodies first ∧ body = inner ++ rest := by
  refine mem_expandFirst.trans (or_congr_right ?_)
  have hlt := lt_size_of_isNonterminal hleft
  constructor
  · rintro ⟨first, rest, inner, houter, hfirst, hinner, rfl⟩
    refine ⟨first, rest, inner, houter, hfirst, hinner, ?_⟩
    exact h.splice_eq hlt houter (lt_size_of_mem_earlier hearlier hfirst) hinner
  · rintro ⟨first, rest, inner, houter, hfirst, hinner, rfl⟩
    refine ⟨first, rest, inner, houter, hfirst, hinner, ?_⟩
    exact (h.splice_eq hlt houter (lt_size_of_mem_earlier hearlier hfirst) hinner).symm

theorem expanded_begins {body : Body} (hbody : body ∈ c.expanded earlier left) :
    ∃ first rest, body = first :: rest ∧ endMark < first ∧ first < g.size := by
  rcases (h.mem_expanded hleft hearlier).mp hbody with
    ⟨hbody, -⟩ | ⟨first, rest, inner, -, hfirst, hinner, rfl⟩
  · exact h.begins (lt_size_of_isNonterminal hleft) hbody
  · obtain ⟨s, more, rfl, hs⟩ :=
      h.begins (lt_size_of_mem_earlier hearlier hfirst) hinner
    exact ⟨s, more ++ rest, rfl, hs⟩

theorem expanded_bounds {body : Body} (hbody : body ∈ c.expanded earlier left) :
    ∀ s ∈ body, endMark < s ∧ s < c.size := by
  have hlt := lt_size_of_isNonterminal hleft
  rcases (h.mem_expanded hleft hearlier).mp hbody with
    ⟨hbody, -⟩ | ⟨first, rest, inner, houter, hfirst, hinner, rfl⟩
  · exact h.bounds hlt hbody
  · intro s hs
    rcases List.mem_append.mp hs with hs | hs
    · exact h.bounds (lt_size_of_mem_earlier hearlier hfirst) hinner s hs
    · exact h.bounds hlt houter s (by simp [hs])

theorem expanded_derived {body : Body} (hbody : body ∈ c.expanded earlier left) :
    g.DerivesPlus [left] (g.old body) := by
  have hlt := lt_size_of_isNonterminal hleft
  rcases (h.mem_expanded hleft hearlier).mp hbody with
    ⟨hbody, -⟩ | ⟨first, rest, inner, houter, hfirst, hinner, rfl⟩
  · exact h.derived hlt hbody
  · have hrest : g.DerivesPlus [left] (first :: g.old rest) := by
      simpa [old, lt_size_of_mem_earlier hearlier hfirst] using h.derived hlt houter
    have hfront := h.derived (lt_size_of_mem_earlier hearlier hfirst) hinner
    rw [old_append]
    exact TransGen.trans hrest (hfront.append_right (g.old rest))

/-- The nonterminals at the front of the expanded alternatives, but for `left`, are those that `Leads`
tells. -/
theorem expanded_leads (hg : g.WellFormed) {s : Nat} (hs : g.isNonterminal s = true) :
    (∃ rest, s :: rest ∈ c.expanded earlier left) ∧ s ≠ left ↔ g.Leads left s := by
  have hsame := h.bodies_left hleft hearlier
  constructor
  · rintro ⟨⟨rest, hbody⟩, hne⟩
    rcases (h.mem_expanded hleft hearlier).mp hbody with
      ⟨hbody, hhead⟩ | ⟨first, tail, inner, houter, hfirst, hinner, hsplit⟩
    · have hnot : ¬ s < left := fun hlt => hhead s (by simp) ((hearlier s).mpr ⟨hlt, hs⟩)
      exact .later (hsame ▸ hbody) hs (by omega)
    · obtain ⟨r, more, rfl, -⟩ :=
        h.begins (lt_size_of_mem_earlier hearlier hfirst) hinner
      obtain ⟨rfl, -⟩ := List.cons.inj hsplit
      exact .earlier (hsame ▸ houter) ((hearlier first).mp hfirst).1
        ((h.leads_iff first hfirst s hs).mp ⟨more, hinner⟩) hne
  · intro hleads
    cases hleads with
    | @later _ _ rest hbody _ hlt =>
        refine ⟨⟨rest, (h.mem_expanded hleft hearlier).mpr (.inl ⟨hsame ▸ hbody, ?_⟩)⟩, hlt.ne'⟩
        simpa [hearlier] using fun hlt' => absurd hlt' (by omega)
    | @earlier _ first _ rest hbody hlt hfirst hne =>
        have hmem : first ∈ earlier := (hearlier first).mpr ⟨hlt, hfirst.isNonterminal_left hg⟩
        obtain ⟨more, hinner⟩ := (h.leads_iff first hmem s hs).mpr hfirst
        refine ⟨⟨more ++ rest, (h.mem_expanded hleft hearlier).mpr (.inr ?_)⟩, hne⟩
        exact ⟨first, rest, s :: more, hsame ▸ hbody, hmem, hinner, rfl⟩

end Expanded

/-! One step. -/

section Step

variable {left : Nonterminal} (hleft : g.isNonterminal left.index = true)
  (hearlier : ∀ i, i ∈ earlier ↔ i < left.index ∧ g.isNonterminal i = true)

include hleft hearlier

theorem mem_bodies_step {body : Body} :
    body ∈ (c.removeRecursionOf earlier left).1.bodies left.index ↔
      ∃ inner ∈ c.expanded earlier left.index, inner.head? ≠ some left.index ∧
        body = inner ++ c.helper earlier left.index := by
  have hleft' : c.isNonterminal left.index = true := by
    rw [h.kept.isNonterminal_eq _ (lt_size_of_isNonterminal hleft), hleft]
  rw [bodies_removeRecursionOf hleft', List.mem_map]
  have hnormal {inner : Body} (hinner : inner ∈ c.expanded earlier left.index) :
      Body.normalize (inner.visible ++ c.helper earlier left.index) =
        inner ++ c.helper earlier left.index := by
    have hbounds := h.expanded_bounds hleft hearlier hinner
    obtain ⟨first, rest, rfl, -⟩ := h.expanded_begins hleft hearlier hinner
    rw [Body.visible_of_lt fun s hs => (hbounds s hs).1]
    apply Body.normalize_of_lt (by simp)
    intro s hs
    rcases List.mem_append.mp hs with hs | hs
    · exact (hbounds s hs).1
    · exact mem_helper hs ▸ h.wellFormed.endMark_lt_size
  constructor
  · rintro ⟨inner, hinner, rfl⟩
    obtain ⟨hinner, hhead⟩ := mem_nonRecursive.mp hinner
    exact ⟨inner, hinner, hhead, hnormal hinner⟩
  · rintro ⟨inner, hinner, hhead, rfl⟩
    exact ⟨inner, mem_nonRecursive.mpr ⟨hinner, hhead⟩, hnormal hinner⟩

/-- What stands after the left side in a recursive alternative holds an old symbol: otherwise the
left side would derive itself. -/
theorem exists_old_of_tail (hcycle : ∀ s, ¬ g.DerivesPlus [s] [s]) {tail : Body}
    (htail : left.index :: tail ∈ c.expanded earlier left.index) :
    ∃ front s rest, tail = front ++ s :: rest ∧ (∀ r ∈ front, g.size ≤ r ∧ r < c.size) ∧
      endMark < s ∧ s < g.size := by
  have hbounds := h.expanded_bounds hleft hearlier htail
  have hder := h.expanded_derived hleft hearlier htail
  cases hold : g.old tail with
  | nil =>
      rw [old, List.filter_cons_of_pos (by simpa using lt_size_of_isNonterminal hleft), ← old,
        hold] at hder
      exact absurd hder (hcycle _)
  | cons s more =>
      obtain ⟨front, rest, rfl, hfront, hs, -⟩ := List.filter_eq_cons_iff.mp hold
      refine ⟨front, s, rest, rfl, fun r hr => ⟨?_, (hbounds r (by simp [hr])).2⟩,
        (hbounds s (by simp)).1, by simpa using hs⟩
      simpa using hfront r hr

omit hleft hearlier in
theorem bodies_step_of_ne {i : Nat} (hi : i < g.size) (hne : i ≠ left.index) :
    (c.removeRecursionOf earlier left).1.bodies i = c.bodies i :=
  bodies_removeRecursionOf_of_ne hne (hi.trans_le h.kept.size_le).ne

/-- After the step the alternatives of `left` begin with the nonterminals that `Leads` tells, and with
no others. -/
theorem leads_step (hg : g.WellFormed) {s : Nat} (hs : g.isNonterminal s = true) :
    (∃ rest, s :: rest ∈ (c.removeRecursionOf earlier left).1.bodies left.index) ↔
      g.Leads left.index s := by
  rw [← h.expanded_leads hleft hearlier hg hs]
  constructor
  · rintro ⟨rest, hbody⟩
    obtain ⟨inner, hinner, hhead, hsplit⟩ := (h.mem_bodies_step hleft hearlier).mp hbody
    obtain ⟨first, more, rfl, -⟩ := h.expanded_begins hleft hearlier hinner
    obtain ⟨rfl, -⟩ := List.cons.inj hsplit
    exact ⟨⟨more, hinner⟩, fun heq => hhead (by simp [heq])⟩
  · rintro ⟨⟨rest, hinner⟩, hne⟩
    refine ⟨rest ++ c.helper earlier left.index, (h.mem_bodies_step hleft hearlier).mpr ?_⟩
    exact ⟨s :: rest, hinner, by simpa using hne, rfl⟩

/-- Where no symbol derives itself, an alternative of the new helper is the empty string or comes to an
old symbol behind earlier helpers. -/
theorem helper_step (hcycle : ∀ s, ¬ g.DerivesPlus [s] [s]) {body : Body}
    (hbody : body ∈ (c.removeRecursionOf earlier left).1.bodies c.size) :
    body = [epsilon] ∨ ∃ front s rest, body = front ++ s :: rest ∧
      (∀ r ∈ front, g.size ≤ r ∧ r < c.size) ∧ endMark < s ∧ s < g.size := by
  have hlt := (lt_size_of_isNonterminal hleft).trans_le h.kept.size_le
  rw [bodies_removeRecursionOf_size hlt] at hbody
  split at hbody
  · cases hbody
  · obtain ⟨plain, hplain, rfl⟩ := List.mem_map.mp hbody
    rcases List.mem_append.mp hplain with hplain | hplain
    · obtain ⟨tail, htail, rfl⟩ := List.mem_map.mp hplain
      have htail := (mem_recursiveTails.mp htail).1
      have hbounds := h.expanded_bounds hleft hearlier htail
      obtain ⟨front, s, rest, rfl, hfront, hs⟩ :=
        h.exists_old_of_tail hleft hearlier hcycle htail
      refine .inr ⟨front, s, rest ++ [c.size], ?_, hfront, hs⟩
      rw [Body.normalize_of_lt (by simp) fun r hr => ?_, List.append_assoc, List.cons_append]
      rcases List.mem_append.mp hr with hr | hr
      · exact (hbounds r (List.mem_cons_of_mem _ hr)).1
      · exact List.mem_singleton.mp hr ▸ h.wellFormed.endMark_lt_size
    · rw [List.mem_singleton.mp hplain]
      exact .inl rfl

/-- One more nonterminal is done. -/
theorem step (hg : g.WellFormed) (hcycle : ∀ s, ¬ g.DerivesPlus [s] [s]) :
    g.Removed (c.removeRecursionOf earlier left).1 (earlier ++ [left.index]) where
  wellFormed := h.wellFormed.removeRecursionOf earlier left
  kept := h.kept.trans (extends_removeRecursionOf earlier left)
  untouched := by
    intro i hi hmem
    simp only [List.mem_append, List.mem_singleton, not_or] at hmem
    rw [h.bodies_step_of_ne hi hmem.2, h.untouched i hi hmem.1]
  begins := by
    intro i body hi hbody
    by_cases hne : i = left.index
    · obtain ⟨inner, hinner, -, rfl⟩ := (h.mem_bodies_step hleft hearlier).mp (hne ▸ hbody)
      obtain ⟨first, rest, rfl, hfirst⟩ := h.expanded_begins hleft hearlier hinner
      exact ⟨first, _, rfl, hfirst⟩
    · exact h.begins hi (h.bodies_step_of_ne hi hne ▸ hbody)
  derived := by
    intro i body hi hbody
    by_cases hne : i = left.index
    · obtain ⟨inner, hinner, -, rfl⟩ := (h.mem_bodies_step hleft hearlier).mp (hne ▸ hbody)
      have hhelper : g.old (c.helper earlier left.index) = [] := by
        apply List.filter_eq_nil_iff.mpr
        intro s hs
        simpa [mem_helper hs] using h.kept.size_le
      rw [old_append, hhelper, List.append_nil, hne]
      exact h.expanded_derived hleft hearlier hinner
    · exact h.derived hi (h.bodies_step_of_ne hi hne ▸ hbody)
  leads_iff := by
    intro i hi s hs
    rcases List.mem_append.mp hi with hi | hi
    · rw [h.bodies_step_of_ne (lt_size_of_mem_earlier hearlier hi) ((hearlier i).mp hi).1.ne]
      exact h.leads_iff i hi s hs
    · rw [List.mem_singleton.mp hi]
      exact h.leads_step hleft hearlier hg hs
  helpers := by
    intro i body hi hbody
    have hne : i ≠ left.index := ((lt_size_of_isNonterminal hleft).trans_le hi).ne'
    by_cases hsize : i = c.size
    · subst hsize
      exact h.helper_step hleft hearlier hcycle hbody
    · rw [bodies_removeRecursionOf_of_ne hne hsize] at hbody
      exact h.helpers hi hbody

end Step

end Removed

/-! All steps. -/

theorem mem_done_iff (hg : g.WellFormed) {done rest : List Nonterminal} {left : Nonterminal}
    (hsplit : g.nonterminals = done ++ left :: rest) (i : Nat) :
    i ∈ done.map Nonterminal.index ↔ i < left.index ∧ g.isNonterminal i = true := by
  have hsorted := hg.pairwise_nonterminals
  rw [hsplit, List.pairwise_append, List.pairwise_cons] at hsorted
  obtain ⟨-, ⟨hrest, -⟩, hdone⟩ := hsorted
  rw [List.mem_map]
  constructor
  · rintro ⟨n, hn, rfl⟩
    exact ⟨hdone n hn left (by simp), hg.isNonterminal_index (by simp [hsplit, hn])⟩
  · rintro ⟨hlt, hi⟩
    obtain ⟨n, hn, rfl, -⟩ := hg.exists_nonterminal hi
    rw [hsplit, List.mem_append, List.mem_cons] at hn
    rcases hn with hn | rfl | hn
    · exact ⟨n, hn, rfl⟩
    · exact absurd hlt (lt_irrefl _)
    · exact absurd hlt (hrest n hn).not_gt

theorem Removed.removeRecursionFrom (hg : g.WellFormed) (hcycle : ∀ s, ¬ g.DerivesPlus [s] [s])
    (done : List Nonterminal) {lefts : List Nonterminal} (hsplit : g.nonterminals = done ++ lefts)
    (h : g.Removed c (done.map Nonterminal.index)) :
    g.Removed (c.removeRecursionFrom (done.map Nonterminal.index) lefts).1
      (g.nonterminals.map Nonterminal.index) := by
  induction lefts generalizing done c with
  | nil =>
      rw [List.append_nil] at hsplit
      exact hsplit ▸ h
  | cons left lefts ih =>
      have hleft := hg.isNonterminal_index (n := left) (by simp [hsplit])
      have hstep := h.step hleft (mem_done_iff hg hsplit) hg hcycle
      have hindex : done.map Nonterminal.index ++ [left.index] =
          (done ++ [left]).map Nonterminal.index := by simp
      rw [removeRecursionFrom_cons, hindex]
      rw [hindex] at hstep
      exact ih (done ++ [left]) (by simpa using hsplit) hstep

theorem removed_withoutLeftRecursion (hg : g.WellFormed)
    (hepsilon : ∀ left, [epsilon] ∉ g.bodies left) (hcycle : ∀ s, ¬ g.DerivesPlus [s] [s]) :
    g.Removed g.withoutLeftRecursion (g.nonterminals.map Nonterminal.index) :=
  .removeRecursionFrom hg hcycle [] rfl (removed_nil hg hepsilon)

/-! The corners of the new grammar. -/

namespace Removed

variable {earlier : List Nat} (h : g.Removed c earlier)

include h

theorem visible_eq {i : Nat} {body : Body} (hi : i < g.size) (hbody : body ∈ c.bodies i) :
    body.visible = body :=
  Body.visible_of_lt fun s hs => (h.bounds hi hbody s hs).1

theorem isNonterminal_of_mem_bodies {i : Nat} {body : Body} (hi : i < g.size)
    (hbody : body ∈ c.bodies i) : g.isNonterminal i = true := by
  rw [← h.kept.isNonterminal_eq i hi]
  exact h.wellFormed.isNonterminal_of_mem_bodies hbody

/-- An old symbol does not derive the empty string. -/
theorem not_vanishes {s : Nat} {rest : List Nat} (hs : s < g.size) :
    ¬ c.Yields (s :: rest) [] := by
  suffices ∀ u word, c.Yields u word → ∀ s ∈ u.head?, s < g.size → word ≠ [] from
    fun hyields => this _ _ hyields s (by simp) hs rfl
  intro u word hyields
  induction hyields with
  | nil => simp
  | terminal _ _ _ => simp
  | nonterminal hbody _ _ ih _ =>
      intro s hhead hs
      obtain rfl : _ = s := by simpa using hhead
      obtain ⟨first, rest, rfl, -, hfirst⟩ := h.begins hs hbody
      rw [h.visible_eq hs hbody] at ih
      have hne := ih first (by simp) hfirst
      simp [hne]

/-- In what the removal returns nothing at the front can vanish, so that the corners of an old symbol
are the first symbols of its alternatives. -/
theorem corner_iff_of_lt {left s : Nat} (hleft : left < g.size) :
    c.Corner left s ↔ ∃ rest, s :: rest ∈ c.bodies left := by
  constructor
  · rintro ⟨body, hbody, front, rest, hsplit, hnull⟩
    rw [h.visible_eq hleft hbody] at hsplit
    cases front with
    | nil =>
        obtain rfl : body = s :: rest := hsplit
        exact ⟨rest, hbody⟩
    | cons r front =>
        obtain ⟨first, more, rfl, -, hfirst⟩ := h.begins hleft hbody
        obtain ⟨rfl, -⟩ := List.cons.inj hsplit
        exact absurd hnull (h.not_vanishes hfirst)
  · rintro ⟨rest, hbody⟩
    exact ⟨_, hbody, [], rest, h.visible_eq hleft hbody, .nil⟩

theorem lt_size_of_corner {left s : Nat} (hleft : left < g.size) (hcorner : c.Corner left s) :
    s < g.size := by
  obtain ⟨rest, hbody⟩ := (h.corner_iff_of_lt hleft).mp hcorner
  obtain ⟨first, more, hcons, -, hfirst⟩ := h.begins hleft hbody
  exact (List.cons.inj hcons).1 ▸ hfirst

/-- The corners of a helper come before it in the grammar. -/
theorem lt_of_corner {left s : Nat} (hleft : g.size ≤ left) (hcorner : c.Corner left s) :
    s < left := by
  obtain ⟨body, hbody, front, rest, hsplit, hnull⟩ := hcorner
  rcases h.helpers hleft hbody with rfl | ⟨front', s', rest', rfl, hfront, hend, hs'⟩
  · simp at hsplit
  · have hne : front' ++ s' :: rest' ≠ [epsilon] := by
      intro heq
      have hmem : s' ∈ [epsilon] := heq ▸ by simp
      exact ne_epsilon_of_lt hend (List.mem_singleton.mp hmem)
    rw [(h.wellFormed.fits hbody).visible_eq hne] at hsplit
    rcases append_eq_append_cons hsplit.symm with ⟨x, rfl, -⟩ | ⟨x, hx, rfl⟩
    · exact absurd (yields_nil_append.mp hnull).2 (h.not_vanishes hs')
    · cases x with
      | nil => exact (List.cons.inj hx).1 ▸ hs'.trans_le hleft
      | cons r x =>
          obtain ⟨rfl, -⟩ := List.cons.inj hx
          exact (hfront s (by simp)).2

theorem lt_of_corners {left s : Nat} (hleft : g.size ≤ left)
    (hcorners : TransGen c.Corner left s) : s < left := by
  induction hcorners with
  | single hcorner => exact h.lt_of_corner hleft hcorner
  | @tail r s _ hcorner ih =>
      by_cases hr : r < g.size
      · exact (h.lt_size_of_corner hr hcorner).trans_le hleft
      · exact (h.lt_of_corner (by omega) hcorner).trans ih

/-- For old symbols the corners that are nonterminals are those the old grammar leads to. -/
theorem corner_iff_leads (hg : g.WellFormed) (hall : ∀ i, g.isNonterminal i = true → i ∈ earlier)
    {left s : Nat} (hleft : left < g.size) :
    c.Corner left s ∧ g.isNonterminal s = true ↔ g.Leads left s := by
  rw [h.corner_iff_of_lt hleft]
  constructor
  · rintro ⟨⟨rest, hbody⟩, hs⟩
    have hnon := h.isNonterminal_of_mem_bodies hleft hbody
    exact (h.leads_iff left (hall left hnon) s hs).mp ⟨rest, hbody⟩
  · intro hleads
    have hs := hleads.isNonterminal_right
    exact ⟨(h.leads_iff left (hall left (hleads.isNonterminal_left hg)) s hs).mpr hleads, hs⟩

/-- From an old symbol corners lead to old symbols only, and to nonterminals only where `Leads` does. -/
theorem leads_of_corners (hg : g.WellFormed) (hall : ∀ i, g.isNonterminal i = true → i ∈ earlier)
    {left s : Nat} (hleft : left < g.size) (hcorners : TransGen c.Corner left s) :
    s < g.size ∧ (g.isNonterminal s = true → TransGen g.Leads left s) := by
  induction hcorners with
  | single hcorner =>
      refine ⟨h.lt_size_of_corner hleft hcorner, fun hs => .single ?_⟩
      exact (h.corner_iff_leads hg hall hleft).mp ⟨hcorner, hs⟩
  | @tail r s _ hcorner ih =>
      obtain ⟨hr, hleads⟩ := ih
      refine ⟨h.lt_size_of_corner hr hcorner, fun hs => ?_⟩
      have hstep := (h.corner_iff_leads hg hall hr).mp ⟨hcorner, hs⟩
      exact (hleads (hstep.isNonterminal_left hg)).tail hstep

theorem leftRecursive_iff_leads (hg : g.WellFormed)
    (hall : ∀ i, g.isNonterminal i = true → i ∈ earlier) {s : Nat} :
    c.LeftRecursive s ↔ TransGen g.Leads s s := by
  rw [leftRecursive_iff]
  constructor
  · intro hcorners
    by_cases hs : s < g.size
    · obtain ⟨r, ⟨body, hbody, -⟩, -⟩ := TransGen.head'_iff.mp hcorners
      exact (h.leads_of_corners hg hall hs hcorners).2 (h.isNonterminal_of_mem_bodies hs hbody)
    · -- the corners of a helper are earlier than it
      exact absurd (h.lt_of_corners (by omega) hcorners) (lt_irrefl s)
  · refine TransGen.mono (fun left s hleads => ?_) s s
    have hleft := lt_size_of_isNonterminal (hleads.isNonterminal_left hg)
    exact ((h.corner_iff_leads hg hall hleft).mpr hleads).1

end Removed

/-! A condition that can be checked, under which no alternative is empty and no symbol derives
itself. -/

def Ascends (left : Nat) (body : Body) : Prop :=
  body.visible ≠ [] ∧ (body.visible.length = 1 → ∀ t ∈ body.visible, left < t)

instance (left : Nat) (body : Body) : Decidable (Ascends left body) :=
  inferInstanceAs (Decidable (_ ∧ _))

section Ascends

variable (hascends : ∀ i < g.size, ∀ body ∈ g.bodies i, Ascends i body)

include hascends

theorem not_mem_bodies_of_ascends (left : Nat) : [epsilon] ∉ g.bodies left := by
  intro hbody
  exact (hascends left (mem_bodies_lt_size hbody) _ hbody).1 rfl

/-- Where all alternatives ascend, a symbol derives later symbols, and strings of two or more. -/
theorem lengthens_or_ascends {s : Nat} {u : List Nat} (h : g.DerivesPlus [s] u) :
    2 ≤ u.length ∨ ∃ t, u = [t] ∧ s < t := by
  have hbodies {left : Nat} {body : Body} (hbody : body ∈ g.bodies left) :
      2 ≤ body.visible.length ∨ ∃ t, body.visible = [t] ∧ left < t := by
    obtain ⟨hne, hlt⟩ := hascends left (mem_bodies_lt_size hbody) body hbody
    have hpos := List.length_pos_iff.mpr hne
    by_cases hone : body.visible.length = 1
    · obtain ⟨t, ht⟩ := List.length_eq_one_iff.mp hone
      exact .inr ⟨t, ht, hlt hone t (by simp [ht])⟩
    · exact .inl (by omega)
  induction h with
  | single hstep =>
      obtain ⟨body, hbody, rfl⟩ := exists_body_of_produces hstep
      exact hbodies hbody
  | tail _ hstep ih =>
      rcases ih with hlong | ⟨t, rfl, hlt⟩
      · obtain ⟨left, body, front, rest, hbody, rfl, rfl⟩ := hstep
        have hne := (hascends left (mem_bodies_lt_size hbody) body hbody).1
        have hpos := List.length_pos_iff.mpr hne
        simp only [List.length_append, List.length_cons] at hlong ⊢
        exact .inl (by omega)
      · obtain ⟨body, hbody, rfl⟩ := exists_body_of_produces hstep
        apply (hbodies hbody).imp id
        rintro ⟨r, hr, hlt'⟩
        exact ⟨r, hr, hlt.trans hlt'⟩

theorem not_derivesPlus_self (s : Nat) : ¬ g.DerivesPlus [s] [s] := by
  intro h
  rcases lengthens_or_ascends hascends h with hlong | ⟨t, heq, hlt⟩
  · simp at hlong
  · simp only [List.cons.injEq, and_true] at heq
    omega

end Ascends

/-- On a grammar without empty alternatives in which no symbol derives itself, the removal leaves no
left recursion exactly if no nonterminal leads back to itself. -/
theorem removes_left_recursion_iff (hg : g.Readable)
    (hepsilon : ∀ left, [epsilon] ∉ g.bodies left) (hcycle : ∀ s, ¬ g.DerivesPlus [s] [s]) :
    (∀ s, ¬ g.withoutLeftRecursion.LeftRecursive s) ↔ ∀ s, ¬ TransGen g.Leads s s := by
  have hwf := hg.wellFormed
  have hremoved := removed_withoutLeftRecursion hwf hepsilon hcycle
  have hall (i : Nat) (hi : g.isNonterminal i = true) :
      i ∈ g.nonterminals.map Nonterminal.index := by
    obtain ⟨n, hn, hindex, -⟩ := hwf.exists_nonterminal hi
    exact List.mem_map.mpr ⟨n, hn, hindex⟩
  exact forall_congr' fun s => not_congr (hremoved.leftRecursive_iff_leads hwf hall)

theorem removes_recursion_through_two :
    ∃ g, Grammar.read .spaced "S -> A a | b\nA -> S c | d" = .ok g ∧ g.LeftRecursive 2 ∧
      ∀ s, ¬ g.withoutLeftRecursion.LeftRecursive s := by
  have hread : ((Grammar.read .spaced "S -> A a | b\nA -> S c | d").toOption.map fun g =>
      decide ((∀ i < g.size, ∀ body ∈ g.bodies i, Ascends i body) ∧
        (∀ i < g.size, g.isNonterminal i = true → i = 2 ∨ i = 3) ∧
        [3, 4] ∈ g.bodies 2 ∧ [2, 6] ∈ g.bodies 3)) = some true := by
    decide +kernel
  simp only [Option.map_eq_some_iff, toOption_eq_some, decide_eq_true_eq] at hread
  obtain ⟨g, hg, hascends, hnon, hfirst, hsecond⟩ := hread
  have hwf := (read_wellFormed hg).1
  have htwo {i : Nat} (hi : g.isNonterminal i = true) : i = 2 ∨ i = 3 :=
    hnon i (lt_size_of_isNonterminal hi) hi
  have hlt (left s : Nat) (hleads : g.Leads left s) : left < s := by
    induction hleads with
    | later _ _ hlt => exact hlt
    | @earlier left first next rest hbody hlt hleads hne _ =>
        have hleft := htwo (hwf.isNonterminal_of_mem_bodies hbody)
        have hinner := htwo (hleads.isNonterminal_left hwf)
        have hright := htwo hleads.isNonterminal_right
        omega
  refine ⟨g, hg, ?_, ?_⟩
  · rw [leftRecursive_iff]
    exact .tail (.single (corner_of_mem (by decide) hfirst)) (corner_of_mem (by decide) hsecond)
  · refine (removes_left_recursion_iff (.read hg) (not_mem_bodies_of_ascends hascends)
      (not_derivesPlus_self hascends)).mpr fun s hcycle => ?_
    have hchain : TransGen g.Leads ≤ (· < ·) := transGen_minimal hlt
    exact lt_irrefl s (hchain s s hcycle)

/-- What comes first in `C` once `A` is replaced is `B`, which is earlier than `C` and stays. -/
theorem leaves_recursion_through_three :
    ∃ g, Grammar.read .spaced "A -> B x\nB -> C y | d\nC -> A z | e" = .ok g ∧
      (∀ left, [epsilon] ∉ g.bodies left) ∧ (∀ s, ¬ g.DerivesPlus [s] [s]) ∧
      g.withoutLeftRecursion.LeftRecursive 3 := by
  have hread : ((Grammar.read .spaced "A -> B x\nB -> C y | d\nC -> A z | e").toOption.map fun g =>
      decide ((∀ i < g.size, ∀ body ∈ g.bodies i, Ascends i body) ∧
        [4, 6] ∈ g.withoutLeftRecursion.bodies 3 ∧
        [3, 5, 8] ∈ g.withoutLeftRecursion.bodies 4)) = some true := by
    decide +kernel
  simp only [Option.map_eq_some_iff, toOption_eq_some, decide_eq_true_eq] at hread
  obtain ⟨g, hg, hascends, hfirst, hsecond⟩ := hread
  refine ⟨g, hg, not_mem_bodies_of_ascends hascends, not_derivesPlus_self hascends, ?_⟩
  rw [leftRecursive_iff]
  exact .tail (.single (corner_of_mem (by decide) hfirst)) (corner_of_mem (by decide) hsecond)

end Lookahead.Grammar
