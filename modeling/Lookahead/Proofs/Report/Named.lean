import Lookahead.Proofs.LL1.Classification
import Lookahead.Proofs.LR0.Collection
import Lookahead.Proofs.SLR1.Classification
import Lookahead.Report.Classification
import Lookahead.Report.SLR1Table

/-!
Texts that name symbols exist. A rule or an item of a well-formed grammar can be written as soon as
its left side is a symbol of the grammar. What conflicts and collisions tell of are nonterminals of
the grammar, items of the states and terminals of the sets, all of which have names.
-/

namespace Lookahead

namespace Grammar

variable {g : Grammar}

theorem WellFormed.lt_size_of_mem_body (hg : g.WellFormed) (left production : Nat) :
    ∀ s ∈ g.body left production, s < g.size := by
  cases hbody : (g.bodies left)[production]? with
  | none => simp [body, hbody]
  | some b =>
      have hb : g.body left production = b := by simp [body, hbody]
      rw [hb]
      exact (hg.fits (List.mem_of_getElem? hbody)).lt_size hg

section Named

variable (hg : g.WellFormed)

include hg

/-- Both sides of a rule have names. -/
theorem exists_names {left : Nat} (hleft : left < g.size) (production : Nat) :
    ∃ name right, g.name? left = some name ∧ g.names? (g.body left production) = some right := by
  obtain ⟨name, hname⟩ := Option.isSome_iff_exists.mp (isSome_name? hleft)
  obtain ⟨right, hright⟩ :=
    Option.isSome_iff_exists.mp (isSome_names? (hg.lt_size_of_mem_body left production))
  exact ⟨name, right, hname, hright⟩

theorem isSome_ruleText? {left : Nat} (hleft : left < g.size) (production : Nat) :
    (g.ruleText? left production).isSome = true := by
  obtain ⟨name, right, hname, hright⟩ := exists_names hg hleft production
  simp [ruleText?, hname, hright]

/-- An item can be told by name if its left side is a symbol. -/
theorem isSome_itemText? {i : Item} (hleft : i.left < g.size) :
    (g.itemText? i).isSome = true := by
  obtain ⟨name, right, hname, hright⟩ := exists_names hg hleft i.production
  simp [itemText?, hname, hright]

theorem isSome_itemLatex? {i : Item} (hleft : i.left < g.size) :
    (g.itemLatex? i).isSome = true := by
  obtain ⟨name, right, hname, hright⟩ := exists_names hg hleft i.production
  simp [itemLatex?, hname, hright]

end Named

theorem isSome_listText? {terminals : SortedSet Nat} (h : ∀ t ∈ terminals, t < g.size) :
    (g.listText? terminals.toList).isSome = true := by
  rw [listText?, Option.isSome_map]
  exact isSome_names? fun t ht => h t (SortedSet.mem_def.mpr ht)

end Grammar

namespace LL1

open Grammar

variable {g : Grammar}

namespace Conflict

def left : Conflict → Nat
  | firstFirst left _ _ _ => left
  | firstFollow left _ => left
  | bothVanish left _ _ _ => left

def terminals : Conflict → SortedSet Nat
  | firstFirst _ _ _ terminals => terminals
  | firstFollow _ terminals => terminals
  | bothVanish _ _ _ terminals => terminals

theorem isSome_text? (hg : g.WellFormed) {c : Conflict} (hleft : c.left < g.size)
    (hterminals : ∀ t ∈ c.terminals, t < g.size) : (c.text? g).isSome = true := by
  obtain ⟨list, hlist⟩ := Option.isSome_iff_exists.mp (isSome_listText? hterminals)
  have hrule (production : Nat) :=
    Option.isSome_iff_exists.mp (isSome_ruleText? hg hleft production)
  cases c with
  | firstFirst left i j terminals =>
      obtain ⟨first, hfirst⟩ := hrule i
      obtain ⟨second, hsecond⟩ := hrule j
      simp only [Conflict.left, Conflict.terminals] at hlist hfirst hsecond
      simp [text?, hlist, hfirst, hsecond]
  | firstFollow left terminals =>
      obtain ⟨name, hname⟩ := Option.isSome_iff_exists.mp (isSome_name? hleft)
      simp only [Conflict.left, Conflict.terminals] at hlist hname
      simp [text?, hlist, hname]
  | bothVanish left i j terminals =>
      obtain ⟨first, hfirst⟩ := hrule i
      obtain ⟨second, hsecond⟩ := hrule j
      simp only [Conflict.left, Conflict.terminals] at hlist hfirst hsecond
      simp [text?, hlist, hfirst, hsecond]

end Conflict

/-- A cell that is called for twice tells both alternatives. -/
theorem blames_table : Blames (fun (table : Table) cell => table.cells.find? cell)
    (fun table (entry : Cell × Nat) => table.fill entry.1 entry.2)
    (fun cell i j => ⟨cell.nonterminal, cell.terminal, i, j⟩) := by
  intro table cell i e h
  change table.fill cell i = .error e at h
  unfold Table.fill at h
  split at h
  · next other hother =>
      split at h
      · cases h
      · cases h
        exact ⟨other, hother, rfl⟩
  · cases h

section WellFormed

variable (hg : g.WellFormed)

include hg

theorem isTerminal_of_mem_first_body {n : Nonterminal} (hn : n ∈ g.nonterminals) {f : FirstSet}
    (hf : f ∈ n.bodies.map g.firstSets.ofSequence) {t : Nat} (ht : t ∈ f.terminals) :
    g.isTerminal t = true := by
  obtain ⟨body, hbody, rfl⟩ := List.mem_map.mp hf
  rw [← hg.bodies_index hn] at hbody
  exact hg.isTerminal_of_first ((hg.fits hbody).lt_size hg) ht

/-- A conflict is one of a nonterminal, and tells of terminals. -/
theorem lt_size_of_mem_conflicts {c : Conflict}
    (hc : c ∈ conflicts g g.firstSets (g.followSets g.firstSets)) :
    c.left < g.size ∧ ∀ t ∈ c.terminals, t < g.size := by
  obtain ⟨n, hn, hc⟩ := List.mem_flatMap.mp hc
  have hindex := lt_size_of_isNonterminal (hg.isNonterminal_index hn)
  have hfollow {t : Nat} (ht : t ∈ (g.followSets g.firstSets).ofSymbol n.index) : t < g.size :=
    lt_size_of_isTerminal (hg.isTerminal_of_mem_followers ht)
  rcases List.mem_append.mp hc with hc | hc
  · obtain ⟨⟨⟨f, i⟩, ⟨f', j⟩⟩, hpair, hc⟩ := List.mem_filterMap.mp hc
    have hf := List.fst_mem_of_mem_zipIdx (mem_of_mem_pairs hpair).1
    have hshared {t : Nat} (ht : t ∈ f.terminals.inter f'.terminals) : t < g.size :=
      lt_size_of_isTerminal
        (isTerminal_of_mem_first_body hg hn hf (SortedSet.mem_inter.mp ht).1)
    unfold pairConflict at hc
    dsimp only at hc
    split at hc
    · split at hc
      · cases hc
      · cases hc
        refine ⟨hindex, fun t ht => ?_⟩
        exact (SortedSet.mem_union.mp ht).elim hshared hfollow
    · split at hc
      · cases hc
      · cases hc
        exact ⟨hindex, fun t ht => hshared ht⟩
  · rw [Option.mem_toList] at hc
    unfold vanishConflict at hc
    dsimp only at hc
    split at hc
    · cases hc
      exact ⟨hindex, fun t ht => hfollow (SortedSet.mem_inter.mp ht).2⟩
    · cases hc

theorem isSome_collision_message? {c : Collision}
    (hc : buildTable g g.firstSets (g.followSets g.firstSets) = .error c) :
    (c.message? g).isSome = true := by
  obtain ⟨cell, i, j, hcell, -, rfl⟩ := fills_table.error_foldlM blames_table hc
  obtain ⟨body, hpredicts⟩ := (mem_predictions hg).mp hcell
  have hleft := lt_size_of_isNonterminal (hg.isNonterminal_of_mem_bodies hpredicts.mem)
  have hterminal := lt_size_of_isTerminal (hpredicts.isTerminal hg)
  obtain ⟨name, hname⟩ := Option.isSome_iff_exists.mp (isSome_name? hleft)
  obtain ⟨on, hon⟩ := Option.isSome_iff_exists.mp (isSome_name? hterminal)
  obtain ⟨first, hfirst⟩ := Option.isSome_iff_exists.mp (isSome_ruleText? hg hleft j)
  obtain ⟨second, hsecond⟩ := Option.isSome_iff_exists.mp (isSome_ruleText? hg hleft i)
  simp [Collision.message?, hname, hon, hfirst, hsecond]

end WellFormed

end LL1

namespace SLR1

open Grammar LR0

variable {g : Grammar} {a : Automaton} {follow : FollowSets}

namespace Conflict

def items : Conflict → List Item
  | shiftReduce _ r _ => [r]
  | reduceReduce _ r s _ => [r, s]
  | acceptReduce _ r => [r]

def terminals : Conflict → SortedSet Nat
  | shiftReduce _ _ terminals => terminals
  | reduceReduce _ _ _ terminals => terminals
  | acceptReduce _ _ => ∅

theorem isSome_text? (hg : g.WellFormed) {c : Conflict} (hitems : ∀ i ∈ c.items, i.left < g.size)
    (hterminals : ∀ t ∈ c.terminals, t < g.size) : (c.text? g).isSome = true := by
  obtain ⟨list, hlist⟩ := Option.isSome_iff_exists.mp (isSome_listText? hterminals)
  have hitem (i : Item) (hi : i ∈ c.items) :=
    Option.isSome_iff_exists.mp (isSome_itemText? hg (hitems i hi))
  cases c with
  | shiftReduce state r terminals =>
      obtain ⟨text, htext⟩ := hitem r (by simp [Conflict.items])
      simp only [Conflict.terminals] at hlist
      simp [text?, hlist, htext]
  | reduceReduce state r s terminals =>
      obtain ⟨first, hfirst⟩ := hitem r (by simp [Conflict.items])
      obtain ⟨second, hsecond⟩ := hitem s (by simp [Conflict.items])
      simp only [Conflict.terminals] at hlist
      simp [text?, hlist, hfirst, hsecond]
  | acceptReduce state r =>
      obtain ⟨text, htext⟩ := hitem r (by simp [Conflict.items])
      simp [text?, htext]

end Conflict

/-- A conflict is one of items of a state, and tells of terminals that can follow something. -/
theorem mem_of_mem_conflicts {c : Conflict} (hc : c ∈ conflicts a follow) :
    (∃ (k : Nat) (s : State), a.states[k]? = some s ∧ ∀ i ∈ c.items, i ∈ s.items) ∧
      ∀ t ∈ c.terminals, ∃ left, t ∈ follow.ofSymbol left := by
  obtain ⟨⟨s, k⟩, hs, hc⟩ := List.mem_flatMap.mp hc
  have hs := mem_zipIdx_states.mp hs
  have hitem {i : Item} (hi : i ∈ a.reducible s.items) : i ∈ s.items := (mem_reducible.mp hi).1
  rcases List.mem_append.mp hc with hc | hc
  · rcases List.mem_append.mp hc with hc | hc
    · split at hc
      · obtain ⟨r, hr, rfl⟩ := List.mem_map.mp hc
        refine ⟨⟨k, s, hs, ?_⟩, fun t ht => absurd ht (SortedSet.not_mem_empty t)⟩
        simpa [Conflict.items] using hitem (List.mem_of_mem_filter hr)
      · cases hc
    · obtain ⟨r, hr, hc⟩ := List.mem_filterMap.mp hc
      dsimp only at hc
      split at hc
      · cases hc
      · cases hc
        refine ⟨⟨k, s, hs, by simpa [Conflict.items] using hitem hr⟩, fun t ht => ?_⟩
        exact ⟨r.left, (SortedSet.mem_inter.mp ht).1⟩
  · obtain ⟨⟨r, r'⟩, hpair, hc⟩ := List.mem_filterMap.mp hc
    obtain ⟨hr, hr'⟩ := mem_of_mem_pairs hpair
    dsimp only at hc
    split at hc
    · cases hc
    · cases hc
      refine ⟨⟨k, s, hs, by simpa [Conflict.items] using ⟨hitem hr, hitem hr'⟩⟩, fun t ht => ?_⟩
      exact ⟨r.left, (SortedSet.mem_inter.mp ht).1⟩

theorem blames_row (state : Nat) : Blames (fun (row : SortedMap Nat Action) t => row.find? t)
    (fill state) (fun t other action => ⟨state, t, other, action⟩) := by
  intro row t action e h
  unfold fill at h
  split at h
  · next other hother =>
      split at h
      · cases h
      · cases h
        exact ⟨other, hother, rfl⟩
  · cases h

/-- Two actions collide that items of one state call for. -/
theorem mem_actionsOf_of_error {c : Collision} (hc : buildTable a follow = .error c) :
    ∃ (k : Nat) (s : State), a.states[k]? = some s ∧
      (∃ i ∈ s.items, (c.terminal, c.first) ∈ actionsOf a follow s i) ∧
      ∃ i ∈ s.items, (c.terminal, c.second) ∈ actionsOf a follow s i := by
  rcases bind_eq_error.mp hc with hc | ⟨_, -, hc⟩
  · obtain ⟨⟨s, k⟩, hs, hrow⟩ := exists_of_mapM_eq_error hc
    obtain ⟨t, second, first, hsecond, hfirst, rfl⟩ :=
      (fills_row k).error_foldlM (blames_row k) hrow
    have hmem {action : Action}
        (h : (t, action) ∈ s.items.toList.flatMap (actionsOf a follow s)) :
        ∃ i ∈ s.items, (t, action) ∈ actionsOf a follow s i := by
      obtain ⟨i, hi, h⟩ := List.mem_flatMap.mp h
      exact ⟨i, SortedSet.mem_def.mpr hi, h⟩
    refine ⟨k, s, mem_zipIdx_states.mp hs, hmem (hfirst.resolve_left ?_), hmem hsecond⟩
    simp
  · cases hc

end SLR1
end Lookahead
