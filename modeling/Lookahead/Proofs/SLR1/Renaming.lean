import Lookahead.Proofs.LR0.Renaming
import Lookahead.Proofs.SLR1.Classification
import Lookahead.Proofs.SLR1.Steps

/-!
The shift-reduce machine under other numbers. What the items of a state call for is kept, and so are
the conflicts. Two machines whose stacks hold the same string, each in its own numbers, do the same
thing on the same token, since a turn depends only on the string and on the terminal at hand. Hence
one of them halts whenever the other does, and with the same answer.
-/

namespace Lookahead

namespace Grammar.Renaming

variable {g h : Grammar} {e : Equiv.Perm Nat} {τ : Nat → Equiv.Perm Nat} (r : Renaming e τ g h)

include r

theorem apply_eq_endMark {s : Nat} : e s = endMark ↔ s = endMark := by
  rw [← r.map_endMark, e.apply_eq_iff_eq, r.map_endMark]

theorem terminal?_eq (hg : g.WellFormed) (hh : h.WellFormed) (text : String) :
    h.terminal? text = (g.terminal? text).map e := by
  apply Option.ext
  intro t
  obtain ⟨t, rfl⟩ := e.surjective t
  rw [hh.terminal?_eq_some, r.name, r.isTerminal, ne_eq, r.apply_eq_endMark, Option.map_eq_some_iff]
  simp [hg.terminal?_eq_some]

theorem terminals_input (hg : g.WellFormed) (hh : h.WellFormed) (tokens : List String) :
    (h.input tokens).map Token.terminal =
      (g.input tokens).map fun token => token.terminal.map e := by
  simp [input, r.terminal?_eq hg hh, r.map_endMark]

end Grammar.Renaming

namespace SLR1

open Machine Grammar LR0

variable {g h : Grammar} {a b : Automaton} {e : Equiv.Perm Nat} {σ τ : Nat → Equiv.Perm Nat}

/-! Conflicts. -/

section Items

variable (m : a.Relabels e σ b) {items items' : ItemSet}
  (hitems : ∀ i, Item.relabel e σ i ∈ items' ↔ i ∈ items)

include m

theorem left_eq_accept {i : Item} : (Item.relabel e σ i).left = b.accept ↔ i.left = a.accept := by
  rw [← m.accept]
  exact e.apply_eq_iff_eq

theorem isComplete_relabel (i : Item) :
    b.grammar.isComplete (Item.relabel e σ i) = true ↔ a.grammar.isComplete i = true := by
  rw [isComplete_iff, isComplete_iff, m.nextSymbol_eq_none]

include hitems

theorem relabel_mem_reducible {i : Item} :
    Item.relabel e σ i ∈ b.reducible items' ↔ i ∈ a.reducible items := by
  rw [mem_reducible, mem_reducible, hitems, ne_eq, left_eq_accept m, isComplete_relabel m]

theorem accepts_relabel : b.accepts items' = true ↔ a.accepts items = true := by
  rw [accepts_iff, accepts_iff, (Item.relabel e σ).surjective.exists]
  simp only [hitems, left_eq_accept m, isComplete_relabel m]

theorem apply_mem_shiftable {t : Nat} : e t ∈ b.shiftable items' ↔ t ∈ a.shiftable items := by
  rw [mem_shiftable, mem_shiftable, m.isTerminal, (Item.relabel e σ).surjective.exists]
  simp only [hitems, m.nextSymbol_eq_some]

/-- A state is free of conflicts under the other numbers too. -/
theorem ConflictFree.relabel (r : Renaming e τ g h) (hg : g.WellFormed) (hh : h.WellFormed)
    (hfree : ConflictFree a (g.followSets g.firstSets) items) :
    ConflictFree b (h.followSets h.firstSets) items' := by
  have hreducible {i : Item} := relabel_mem_reducible m hitems (i := i)
  -- all items and terminals of the one side are images of those of the other
  refine ⟨?_, ?_, ?_⟩
  · intro haccepts i hi hend
    obtain ⟨i, rfl⟩ := (Item.relabel e σ).surjective i
    rw [← r.map_endMark] at hend
    exact hfree.accepting ((accepts_relabel m hitems).mp haccepts) i (hreducible.mp hi)
      ((r.mem_followers hg hh).mp hend)
  · intro i hi t ht hshift
    obtain ⟨i, rfl⟩ := (Item.relabel e σ).surjective i
    obtain ⟨t, rfl⟩ := e.surjective t
    exact hfree.shifting i (hreducible.mp hi) t ((r.mem_followers hg hh).mp ht)
      ((apply_mem_shiftable m hitems).mp hshift)
  · intro i hi j hj hne t ht ht'
    obtain ⟨i, rfl⟩ := (Item.relabel e σ).surjective i
    obtain ⟨j, rfl⟩ := (Item.relabel e σ).surjective j
    obtain ⟨t, rfl⟩ := e.surjective t
    exact hfree.reducing i (hreducible.mp hi) j (hreducible.mp hj) (fun heq => hne (heq ▸ rfl)) t
      ((r.mem_followers hg hh).mp ht) ((r.mem_followers hg hh).mp ht')

end Items

structure Counterparts (e : Equiv.Perm Nat) (τ σ : Nat → Equiv.Perm Nat) (g h : Grammar)
    (a b : Automaton) : Prop where
  renames : Renaming e τ g h
  relabels : a.Relabels e σ b
  isFor : a.IsFor g
  isFor' : b.IsFor h
  collects : a.Collects (alphabet g)
  collects' : b.Collects (alphabet h)

namespace Counterparts

variable (p : Counterparts e τ σ g h a b)

include p

theorem symm : Counterparts e.symm (fun left => (τ (e.symm left)).symm)
    (fun left => (σ (e.symm left)).symm) h g b a :=
  ⟨p.renames.symm, p.relabels.symm, p.isFor', p.isFor, p.collects', p.collects⟩

/-- Counterparts have equally many states. -/
theorem size_states_eq : b.states.size = a.states.size :=
  le_antisymm (p.relabels.symm.size_states_le p.collects' p.isFor)
    (p.relabels.size_states_le p.collects p.isFor')

theorem conflicts_eq_nil (hfree : conflicts a (g.followSets g.firstSets) = []) :
    conflicts b (h.followSets h.firstSets) = [] := by
  rw [conflicts_eq_nil_iff_conflictFree]
  intro k s' hs'
  obtain ⟨string, ⟨i, hi⟩, hvalid'⟩ := p.collects'.reached hs'
  obtain ⟨i, rfl⟩ := (Item.relabel e σ).surjective i
  obtain ⟨string, rfl⟩ : ∃ u : List Nat, u.map e = string := ⟨string.map e.symm, by simp⟩
  obtain ⟨k, s, hs, hvalid⟩ := (p.relabels.valid_iff.mp hi).exists_state p.isFor
  have hstate := conflicts_eq_nil_iff_conflictFree.mp hfree k s hs
  refine hstate.relabel p.relabels ?_ p.renames p.isFor.wellFormed p.isFor'.wellFormed
  intro j
  rw [hvalid', p.relabels.valid_iff, hvalid]

/-! Runs. -/

theorem shifts {t : Nat} {string : List Nat} (hshifts : Shifts a t string) :
    Shifts b (e t) (string.map e) := by
  obtain ⟨i, hi, hnext, hterm⟩ := hshifts
  exact ⟨_, p.relabels.valid hi, p.relabels.nextSymbol_eq_some.mpr hnext,
    (p.relabels.isTerminal t).trans hterm⟩

/-- What can be reduced can be reduced under the other numbers. -/
theorem reduces {t : Nat} {string string' : List Nat}
    (hreduces : Reduces a (g.followSets g.firstSets) t string string') :
    Reduces b (h.followSets h.firstSets) (e t) (string.map e) (string'.map e) := by
  obtain ⟨front, i, hi, hdone, hleft, ht, rfl, rfl⟩ := hreduces
  have hbody : Body.visible (b.grammar.body (e i.left) (σ i.left i.production)) =
      (a.grammar.body i.left i.production).visible.map e := by
    rw [p.relabels.body_map, p.relabels.visible_map]
  refine ⟨front.map e, Item.relabel e σ i, p.relabels.valid hi,
    p.relabels.nextSymbol_eq_none.mpr hdone, mt (left_eq_accept p.relabels).mp hleft,
    (p.renames.mem_followers p.isFor.wellFormed p.isFor'.wellFormed).mpr ht, ?_, ?_⟩
  · rw [List.map_append]
    exact congrArg _ hbody.symm
  · rw [List.map_append]
    rfl

end Counterparts

/-- The stacks hold the same string, each in its own numbers, and the same terminals are left. -/
def Alike (a b : Automaton) (e : Equiv.Perm Nat) (c c' : Config Entry) : Prop :=
  ∃ string, Traces a c.stack string ∧ Traces b c'.stack (string.map e) ∧
    c'.rest.map Token.terminal = c.rest.map fun token => token.terminal.map e

theorem Alike.symm {c c' : Config Entry} (hlike : Alike a b e c c') :
    Alike b a e.symm c' c := by
  obtain ⟨string, htraces, htraces', hrest⟩ := hlike
  refine ⟨string.map e, htraces', by simpa using htraces, ?_⟩
  have hback := congrArg (List.map (Option.map e.symm)) hrest
  simpa [Function.comp_def] using hback.symm

theorem Alike.current {c c' : Config Entry} (hlike : Alike a b e c c') :
    c'.current = c.current.map e := by
  obtain ⟨_, -, -, hrest⟩ := hlike
  obtain ⟨stack, rest⟩ := c
  obtain ⟨stack', rest'⟩ := c'
  cases rest with
  | nil =>
      obtain rfl : rest' = [] := by simpa using hrest
      rfl
  | cons token rest =>
      cases rest' with
      | nil => simp at hrest
      | cons token' rest' => exact (List.cons.inj hrest).1

namespace Counterparts

variable (p : Counterparts e τ σ g h a b) {table table' : Table}
  (htable : buildTable a (g.followSets g.firstSets) = .ok table)
  (htable' : buildTable b (h.followSets h.firstSets) = .ok table')

include p htable htable'

/-- A move of the one machine is answered by a move of the other, and the stacks stay alike. -/
theorem goes {c d c' : Config Entry} (hlike : Alike a b e c c')
    (hgoes : Goes (turn g table) c d) :
    ∃ d', Goes (turn h table') c' d' ∧ Alike a b e d d' := by
  have hcurrent := hlike.current
  obtain ⟨string, htraces, htraces', hrest⟩ := hlike
  obtain ⟨move, hmove⟩ := hgoes
  rcases turn_cases p.isFor htable htraces c.rest with hturn | ⟨hturn, -⟩ |
    ⟨t, j, hturn, ht, hshift, hnext⟩ | ⟨t, _, stack, after, hturn, ht, hreduces, hnext⟩
  · cases hmove.symm.trans hturn
  · cases hmove.symm.trans hturn
  · cases hmove.symm.trans hturn
    rw [ht] at hcurrent
    obtain ⟨j', hgoes', hnext'⟩ := goes_shift p.isFor' htable' htraces' hcurrent (p.shifts hshift)
    refine ⟨_, hgoes', string ++ [t], hnext, by simpa using hnext', ?_⟩
    simpa using congrArg List.tail hrest
  · cases hmove.symm.trans hturn
    rw [ht] at hcurrent
    obtain ⟨stack', hgoes', hnext'⟩ :=
      goes_reduce p.isFor' htable' htraces' hcurrent (p.reduces hreduces)
    exact ⟨_, hgoes', after, hnext, hnext', hrest⟩

/-- The one string that is accepted is the start symbol, in either numbers. -/
theorem accepts {c c' : Config Entry} {move : Move} (hlike : Alike a b e c c')
    (haccept : turn g table c = .halt move true) :
    turn h table' c' = .halt .accept true := by
  have hcurrent := hlike.current
  obtain ⟨string, htraces, htraces', hrest⟩ := hlike
  rcases turn_cases p.isFor htable htraces c.rest with hturn | ⟨hturn, ht, rfl⟩ |
    ⟨t, j, hturn, -⟩ | ⟨t, _, stack, after, hturn, -⟩
  · cases haccept.symm.trans hturn
  · obtain ⟨i, hi, hleft, -, hdone⟩ := Automaton.Valid.start.move_over (ahead_start p.isFor')
    rw [ht, Option.map_some, p.renames.map_endMark] at hcurrent
    rw [List.map_singleton, p.renames.map_start] at htraces'
    exact halt_accept p.isFor' htable' htraces' hcurrent hi hleft hdone
  · cases haccept.symm.trans hturn
  · cases haccept.symm.trans hturn

/-- Where the one machine halts, the other one makes no move either, since a move would be carried
back. -/
theorem halts {c c' : Config Entry} {move : Move} {accepted : Bool} (hlike : Alike a b e c c')
    (hhalt : turn g table c = .halt move accepted) :
    ∃ move', turn h table' c' = .halt move' accepted := by
  have hback := hlike.symm
  have hstays {move : Move} {d : Config Entry} (hturn : turn h table' c' = .next move d) : False := by
    obtain ⟨_, ⟨_, hmove⟩, -⟩ := p.symm.goes htable' htable hback ⟨_, hturn⟩
    cases hhalt.symm.trans hmove
  cases accepted with
  | true => exact ⟨.accept, p.accepts htable htable' hlike hhalt⟩
  | false =>
      obtain ⟨string, -, htraces', -⟩ := hlike
      rcases turn_cases p.isFor' htable' htraces' c'.rest with hturn | ⟨hturn, -⟩ |
        ⟨t, j, hturn, -⟩ | ⟨t, _, stack, after, hturn, -⟩
      · exact ⟨.reject, hturn⟩
      · have haccept := p.symm.accepts htable' htable hback hturn
        cases hhalt.symm.trans haccept
      · exact (hstays hturn).elim
      · exact (hstays hturn).elim

theorem ends {tokens : List String} {accepted : Bool}
    (hends : Ends (turn g table) (initial g tokens) accepted) :
    Ends (turn h table') (initial h tokens) accepted := by
  have hlike : Alike a b e (initial g tokens) (initial h tokens) :=
    ⟨[], .nil, .nil, p.renames.terminals_input p.isFor.wellFormed p.isFor'.wellFormed tokens⟩
  exact .of_simulation (fun _ _ _ => p.goes htable htable')
    (fun _ _ _ _ => p.halts htable htable') hlike hends

end Counterparts

end SLR1
end Lookahead
