import Lookahead.Proofs.LR0.Closure
import Lookahead.Proofs.LR0.Simulation

/-!
The kernel of a state tells the state. An item that a closure adds stands at the start of an alternative
of the grammar itself, and an item that was moved over a symbol does not, so that looking at one item is
enough to say how it came into its state.
-/

namespace Lookahead.LR0

open Grammar

variable {g : Grammar} {a : Automaton}

def Automaton.kernel (a : Automaton) (items : ItemSet) : ItemSet := items.filter a.isKernel

theorem Automaton.mem_kernel {items : ItemSet} {i : Item} :
    i ∈ a.kernel items ↔ i ∈ items ∧ a.isKernel i = true := SortedSet.mem_filter

/-- The empty string is no symbol that a dot moves over, so the alternative is not empty. -/
theorem isKernel_advance {i : Item} {s : Nat} (hnext : a.grammar.nextSymbol i = some s)
    (hs : s ≠ epsilon) : a.isKernel i.advance = true := by
  have hmem : s ∈ a.grammar.body i.left i.production := List.mem_of_getElem? hnext
  have hnonempty : (a.grammar.body i.left i.production).isEpsilon = false := by
    rw [Bool.eq_false_iff]
    intro hempty
    exact hs (by simpa using List.all_eq_true.mp hempty s hmem)
  simp [Automaton.isKernel, Item.advance, hnonempty]

theorem isKernel_start (production : Nat) :
    a.isKernel (a.grammar.initialItem a.accept production) = true := by
  simp [Automaton.isKernel, initialItem]

section IsFor

variable (ha : a.IsFor g)

include ha

theorem position_initialItem_accept : (a.grammar.initialItem a.accept 0).position = 0 := by
  have hne : g.start ≠ epsilon := ha.start_ne_epsilon
  simp [initialItem, Grammar.body, ha.bodies_accept, hne]

/-- The dot is at the start, or it has stepped over the empty string. -/
theorem isKernel_initialItem {left production : Nat} (hleft : left ≠ a.accept)
    (hlt : production < (a.grammar.bodies left).length) :
    a.isKernel (a.grammar.initialItem left production) = false := by
  have hbody := (holds_initialItem hlt).body_mem
  simp only [initialItem] at hbody
  rcases ha.grammar_wellFormed.fits hbody with hempty | ⟨hne, hsymbols⟩
  · simp [Automaton.isKernel, initialItem, hleft, hempty, Body.isEpsilon]
  · obtain ⟨s, rest, hcons⟩ := List.exists_cons_of_ne_nil hne
    have hs : s ≠ epsilon := ne_epsilon_of_lt (hsymbols s (by simp [hcons])).1
    simp [Automaton.isKernel, initialItem, hleft, hcons, hs]

/-- No item awaits the added nonterminal. -/
theorem next_lt_size {i : Item} {s : Nat} (hnext : a.grammar.nextSymbol i = some s) :
    s < g.size := by
  have hs : s ∈ a.grammar.body i.left i.production := List.mem_of_getElem? hnext
  cases hbody : (a.grammar.bodies i.left)[i.production]? with
  | none => simp [Grammar.body, hbody] at hs
  | some body =>
      simp only [Grammar.body, hbody, Option.getD_some] at hs
      by_cases hne : s = epsilon
      · exact hne ▸ ha.wellFormed.epsilon_lt_size
      · have hvisible := Body.mem_visible.mpr ⟨hs, hne⟩
        exact (lt_size_of_mem_visible ha (List.mem_of_getElem? hbody) hvisible).2

theorem kernel_closure {items : ItemSet} (hitems : ∀ i ∈ items, a.isKernel i = true) :
    a.kernel (a.grammar.closure items) = items := by
  ext i
  rw [Automaton.mem_kernel]
  refine ⟨fun ⟨hi, hkernel⟩ => ?_, fun hi => ⟨subset_closure items i hi, hitems i hi⟩⟩
  cases mem_closure.mp hi with
  | kernel hmem => exact hmem
  | expand _ hnext _ hmem =>
      obtain ⟨production, hlt, rfl⟩ := mem_initialItems.mp hmem
      have hleft := ha.ne_accept (next_lt_size ha hnext)
      rw [isKernel_initialItem ha hleft hlt] at hkernel
      cases hkernel

/-- The kernel of the set that a symbol leads to are the items that were moved over the symbol. -/
theorem kernel_goto (items : ItemSet) {symbol : Nat} (hsymbol : symbol ≠ epsilon) :
    a.kernel (a.grammar.goto items symbol) = a.grammar.moved items symbol := by
  apply kernel_closure ha
  intro i hi
  obtain ⟨j, -, hnext, rfl⟩ := mem_moved.mp hi
  exact isKernel_advance hnext hsymbol

theorem kernel_start :
    a.kernel (a.grammar.closure (.singleton (a.grammar.initialItem a.accept 0))) =
      .singleton (a.grammar.initialItem a.accept 0) := by
  apply kernel_closure ha
  intro i hi
  rw [SortedSet.mem_singleton.mp hi]
  exact isKernel_start 0

theorem start_not_mem_moved (items : ItemSet) (symbol : Nat) :
    a.grammar.initialItem a.accept 0 ∉ a.grammar.moved items symbol := by
  intro hmem
  obtain ⟨i, -, -, heq⟩ := mem_moved.mp hmem
  have hposition := congrArg Item.position heq
  rw [position_initialItem_accept ha] at hposition
  cases hposition

variable (hcollects : a.Collects (alphabet g))

include hcollects

theorem kernel_target {j k symbol : Nat} {source target : State} (hsource : a.states[j]? = some source)
    (htarget : a.states[k]? = some target) (hedge : a.transition j symbol = some k) :
    target.items = a.grammar.goto source.items symbol ∧
      a.kernel target.items = a.grammar.moved source.items symbol := by
  have hcanonical := isCanonical ha hcollects
  obtain ⟨s, hs, hitems⟩ := hcanonical.target j k source symbol hsource hedge
  obtain rfl : s = target := Option.some.inj (hs.symm.trans htarget)
  exact ⟨hitems, hitems ▸ kernel_goto ha source.items (hcanonical.label j symbol k hedge).2.1⟩

/-- Every state is the first one or the target of an edge. -/
theorem exists_edge_of_ne_zero {k : Nat} {s : State} (hs : a.states[k]? = some s) (hk : k ≠ 0) :
    ∃ j source symbol, a.states[j]? = some source ∧ a.transition j symbol = some k := by
  obtain ⟨string, hwalk⟩ := exists_walk?_of_state ha hcollects hs
  induction string using List.reverseRecOn with
  | nil => exact absurd (Option.some.inj hwalk).symm hk
  | append_singleton string symbol _ =>
      obtain ⟨j, hj, hedge⟩ := Automaton.walk?_append_singleton.mp hwalk
      obtain ⟨source, hsource, -⟩ := ha.complete.valid_of_walk? hj
      exact ⟨j, source, symbol, hsource, hedge⟩

theorem closure_kernel {k : Nat} {s : State} (hs : a.states[k]? = some s) :
    a.grammar.closure (a.kernel s.items) = s.items := by
  by_cases hk : k = 0
  · obtain ⟨first, hfirst, hitems⟩ := ha.complete.start
    obtain rfl : first = s := Option.some.inj (hfirst.symm.trans (hk ▸ hs))
    rw [hitems, kernel_start ha]
  · obtain ⟨j, source, symbol, hsource, hedge⟩ := exists_edge_of_ne_zero ha hcollects hs hk
    obtain ⟨hitems, hkernel⟩ := kernel_target ha hcollects hsource hs hedge
    rw [hkernel, hitems]
    rfl

end IsFor

/-- Every state is the closure of its kernel. The kernel of the first state is the start item, and every
other state is the target of an edge; its kernel are the items that were moved over the symbol of the
edge, whichever edge into the state is taken. Two states with the same kernel are the same. -/
theorem kernel_determines_state (hg : g.Readable) :
    ∃ a, g.automaton? = some a ∧
      (∀ (k : Nat) (s : State), a.states[k]? = some s →
        a.grammar.closure (a.kernel s.items) = s.items) ∧
      (∃ s, a.states[0]? = some s ∧
        a.kernel s.items = .singleton (a.grammar.initialItem a.accept 0)) ∧
      (∀ (k : Nat) (s : State), a.states[k]? = some s → k ≠ 0 →
        ∃ j source symbol, a.states[j]? = some source ∧ a.transition j symbol = some k) ∧
      (∀ (j k symbol : Nat) (source target : State), a.states[j]? = some source →
        a.states[k]? = some target → a.transition j symbol = some k →
          k ≠ 0 ∧ a.kernel target.items = a.grammar.moved source.items symbol) ∧
      ∀ (j k : Nat) (s s' : State), a.states[j]? = some s → a.states[k]? = some s' →
        a.kernel s.items = a.kernel s'.items → j = k := by
  obtain ⟨name, hbuild⟩ := exists_build hg
  have ha := isFor_build hg.wellFormed hg.isNonterminal_start name
  have hcollects := collects_build hg.wellFormed hg.isNonterminal_start name
  obtain ⟨first, hfirst, hitems⟩ := ha.complete.start
  refine ⟨build g name, hbuild, fun k s => closure_kernel ha hcollects,
    ⟨first, hfirst, hitems ▸ kernel_start ha⟩, fun k s => exists_edge_of_ne_zero ha hcollects,
    fun j k symbol source target hsource htarget hedge => ?_, fun j k s s' hs hs' hkernel => ?_⟩
  · obtain ⟨-, hkernel⟩ := kernel_target ha hcollects hsource htarget hedge
    refine ⟨?_, hkernel⟩
    rintro rfl
    obtain rfl : first = target := Option.some.inj (hfirst.symm.trans htarget)
    rw [hitems, kernel_start ha] at hkernel
    exact start_not_mem_moved ha source.items symbol
      (hkernel ▸ SortedSet.mem_singleton.mpr rfl)
  · apply hcollects.index_unique hs hs'
    rw [← closure_kernel ha hcollects hs, hkernel, closure_kernel ha hcollects hs']

/-! In the first state the dot of `A -> ϵ` has stepped over the empty string and is no kernel item. -/

theorem kernel_beside_empty_item :
    ∃ g a s k target, Grammar.read .spaced "S -> A S | c\nA -> ϵ | b" = .ok g ∧
      g.automaton? = some a ∧ a.states[0]? = some s ∧ ⟨3, 0, 1⟩ ∈ s.items ∧
      a.kernel s.items = .singleton (a.grammar.initialItem a.accept 0) ∧
      a.transition 0 3 = some k ∧ a.states[k]? = some target ∧ ⟨3, 0, 1⟩ ∈ target.items ∧
      a.kernel target.items = .singleton ⟨2, 0, 1⟩ ∧
      a.grammar.closure (.singleton ⟨2, 0, 1⟩) = target.items := by
  have hread : ((Grammar.read .spaced "S -> A S | c\nA -> ϵ | b").toOption.bind fun g =>
      g.automaton?.bind fun a => a.states[0]?.bind fun s => (a.transition 0 3).bind fun k =>
        a.states[k]?.map fun target => decide (⟨3, 0, 1⟩ ∈ s.items ∧ ⟨3, 0, 1⟩ ∈ target.items ∧
          a.grammar.moved s.items 3 = .singleton ⟨2, 0, 1⟩)) = some true := by
    decide +kernel
  simp only [Option.bind_eq_some_iff, Option.map_eq_some_iff, toOption_eq_some,
    decide_eq_true_eq] at hread
  obtain ⟨g, hg, a, ha, s, hs, k, hk, target, htarget, hempty, hempty', hmoved⟩ := hread
  obtain ⟨a', ha', hclosure, ⟨s', hs', hstart⟩, -, hedges, -⟩ := kernel_determines_state (.read hg)
  obtain rfl : a = a' := Option.some.inj (ha.symm.trans ha')
  obtain rfl : s = s' := Option.some.inj (hs.symm.trans hs')
  have hkernel := (hedges 0 k 3 s target hs htarget hk).2.trans hmoved
  exact ⟨g, a, s, k, target, hg, ha, hs, hempty, hstart, hk, htarget, hempty', hkernel,
    hkernel ▸ hclosure k target htarget⟩

end Lookahead.LR0
