import Lookahead.Sets.Settle
import Mathlib.Data.Finset.Card
import Mathlib.Tactic

/-!
Repeating a step that only ever adds to what is known. As long as there are no more facts to find
than repetitions are allowed, the repetition ends in a state that the step leaves as it is, and
every part of a step made of many parts leaves it as it is too.
-/

namespace Lookahead

variable {σ α β : Type}

/-- On the states with `P`, the step stays among them and forgets nothing. -/
structure Adds (P : σ → Prop) (knows : σ → β → Prop) (step : σ → σ) : Prop where
  keeps : ∀ s, P s → P (step s)
  grows : ∀ s b, P s → knows s b → knows (step s) b

def Determines (P : σ → Prop) (knows : σ → β → Prop) : Prop :=
  ∀ s s', P s → P s' → (∀ b, knows s b ↔ knows s' b) → s = s'

/-- The loop that sweeps for as long as a sweep says that it changed something: from the one state it
comes to the other one, with so many sweeps. -/
inductive SweepsTo (sweep : σ → σ × Bool) : σ → σ → Nat → Prop
  | last {s r : σ} (unchanged : sweep s = (r, false)) : SweepsTo sweep s r 1
  | again {s next r : σ} {count : Nat} (changed : sweep s = (next, true))
      (following : SweepsTo sweep next r count) : SweepsTo sweep s r (count + 1)

/-- On the states with `P`, the second step does what the first one does and raises a flag if that
changes anything. -/
def Reports [DecidableEq σ] (P : σ → Prop) (step : σ → σ) (flagged : σ × Bool → σ × Bool) : Prop :=
  ∀ s flag, P s → flagged (s, flag) = (step s, flag || decide (step s ≠ s))

/-- Of two additions in a row, one changes something if both together do. -/
theorem Determines.ne_iff {P : σ → Prop} {knows : σ → β → Prop} (h : Determines P knows)
    {s s' s'' : σ} (hs : P s) (hs' : P s') (hgrows : ∀ b, knows s b → knows s' b)
    (hgrows' : ∀ b, knows s' b → knows s'' b) : s'' ≠ s ↔ s' ≠ s ∨ s'' ≠ s' := by
  constructor
  · intro hne
    by_contra hsame
    rw [not_or, not_not, not_not] at hsame
    exact hne (hsame.2.trans hsame.1)
  · rintro hne rfl
    have hback : s' = s'' := h s' s'' hs' hs fun b => ⟨hgrows' b, hgrows b⟩
    exact hne.elim (· hback) (· hback.symm)

namespace Adds

variable {P : σ → Prop} {knows : σ → β → Prop}

/-- Steps that add can be taken one after the other. -/
theorem foldl {f : σ → α → σ} {l : List α} (h : ∀ a ∈ l, Adds P knows (f · a)) :
    Adds P knows fun s => l.foldl f s := by
  induction l with
  | nil => exact ⟨fun _ hs => hs, fun _ _ _ hb => hb⟩
  | cons a l ih =>
      have hfirst := h a (by simp)
      have hrest := ih fun b hb => h b (by simp [hb])
      constructor
      · intro s hs
        exact hrest.keeps _ (hfirst.keeps s hs)
      · intro s b hs hb
        exact hrest.grows _ b (hfirst.keeps s hs) (hfirst.grows s b hs hb)

/-- If many additions in a row change nothing, none of them does. -/
theorem foldl_fixed (hdet : Determines P knows) {f : σ → α → σ} {l : List α}
    (h : ∀ a ∈ l, Adds P knows (f · a)) {s : σ} (hs : P s) (hfix : l.foldl f s = s) :
    ∀ a ∈ l, f s a = s := by
  induction l with
  | nil => simp
  | cons a l ih =>
      have hfirst := h a (by simp)
      have hrest : ∀ b ∈ l, Adds P knows (f · b) := fun b hb => h b (by simp [hb])
      have hsame : f s a = s := by
        refine hdet _ _ (hfirst.keeps s hs) hs fun b => ⟨fun hb => ?_, hfirst.grows s b hs⟩
        have hlater := (foldl hrest).grows _ b (hfirst.keeps s hs) hb
        rwa [← List.foldl_cons, hfix] at hlater
      intro b hb
      rcases List.mem_cons.mp hb with rfl | hb
      · exact hsame
      · rw [List.foldl_cons, hsame] at hfix
        exact ih hrest hfix b hb

variable [DecidableEq σ] {step : σ → σ}

theorem reports_foldl (hdet : Determines P knows) {f : σ → α → σ} {flagged : σ × Bool → α → σ × Bool}
    {l : List α} (h : ∀ a ∈ l, Adds P knows (f · a))
    (hreports : ∀ a ∈ l, Reports P (f · a) (flagged · a)) :
    Reports P (fun s => l.foldl f s) fun s => l.foldl flagged s := by
  induction l with
  | nil =>
      intro s flag _
      simp
  | cons a l ih =>
      intro s flag hs
      have hfirst := h a (by simp)
      have hadds := foldl fun b hb => h b (List.mem_cons_of_mem a hb)
      have hrest := ih (fun b hb => h b (by simp [hb])) fun b hb => hreports b (by simp [hb])
      have hne := hdet.ne_iff hs (hfirst.keeps s hs) (fun b => hfirst.grows s b hs)
        fun b => hadds.grows _ b (hfirst.keeps s hs)
      calc l.foldl flagged (flagged (s, flag) a)
          = l.foldl flagged (f s a, flag || decide (f s a ≠ s)) := by
            rw [← hreports a (by simp) s flag hs]
        _ = (l.foldl f (f s a),
              (flag || decide (f s a ≠ s)) || decide (l.foldl f (f s a) ≠ f s a)) :=
            hrest _ _ (hfirst.keeps s hs)
        _ = (l.foldl f (f s a), flag || decide (l.foldl f (f s a) ≠ s)) := by
            rw [Bool.or_assoc, ← Bool.decide_or, decide_eq_decide.mpr hne]

theorem settle_keeps (h : Adds P knows step) (limit : Nat) {s : σ} (hs : P s) :
    P (settle step limit s).1 := by
  induction limit generalizing s with
  | zero => exact hs
  | succ limit ih =>
      rw [settle]
      split
      · exact hs
      · exact ih (h.keeps s hs)

theorem settle_grows (h : Adds P knows step) (limit : Nat) {s : σ} (hs : P s) {b : β}
    (hb : knows s b) : knows (settle step limit s).1 b := by
  induction limit generalizing s with
  | zero => exact hb
  | succ limit ih =>
      rw [settle]
      split
      · exact hb
      · exact ih (h.keeps s hs) (h.grows s b hs hb)

section Facts

open Classical

variable {facts : Finset β} (hnews : ∀ s b, P s → knows (step s) b → knows s b ∨ b ∈ facts)
  (hsame : ∀ s, P s → (∀ b, knows (step s) b → knows s b) → step s = s)

include hnews hsame

omit [DecidableEq σ] in
/-- A repetition that changes anything finds a fact. -/
theorem card_lt_card (h : Adds P knows step) {s : σ} (hs : P s) (hne : step s ≠ s) :
    (facts.filter (knows s)).card < (facts.filter (knows (step s))).card := by
  refine Finset.card_lt_card ((Finset.ssubset_iff_subset_ne).mpr ⟨?_, fun heq => ?_⟩)
  · intro b hb
    have hb := Finset.mem_filter.mp hb
    exact Finset.mem_filter.mpr ⟨hb.1, h.grows s b hs hb.2⟩
  · refine hne (hsame s hs fun b hb => ?_)
    rcases hnews s b hs hb with hold | hmem
    · exact hold
    · have hmem := Finset.mem_filter.mpr ⟨hmem, hb⟩
      rw [← heq] at hmem
      exact (Finset.mem_filter.mp hmem).2

/-- Every repetition but the last one finds a fact, so that a limit as large as the number of facts
is never the reason to stop. -/
theorem settle_fixed (h : Adds P knows step) {limit : Nat} (hlimit : facts.card ≤ limit) {s : σ}
    (hs : P s) : step (settle step limit s).1 = (settle step limit s).1 := by
  suffices ∀ limit s, P s → facts.card ≤ limit + (facts.filter (knows s)).card →
      step (settle step limit s).1 = (settle step limit s).1 from
    this limit s hs (by omega)
  intro limit
  induction limit with
  | zero =>
      intro s hs hcard
      by_contra hne
      have hlt := h.card_lt_card hnews hsame hs hne
      have hle := Finset.card_filter_le facts (knows (step s))
      omega
  | succ limit ih =>
      intro s hs hcard
      rw [settle]
      split
      · next hfix => exact hfix
      · next hne =>
          have hlt := h.card_lt_card hnews hsame hs hne
          exact ih (step s) (h.keeps s hs) (by omega)

/-- With one repetition to spare, the last one is the one that changes nothing, so that the
repetition is the loop without a limit. -/
theorem settle_sweepsTo (h : Adds P knows step) {sweep : σ → σ × Bool}
    (hsweep : ∀ s, P s → sweep s = (step s, decide (step s ≠ s))) {limit : Nat}
    (hlimit : facts.card < limit) {s : σ} (hs : P s) :
    SweepsTo sweep s (settle step limit s).1 (settle step limit s).2 := by
  suffices ∀ limit s, P s → facts.card < limit + (facts.filter (knows s)).card →
      SweepsTo sweep s (settle step limit s).1 (settle step limit s).2 from
    this limit s hs (by omega)
  intro limit
  induction limit with
  | zero =>
      intro s _ hcard
      have hle := Finset.card_filter_le facts (knows s)
      omega
  | succ limit ih =>
      intro s hs hcard
      have hstep := hsweep s hs
      rw [settle]
      split
      · next hfix =>
          simp only [hfix, ne_eq, not_true_eq_false, decide_false] at hstep
          exact .last hstep
      · next hne =>
          have hlt := h.card_lt_card hnews hsame hs hne
          simp only [ne_eq, hne, not_false_eq_true, decide_true] at hstep
          exact .again hstep (ih (step s) (h.keeps s hs) (by omega))

end Facts

end Adds
end Lookahead
