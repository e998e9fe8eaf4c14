import Lookahead.Machine.Run
import Lookahead.Proofs.Fallible
import Lookahead.Proofs.Grammar.Derivation
import Lookahead.Proofs.Grammar.WellFormed
import Mathlib.Logic.Relation
import Mathlib.Tactic

/-!
Runs of a machine as chains of turns. A run with a limit halts for some limit exactly when the chain
of turns comes to a configuration in which the machine halts. The input that a machine reads holds a
word and the end mark when its tokens spell the word.
-/

namespace Lookahead

namespace Machine

open Relation

variable {σ : Type} {turn : Config σ → Turn σ}

def Goes (turn : Config σ → Turn σ) (c c' : Config σ) : Prop := ∃ move, turn c = .next move c'

def Reaches (turn : Config σ → Turn σ) : Config σ → Config σ → Prop := ReflTransGen (Goes turn)

/-- The run from the configuration halts within some number of turns, with the given answer. -/
def Ends (turn : Config σ → Turn σ) (c : Config σ) (accepted : Bool) : Prop :=
  ∃ limit trace, run turn limit c = .halted trace ∧ trace.accepted = accepted

/-- A configuration has one move at most. -/
theorem Goes.functional {c c₁ c₂ : Config σ} (h₁ : Goes turn c c₁) (h₂ : Goes turn c c₂) :
    c₁ = c₂ := by
  obtain ⟨_, h₁⟩ := h₁
  obtain ⟨_, h₂⟩ := h₂
  rw [h₁] at h₂
  cases h₂
  rfl

theorem cons_eq_halted {step : Step σ} {r : Run σ} {trace : Trace σ}
    (h : r.cons step = .halted trace) :
    ∃ rest, r = .halted rest ∧ rest.accepted = trace.accepted := by
  cases r with
  | halted rest =>
      cases h
      exact ⟨rest, rfl, rfl⟩
  | faulted => cases h
  | unfinished => cases h

theorem trace?_eq_some {r : Run σ} {trace : Trace σ} :
    r.trace? = some trace ↔ r = .halted trace := by
  cases r <;> simp [Run.trace?]

theorem ends_of_halt {c : Config σ} {move : Move} {accepted : Bool}
    (h : turn c = .halt move accepted) : Ends turn c accepted :=
  ⟨1, ⟨[⟨c, move⟩], accepted⟩, by rw [run, h], rfl⟩

theorem Ends.of_goes {c c' : Config σ} {accepted : Bool} (hgoes : Goes turn c c')
    (h : Ends turn c' accepted) : Ends turn c accepted := by
  obtain ⟨move, hmove⟩ := hgoes
  obtain ⟨limit, trace, hrun, haccepted⟩ := h
  refine ⟨limit + 1, ⟨⟨c, move⟩ :: trace.steps, trace.accepted⟩, ?_, haccepted⟩
  rw [run, hmove]
  simp only [hrun, Run.cons]

theorem Ends.of_reaches {c c' : Config σ} {accepted : Bool} (hreach : Reaches turn c c')
    (h : Ends turn c' accepted) : Ends turn c accepted := by
  induction hreach using ReflTransGen.head_induction_on with
  | refl => exact h
  | head hgoes _ ih => exact .of_goes hgoes ih

/-- A run that halts goes through configurations up to one in which the machine halts. -/
theorem ends_iff {c : Config σ} {accepted : Bool} :
    Ends turn c accepted ↔
      ∃ c' move, Reaches turn c c' ∧ turn c' = .halt move accepted := by
  constructor
  · rintro ⟨limit, trace, hrun, haccepted⟩
    induction limit generalizing c trace with
    | zero => cases hrun
    | succ limit ih =>
        rw [run] at hrun
        split at hrun
        · next move next hmove =>
            obtain ⟨rest, hrest, hsame⟩ := cons_eq_halted hrun
            obtain ⟨c', last, hreach, hlast⟩ := ih rest hrest (hsame.trans haccepted)
            exact ⟨c', last, hreach.head ⟨move, hmove⟩, hlast⟩
        · next move answer hmove =>
            cases hrun
            cases haccepted
            exact ⟨c, move, .refl, hmove⟩
        · cases hrun
  · rintro ⟨c', move, hreach, hhalt⟩
    exact .of_reaches hreach (ends_of_halt hhalt)

/-- A run that halts goes on to halt from every configuration it goes through. -/
theorem Ends.of_reaches_start {c c' : Config σ} {accepted : Bool} (h : Ends turn c accepted)
    (hreach : Reaches turn c c') : Ends turn c' accepted := by
  induction hreach using ReflTransGen.head_induction_on with
  | refl => exact h
  | head hgoes _ ih =>
      obtain ⟨last, move, hreach, hlast⟩ := ends_iff.mp h
      rcases ReflTransGen.cases_head hreach with rfl | ⟨next, hgoes', hreach⟩
      · obtain ⟨_, hmove⟩ := hgoes
        rw [hmove] at hlast
        cases hlast
      · obtain rfl := hgoes.functional hgoes'
        exact ih (ends_iff.mpr ⟨last, move, hreach, hlast⟩)

/-- The answer of a run does not depend on the limit it is given. -/
theorem Ends.unique {c : Config σ} {accepted accepted' : Bool} (h : Ends turn c accepted)
    (h' : Ends turn c accepted') : accepted = accepted' := by
  obtain ⟨limit, trace, hrun, rfl⟩ := h
  obtain ⟨limit', trace', hrun', rfl⟩ := h'
  have hmore {limit more : Nat} {trace : Trace σ} (hrun : run turn limit c = .halted trace)
      (hle : limit ≤ more) : run turn more c = .halted trace := by
    rw [run_eq_of_le (by rw [hrun]; simp) hle, hrun]
  have hsame : Run.halted trace = .halted trace' :=
    (hmore hrun (le_max_left limit limit')).symm.trans (hmore hrun' (le_max_right limit limit'))
  rw [Run.halted.inj hsame]

/-- A machine that makes a move where another one does, and halts as that one does, halts whenever
that one does and gives the same answer. -/
theorem Ends.of_simulation {τ : Type} {turn' : Config τ → Turn τ}
    {R : Config σ → Config τ → Prop}
    (hgoes : ∀ c d c', R c c' → Goes turn c d → ∃ d', Goes turn' c' d' ∧ R d d')
    (hhalt : ∀ c c' move accepted, R c c' → turn c = .halt move accepted →
      ∃ move', turn' c' = .halt move' accepted)
    {c : Config σ} {c' : Config τ} {accepted : Bool} (hrelated : R c c')
    (h : Ends turn c accepted) : Ends turn' c' accepted := by
  obtain ⟨last, move, hreach, hlast⟩ := ends_iff.mp h
  clear h
  induction hreach using ReflTransGen.head_induction_on generalizing c' with
  | refl =>
      obtain ⟨move', hmove'⟩ := hhalt _ _ _ _ hrelated hlast
      exact ends_of_halt hmove'
  | head hgo _ ih =>
      obtain ⟨d', hgo', hrelated'⟩ := hgoes _ _ _ hrelated hgo
      exact .of_goes hgo' (ih hrelated')

/-- A set of configurations that the machine never leaves and in which it never stops. -/
theorem run_unfinished {P : Config σ → Prop} (hstep : ∀ c, P c → ∃ c', Goes turn c c' ∧ P c')
    {c : Config σ} (hc : P c) (limit : Nat) : run turn limit c = .unfinished := by
  induction limit generalizing c with
  | zero => rfl
  | succ limit ih =>
      obtain ⟨c', ⟨move, hmove⟩, hc'⟩ := hstep c hc
      rw [run, hmove]
      simp only [ih hc', Run.cons]

theorem run_unfinished_of_cycle {c c' : Config σ} (hreach : Reaches turn c c')
    (hcycle : Goes turn c' c') (limit : Nat) : run turn limit c = .unfinished := by
  refine run_unfinished (P := fun c => Reaches turn c c') ?_ hreach limit
  intro c hreach
  rcases ReflTransGen.cases_head hreach with rfl | ⟨next, hgoes, hrest⟩
  · exact ⟨c, hcycle, .refl⟩
  · exact ⟨next, hgoes, hrest⟩

/-- The same, if the machine may leave the set on its way but always comes back to it. -/
theorem run_unfinished_of_returns {P : Config σ → Prop}
    (hstep : ∀ c, P c → ∃ c' c'', Goes turn c c' ∧ Reaches turn c' c'' ∧ P c'')
    {c : Config σ} (hc : P c) (limit : Nat) : run turn limit c = .unfinished := by
  refine run_unfinished (P := fun c => ∃ c', Reaches turn c c' ∧ P c') ?_ ⟨c, .refl, hc⟩ limit
  rintro c ⟨c', hreach, hc'⟩
  rcases ReflTransGen.cases_head hreach with rfl | ⟨next, hgoes, hrest⟩
  · obtain ⟨next, last, hgoes, hrest, hlast⟩ := hstep c hc'
    exact ⟨next, hgoes, last, hrest, hlast⟩
  · exact ⟨next, hgoes, c', hrest, hc'⟩

theorem not_ends_of_unfinished {c : Config σ} (h : ∀ limit, run turn limit c = .unfinished)
    (accepted : Bool) : ¬ Ends turn c accepted := by
  rintro ⟨limit, trace, hrun, -⟩
  rw [h limit] at hrun
  cases hrun

def Reads (rest : List Token) (word : List Nat) : Prop := rest.map Token.terminal = word.map some

theorem Reads.current {stack : List σ} {rest : List Token} {word : List Nat}
    (h : Reads rest word) : (Config.mk stack rest).current = word.head? := by
  unfold Config.current
  cases rest with
  | nil =>
      have hword : word = [] := List.map_eq_nil_iff.mp h.symm
      simp [hword]
  | cons token rest =>
      cases word with
      | nil => simp [Reads] at h
      | cons t word =>
          simp only [Reads, List.map_cons, List.cons.injEq] at h
          simp [h.1]

theorem Reads.drop {rest : List Token} {first second : List Nat}
    (h : Reads rest (first ++ second)) : Reads (rest.drop first.length) second := by
  unfold Reads at h ⊢
  rw [List.map_drop, h, ← List.map_drop, List.drop_left]

theorem Reads.tail {rest : List Token} {t : Nat} {word : List Nat}
    (h : Reads rest (t :: word)) : Reads rest.tail word := by
  have hdrop : Reads (rest.drop [t].length) word := Reads.drop h
  simpa using hdrop

end Machine

namespace Grammar

variable {g : Grammar}

theorem isSome_name? {s : Nat} (h : s < g.size) : (g.name? s).isSome = true := by
  rw [name?, Array.getElem?_eq_getElem h]
  rfl

theorem isSome_names? {symbols : List Nat} (h : ∀ s ∈ symbols, s < g.size) :
    (g.names? symbols).isSome = true :=
  isSome_mapM fun s hs => isSome_name? (h s hs)

/-- A token stands for the terminal that goes by it, unless that is the end mark. -/
theorem WellFormed.terminal?_eq_some (hg : g.WellFormed) {text : String} {t : Nat} :
    g.terminal? text = some t ↔
      g.name? t = some text ∧ g.isTerminal t = true ∧ t ≠ endMark := by
  unfold terminal?
  rw [Option.filter_eq_some_iff]
  simp only [Bool.and_eq_true, bne_iff_ne]
  constructor
  · rintro ⟨hindex, hterm, hne⟩
    rcases hg.name_of_index hindex with hname | ⟨_, rfl⟩
    · exact ⟨hname, hterm, hne⟩
    · rw [hg.not_isTerminal_epsilon] at hterm
      cases hterm
  · rintro ⟨hname, hterm, hne⟩
    exact ⟨hg.index_of_name hname, hterm, hne⟩

theorem input_cons (token : String) (tokens : List String) :
    g.input (token :: tokens) = ⟨token, g.terminal? token⟩ :: g.input tokens := rfl

theorem WellFormed.spells_cons (hg : g.WellFormed) {token : String} {tokens : List String}
    {t : Nat} {word : List Nat} :
    g.Spells (token :: tokens) (t :: word) ↔
      g.terminal? token = some t ∧ g.Spells tokens word := by
  rw [Spells, List.forall₂_cons, hg.terminal?_eq_some]
  rfl

/-- The input of tokens that spell a word is this word with the end mark behind it. -/
theorem WellFormed.reads_input (hg : g.WellFormed) {tokens : List String} {word : List Nat}
    (h : g.Spells tokens word) : Machine.Reads (g.input tokens) (word ++ [endMark]) := by
  induction h with
  | nil => rfl
  | cons htoken _ ih =>
      simp only [Machine.Reads, input_cons, List.map_cons, List.cons_append]
      rw [hg.terminal?_eq_some.mpr htoken, ih]

/-- The terminal at hand is the end mark only when no token is left. -/
theorem WellFormed.current_eq_endMark (hg : g.WellFormed) {σ : Type} {stack : List σ}
    {tokens : List String} (h : (Machine.Config.mk stack (g.input tokens)).current = some endMark) :
    tokens = [] := by
  cases tokens with
  | nil => rfl
  | cons token tokens => exact absurd rfl (hg.terminal?_eq_some.mp h).2.2

/-- Any other terminal at hand is that of the first token. -/
theorem exists_token {σ : Type} {stack : List σ} {tokens : List String} {t : Nat}
    (h : (Machine.Config.mk stack (g.input tokens)).current = some t) (ht : t ≠ endMark) :
    ∃ token rest, tokens = token :: rest ∧ g.terminal? token = some t := by
  cases tokens with
  | nil =>
      cases h
      exact absurd rfl ht
  | cons token rest => exact ⟨token, rest, rfl, h⟩

end Grammar
end Lookahead
