import Lookahead.Proofs.Grammar.Corner
import Lookahead.Proofs.Grammar.Readable
import Lookahead.Proofs.Grammar.Sentential
import Lookahead.Proofs.Sets.Follows
import Lookahead.Proofs.Sets.Sweeps

/-!
What the sets mean in terms of derivations. The FIRST set of a string holds the terminals that come
first in the strings derived from it, and says whether it derives the empty string. The FOLLOW set of a
nonterminal holds the terminals that come right after it in strings derived from any nonterminal, and
the end mark if it comes last in a string derived from the start symbol.
-/

namespace Lookahead.Grammar

open Relation

variable {g : Grammar}

/-! FIRST sets. -/

theorem derives_cons_of_mem {left : Nat} {body : Body} (hbody : body ∈ g.bodies left)
    {v : List Nat} (h : g.Derives body.visible v) (rest : List Nat) :
    g.Derives (left :: rest) (v ++ rest) :=
  .head (produces_of_mem hbody [] rest) (h.append_right rest)

/-- A string that can begin with a terminal derives a string that does, and one that can vanish
derives the empty string. -/
theorem Begins.exists_derives {symbols : List Nat} {o : Option Nat} (h : g.Begins symbols o) :
    ∃ rest, g.Derives symbols (o.toList ++ rest) ∧ (o = none → rest = []) := by
  induction h with
  | nil => exact ⟨[], .refl, fun _ => rfl⟩
  | @terminal t rest _ => exact ⟨rest, .refl, by simp⟩
  | @inside left t body rest hbody _ ih =>
      obtain ⟨inner, hinner, -⟩ := ih
      exact ⟨inner ++ rest, by simpa using derives_cons_of_mem hbody hinner rest, by simp⟩
  | @behind left body rest o hbody _ _ ihinner ihrest =>
      obtain ⟨inner, hinner, hnone⟩ := ihinner
      obtain rfl := hnone rfl
      obtain ⟨after, hafter, hempty⟩ := ihrest
      exact ⟨after, (derives_cons_of_mem hbody hinner rest).trans hafter, hempty⟩

theorem Begins.derives_nil {symbols : List Nat} (h : g.Begins symbols none) :
    g.Derives symbols [] := by
  obtain ⟨rest, hder, hrest⟩ := h.exists_derives
  rw [hrest rfl] at hder
  exact hder

namespace WellFormed

variable (hg : g.WellFormed) {symbols : List Nat}

include hg

/-- A terminal is in the FIRST set of a string exactly when it comes first in something derived. -/
theorem first_some_iff (hsymbols : ∀ s ∈ symbols, s < g.size ∧ s ≠ epsilon) {t : Nat} :
    (g.firstSets.ofSequence symbols).Has (some t) ↔
      g.isTerminal t = true ∧ ∃ rest, g.Derives symbols (t :: rest) := by
  constructor
  · intro ht
    obtain ⟨rest, hder, -⟩ := ((hg.first_iff_begins hsymbols).mp ht).exists_derives
    exact ⟨hg.isTerminal_of_first (fun s hs => (hsymbols s hs).1) ht, rest, hder⟩
  · rintro ⟨ht, rest, hder⟩
    exact hder.first hg (hg.first_cons_terminal ht)

theorem first_none_iff (hsymbols : ∀ s ∈ symbols, s < g.size ∧ s ≠ epsilon) :
    (g.firstSets.ofSequence symbols).Has none ↔ g.Derives symbols [] := by
  constructor
  · intro hnull
    exact ((hg.first_iff_begins hsymbols).mp hnull).derives_nil
  · intro hder
    exact hder.first hg (FirstSet.has_nothing.mpr rfl)

end WellFormed

/-- The loop that finds the FIRST sets ends. The set of a string of symbols, in which the number of the
empty string stands for nothing, then holds the terminals that the strings derived from it begin with,
and is nullable exactly if the string derives the empty string. -/
theorem first_sets_exact (hg : g.Readable) :
    SweepsTo g.sweepFirstBySize g.initialFirst g.firstSets.table g.firstSets.sweeps ∧
    (∀ symbols : List Nat, (∀ s ∈ symbols, s < g.size) →
      (∀ t, t ∈ (g.firstSets.ofSequence symbols).terminals ↔
        g.isTerminal t = true ∧ ∃ rest, g.Derives (Body.visible symbols) (t :: rest)) ∧
      ((g.firstSets.ofSequence symbols).nullable = true ↔ g.Derives (Body.visible symbols) [])) ∧
    ∀ s, g.firstSets.ofSymbol s = g.firstSets.ofSequence [s] := by
  have hwf := hg.wellFormed
  refine ⟨sweepsTo_firstSets hwf, fun symbols hsymbols => ?_, fun s => ?_⟩
  · have hvisible : ∀ s ∈ Body.visible symbols, s < g.size ∧ s ≠ epsilon := by
      intro s hs
      obtain ⟨hmem, hne⟩ := Body.mem_visible.mp hs
      exact ⟨hsymbols s hmem, hne⟩
    constructor
    · intro t
      exact (hwf.first_visible (o := some t)).symm.trans (hwf.first_some_iff hvisible)
    · exact (hwf.first_visible (o := none)).symm.trans (hwf.first_none_iff hvisible)
  · exact FirstSet.ext_has fun o => first_singleton.symm

theorem begins_behind_vanishing :
    ∃ g, Grammar.read .spaced "S -> A x | y\nA -> S z | B\nB -> A | ϵ" = .ok g ∧
      SweepsTo g.sweepFirstBySize g.initialFirst g.firstSets.table 4 ∧
      (∃ rest, g.Derives [4, 3] (6 :: rest)) ∧ g.Derives [4, 3] [] ∧ ¬ g.Derives [2] [] := by
  have hread : ((Grammar.read .spaced "S -> A x | y\nA -> S z | B\nB -> A | ϵ").toOption.map fun g =>
      decide (g.size = 8 ∧ g.firstSets.sweeps = 4 ∧
        6 ∈ (g.firstSets.ofSequence [4, epsilon, 3]).terminals ∧
        (g.firstSets.ofSequence [4, epsilon, 3]).nullable = true ∧
        (g.firstSets.ofSequence [2]).nullable = false)) = some true := by
    decide +kernel
  simp only [Option.map_eq_some_iff, toOption_eq_some, decide_eq_true_eq] at hread
  obtain ⟨g, hg, hsize, hsweeps, hfirst, hnull, hnot⟩ := hread
  obtain ⟨hloop, hexact, -⟩ := first_sets_exact (.read hg)
  obtain ⟨hterminals, hnullable⟩ := hexact [4, epsilon, 3] (by simp [hsize, epsilon])
  obtain ⟨-, hstart⟩ := hexact [2] (by simp [hsize])
  refine ⟨g, hg, hsweeps ▸ hloop, ((hterminals 6).mp hfirst).2, hnullable.mp hnull, fun hder => ?_⟩
  rw [hstart.mpr hder] at hnot
  cases hnot

/-! FOLLOW sets. -/

/-- The left side of an alternative can be replaced by the beginning of the alternative, if the rest of
it can vanish. -/
theorem derives_of_vanishing {left s : Nat} {body : Body} {u v : List Nat}
    (hbody : body ∈ g.bodies left) (hsplit : body.visible = u ++ s :: v) (hv : g.Begins v none)
    (front rest : List Nat) :
    g.Derives (front ++ left :: rest) (front ++ u ++ s :: rest) := by
  have hstep : g.Produces (front ++ left :: rest) (front ++ u ++ [s] ++ v ++ rest) := by
    simpa [hsplit] using produces_of_mem hbody front rest
  have hvanish : g.Derives (front ++ u ++ [s] ++ v ++ rest) (front ++ u ++ s :: rest) := by
    simpa using hv.derives_nil.context (front ++ u ++ [s]) rest
  exact .head hstep hvanish

def ComesLast (g : Grammar) (s : Nat) : Prop := ∃ front, g.Derives [g.start] (front ++ [s])

def ComesAfter (g : Grammar) (s t : Nat) : Prop :=
  ∃ left front rest, g.isNonterminal left = true ∧
    g.DerivesPlus [left] (front ++ s :: t :: rest)

/-- What follows a symbol does so in some derivation. The end mark is passed down from the start
symbol, and any other terminal from the rule in which it comes after the symbol or after one that ends
in it. -/
theorem Follows.comes (hg : g.WellFormed) {s t : Nat} (h : g.Follows s t) :
    t = endMark ∧ g.ComesLast s ∨ t ≠ endMark ∧ g.ComesAfter s t := by
  induction h with
  | start => exact .inl ⟨rfl, [], .refl⟩
  | @within left s t body u v hbody hsplit _ hbegins =>
      obtain ⟨rest, hder, -⟩ := hbegins.exists_derives
      have hv : endMark ∉ v := by
        have hvisible := hg.endMark_not_mem_visible hbody
        rw [hsplit, List.mem_append, List.mem_cons, not_or, not_or] at hvisible
        exact hvisible.2.2
      have ht : t ≠ endMark := by
        rintro rfl
        exact hg.endMark_not_mem_of_derives hder hv (by simp)
      have hstep : g.Produces [left] (u ++ s :: v) := by
        simpa [hsplit] using produces_of_mem hbody [] []
      have hafter : g.Derives (u ++ s :: v) (u ++ s :: t :: rest) := by
        simpa using hder.append_left (u ++ [s])
      exact .inr ⟨ht, left, u, rest, hg.isNonterminal_of_mem_bodies hbody,
        TransGen.head' hstep hafter⟩
  | @behind left s t body u v hbody hsplit _ hvanishes _ ih =>
      rcases ih with ⟨rfl, front, hder⟩ | ⟨ht, above, front, rest, habove, hder⟩
      · exact .inl ⟨rfl, front ++ u, hder.trans (derives_of_vanishing hbody hsplit hvanishes front [])⟩
      · refine .inr ⟨ht, above, front ++ u, rest, habove, ?_⟩
        exact hder.trans_left (derives_of_vanishing hbody hsplit hvanishes front (t :: rest))

namespace WellFormed

variable (hg : g.WellFormed) {s : Nat} (hs : g.isNonterminal s = true)

include hg hs

theorem endMark_mem_followers (h : g.ComesLast s) : endMark ∈ g.followers s := by
  obtain ⟨front, hder⟩ := h
  have hend : g.Derives [g.start, endMark] (front ++ s :: [endMark]) := by
    simpa using hder.append_right [endMark]
  exact hg.mem_followers_of_derives hend rfl hs (hg.first_cons_terminal hg.isTerminal_endMark)

theorem mem_followers_of_comesAfter {t : Nat} (ht : g.isTerminal t = true)
    (h : g.ComesAfter s t) : t ∈ g.followers s := by
  obtain ⟨left, front, rest, -, hder⟩ := h
  obtain ⟨symbols, hstep, hder⟩ := TransGen.head'_iff.mp hder
  obtain ⟨body, hbody, rfl⟩ := exists_body_of_produces hstep
  have hfollowed := hg.followed_of_derives (hg.followed_of_body hbody) hder
  exact hfollowed rfl hs (hg.first_cons_terminal ht)

/-- The end mark follows exactly the symbols that can come last. -/
theorem endMark_mem_followers_iff : endMark ∈ g.followers s ↔ g.ComesLast s := by
  constructor
  · intro hmem
    rcases (hg.mem_followers_iff.mp hmem).comes hg with ⟨-, hlast⟩ | ⟨hne, -⟩
    · exact hlast
    · exact absurd rfl hne
  · exact hg.endMark_mem_followers hs

/-- Any other terminal follows a symbol exactly where it can come after it, also out of reach of the
start symbol. -/
theorem mem_followers_iff_comesAfter {t : Nat} (ht : g.isTerminal t = true) (hne : t ≠ endMark) :
    t ∈ g.followers s ↔ g.ComesAfter s t := by
  constructor
  · intro hmem
    rcases (hg.mem_followers_iff.mp hmem).comes hg with ⟨hend, -⟩ | ⟨-, hafter⟩
    · exact absurd hend hne
    · exact hafter
  · exact hg.mem_followers_of_comesAfter hs ht

end WellFormed

/-- The loop that finds the FOLLOW sets ends. The set of a nonterminal then holds the end mark exactly
if the nonterminal can come last, any other terminal exactly if it can come right after the
nonterminal, and nothing else. -/
theorem follow_sets_exact (hg : g.Readable) :
    SweepsTo (g.sweepFollowBySize g.firstSets) g.initialFollow (g.followSets g.firstSets).table
      (g.followSets g.firstSets).sweeps ∧
    ∀ s, g.isNonterminal s = true →
      (endMark ∈ (g.followSets g.firstSets).ofSymbol s ↔
        ∃ front, g.Derives [g.start] (front ++ [s])) ∧
      (∀ t, g.isTerminal t = true → t ≠ endMark →
        (t ∈ (g.followSets g.firstSets).ofSymbol s ↔
          ∃ left front rest, g.isNonterminal left = true ∧
            g.DerivesPlus [left] (front ++ s :: t :: rest))) ∧
      ∀ t, t ∈ (g.followSets g.firstSets).ofSymbol s → g.isTerminal t = true := by
  have hwf := hg.wellFormed
  refine ⟨sweepsTo_followSets hwf, fun s hs => ⟨?_, ?_, ?_⟩⟩
  · exact hwf.endMark_mem_followers_iff hs
  · intro t ht hne
    exact hwf.mem_followers_iff_comesAfter hs ht hne
  · intro t ht
    exact hwf.isTerminal_of_mem_followers ht

/-! `A` comes last behind symbols that vanish, and `n` comes after it in strings of `N` only, which the
start symbol does not reach. -/

theorem follows_outside_reach :
    ∃ g, Grammar.read .spaced "S -> a A B | ( S\nA -> b A | ϵ\nB -> A C\nC -> c | ϵ\nN -> S n" =
        .ok g ∧
      SweepsTo (g.sweepFollowBySize g.firstSets) g.initialFollow (g.followSets g.firstSets).table 3 ∧
      (∃ front, g.Derives [g.start] (front ++ [3])) ∧
      (∃ left front rest, g.isNonterminal left = true ∧
        g.DerivesPlus [left] (front ++ 3 :: 11 :: rest)) ∧
      ¬ ∃ front, g.Derives [g.start] (front ++ [6]) := by
  have hread : ((Grammar.read .spaced
      "S -> a A B | ( S\nA -> b A | ϵ\nB -> A C\nC -> c | ϵ\nN -> S n").toOption.map fun g =>
      decide (g.isNonterminal 3 = true ∧ g.isNonterminal 6 = true ∧ g.isTerminal 11 = true ∧
        (g.followSets g.firstSets).sweeps = 3 ∧
        endMark ∈ (g.followSets g.firstSets).ofSymbol 3 ∧
        11 ∈ (g.followSets g.firstSets).ofSymbol 3 ∧
        endMark ∉ (g.followSets g.firstSets).ofSymbol 6)) = some true := by
    decide +kernel
  simp only [Option.map_eq_some_iff, toOption_eq_some, decide_eq_true_eq] at hread
  obtain ⟨g, hg, hthree, hsix, hterm, hsweeps, hend, hmem, hnot⟩ := hread
  obtain ⟨hloop, hexact⟩ := follow_sets_exact (.read hg)
  obtain ⟨hlast, hafter, -⟩ := hexact 3 hthree
  refine ⟨g, hg, hsweeps ▸ hloop, hlast.mp hend, (hafter 11 hterm (by decide)).mp hmem, ?_⟩
  intro hcomes
  exact hnot ((hexact 6 hsix).1.mpr hcomes)

end Lookahead.Grammar
