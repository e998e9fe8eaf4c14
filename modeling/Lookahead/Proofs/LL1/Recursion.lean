import Lookahead.Proofs.Analysis
import Lookahead.Proofs.Grammar.Corner
import Lookahead.Proofs.LL1.Termination

/-!
Left recursion always makes a conflict. Without one there is a table, and the machine that goes by it
halts on every input. But a terminal that a left-recursive nonterminal can begin with, or one that can
follow it if it begins with none, predicts the way round the recursion: what stands before the next
corner vanishes in front of the terminal, and the machine comes to the corner with the terminal still
at hand, and so on without end.
-/

namespace Lookahead

namespace Grammar

open Relation

variable {g : Grammar}

theorem Corner.isNonterminal (hg : g.WellFormed) {left first : Nat} (h : g.Corner left first) :
    g.isNonterminal left = true := by
  obtain ⟨body, hbody, -⟩ := h
  exact hg.isNonterminal_of_mem_bodies hbody

/-- A nonterminal begins with all that its corners begin with. -/
theorem Corner.first (hg : g.WellFormed) {left first t : Nat} (h : g.Corner left first)
    (ht : (g.firstSets.ofSymbol first).Has (some t)) :
    (g.firstSets.ofSymbol left).Has (some t) := by
  obtain ⟨body, hbody, front, rest, hvisible, hnull⟩ := h
  apply hg.first_left_of_first_body hbody
  rw [hvisible, first_append]
  exact .inr ⟨hnull.first hg, first_cons.mpr (.inl ⟨ht, by simp⟩)⟩

/-- A symbol can begin with whatever its corners can begin with. -/
theorem first_of_corners (hg : g.WellFormed) {left first t : Nat}
    (h : ReflTransGen g.Corner left first) (ht : (g.firstSets.ofSymbol first).Has (some t)) :
    (g.firstSets.ofSymbol left).Has (some t) := by
  induction h using ReflTransGen.head_induction_on with
  | refl => exact ht
  | head hcorner _ ih => exact hcorner.first hg ih

/-- Some input begins with the terminal. -/
theorem WellFormed.exists_input (hg : g.WellFormed) {t : Nat} (ht : g.isTerminal t = true) :
    ∃ tokens, (g.input tokens).head?.bind Token.terminal = some t := by
  by_cases hend : t = endMark
  · exact ⟨[], hend ▸ rfl⟩
  · obtain ⟨text, htext⟩ := isTerminal_iff.mp ht
    have hname : g.name? t = some text := by simp [name?, htext, Symbol.name]
    exact ⟨[text], hg.terminal?_eq_some.mpr ⟨hname, ht, hend⟩⟩

/-- Where nothing is useless, every nonterminal is followed by something. -/
theorem Reduced.exists_follower (h : g.Reduced) (hg : g.WellFormed)
    (hstart : g.isNonterminal g.start = true) {s : Nat} (hs : g.isNonterminal s = true) :
    ∃ t, t ∈ g.followers s := by
  obtain ⟨front, rest, hder⟩ := (h s hs).1
  have hrest : ∀ r ∈ rest, endMark < r ∧ r < g.size := fun r hr =>
    hg.mem_of_derives hstart hder r (by simp [hr])
  obtain ⟨word, hword⟩ := exists_yields_of_lt h.productive hrest
  have hend : g.Yields [endMark] [endMark] := .terminal hg.isTerminal_endMark .nil
  obtain ⟨t, ht⟩ : ∃ t, (word ++ [endMark]).head? = some t :=
    ⟨_, List.head?_eq_some_head (by simp)⟩
  have hder' : g.Derives [g.start, endMark] (front ++ s :: (rest ++ [endMark])) := by
    simpa using hder.append_right [endMark]
  exact ⟨t, hg.mem_followers_of_derives hder' rfl hs (ht ▸ (hword.append hend).first hg)⟩

end Grammar

namespace LL1

open Grammar Machine Relation

variable {g : Grammar}

/-- The symbol is left recursive, and the terminal predicts the way round: the symbol begins with it,
or begins with no terminal and can be followed by this one. -/
structure Recurs (g : Grammar) (t s : Nat) : Prop where
  cycle : TransGen g.Corner s s
  predicted : (g.firstSets.ofSymbol s).Has (some t) ∨
    (∀ t', ¬ (g.firstSets.ofSymbol s).Has (some t')) ∧ t ∈ g.followers s

/-- The alternative that goes on to the next corner is predicted, and what stands before the corner
can vanish in front of the terminal. -/
structure WayRound (g : Grammar) (t s : Nat) (body : Body) (front : List Nat) (next : Nat)
    (rest : List Nat) : Prop where
  member : body ∈ g.bodies s
  split : body.visible = front ++ next :: rest
  vanishing : g.Begins front none
  predicted : (g.firstSets.ofSequence body).Has (some t) ∨
    (g.firstSets.ofSequence body).Has none ∧ t ∈ g.followers s
  followed : ∀ x ∈ front, g.isNonterminal x = true → t ∈ g.followers x
  recurs : Recurs g t next

section Recurs

variable (hg : g.WellFormed) {t s : Nat}

include hg

theorem Recurs.isNonterminal (h : Recurs g t s) : g.isNonterminal s = true := by
  obtain ⟨next, hcorner, -⟩ := TransGen.head'_iff.mp h.cycle
  exact hcorner.isNonterminal hg

theorem Recurs.isTerminal (h : Recurs g t s) : g.isTerminal t = true := by
  rcases h.predicted with ht | ⟨-, ht⟩
  · exact (grounded_firstSets hg).isTerminal_of_has
      (lt_size_of_isNonterminal (h.isNonterminal hg)) ht
  · exact hg.isTerminal_of_mem_followers ht

/-- A recursive symbol has a predicted alternative that goes on to the next corner. -/
theorem Recurs.exists_wayRound (hproductive : ∀ s, g.isNonterminal s = true → g.Productive s)
    (h : Recurs g t s) : ∃ body front next rest, WayRound g t s body front next rest := by
  obtain ⟨next, hcorner, hback⟩ := TransGen.head'_iff.mp h.cycle
  have hcycle : TransGen g.Corner next next := TransGen.tail' hback hcorner
  obtain ⟨body, hbody, front, rest, hsplit, hnull⟩ := id hcorner
  have hfront : ∀ x ∈ front, x < g.size ∧ x ≠ epsilon := by
    intro x hx
    obtain ⟨hend, hlt⟩ := (hg.fits hbody).visible x (by simp [hsplit, hx])
    exact ⟨hlt, ne_epsilon_of_lt hend⟩
  have hvanishing : g.Begins front none := (hg.first_iff_begins hfront).mp (hnull.first hg)
  rcases h.predicted with ht | ⟨hnone, ht⟩
  · -- the terminal goes round the cycle
    have hnext : (g.firstSets.ofSymbol next).Has (some t) := first_of_corners hg hback ht
    have hrest : (g.firstSets.ofSequence (next :: rest)).Has (some t) :=
      first_cons.mpr (.inl ⟨hnext, by simp⟩)
    refine ⟨body, front, next, rest, hbody, hsplit, hvanishing, .inl ?_, ?_, hcycle, .inl hnext⟩
    · rw [← hg.first_visible, hsplit, first_append]
      exact .inr ⟨hnull.first hg, hrest⟩
    · intro x hx hnon
      obtain ⟨u, v, rfl⟩ := List.append_of_mem hx
      have hv := hnull.first hg
      rw [List.head?_nil, first_append_none, first_cons_none] at hv
      apply hg.mem_followers_of_body hbody (u := u) (v := v ++ next :: rest) (by simp [hsplit]) hnon
      exact .inl (first_append.mpr (.inr ⟨hv.2.2, hrest⟩))
  · -- no terminal comes first anywhere, so that everything on the way vanishes
    obtain ⟨word, hword⟩ := exists_yields_of_lt hproductive (hg.fits hbody).visible
    have hempty : (g.firstSets.ofSequence body.visible).Has none := by
      have hfirst := hword.first hg
      cases word with
      | nil => exact hfirst
      | cons t' word => exact absurd (hg.first_left_of_first_body hbody hfirst) (hnone t')
    have hbodynull := hg.first_visible.mp hempty
    have hfollow {x : Nat} (hx : x ∈ body.visible) (hnon : g.isNonterminal x = true) :
        t ∈ g.followers x :=
      hg.mem_followers_of_vanishing hbody hbodynull ht hx hnon
    obtain ⟨_, hcorner', -⟩ := TransGen.head'_iff.mp hcycle
    refine ⟨body, front, next, rest, hbody, hsplit, hvanishing, .inr ⟨hbodynull, ht⟩, ?_,
      hcycle, .inr ⟨?_, ?_⟩⟩
    · intro x hx
      exact hfollow (by simp [hsplit, hx])
    · intro t' ht'
      exact hnone t' (hcorner.first hg ht')
    · exact hfollow (by simp [hsplit]) (hcorner'.isNonterminal hg)

/-- The machine comes from a recurring symbol back to one, with the same terminal at hand. -/
theorem Recurs.returns (hproductive : ∀ s, g.isNonterminal s = true → g.Productive s)
    {table : Table} (htable : IsTableOf table g) (h : Recurs g t s) {rest : List Token}
    (hcurrent : rest.head?.bind Token.terminal = some t) (stack : List Nat) :
    ∃ c' s' stack', Goes (turn g table) ⟨s :: stack, rest⟩ c' ∧
      Reaches (turn g table) c' ⟨s' :: stack', rest⟩ ∧ Recurs g t s' := by
  obtain ⟨body, front, next, behind, hround⟩ := h.exists_wayRound hg hproductive
  have ht := h.isTerminal hg
  have hgoes := goes_of_body hg htable ht hcurrent stack hround.member hround.predicted
  rw [hround.split, List.append_assoc] at hgoes
  have hreach := reaches_of_vanishing hg htable ht hcurrent hround.vanishing
    (next :: behind ++ stack) hround.followed
  exact ⟨_, next, behind ++ stack, hgoes, hreach, hround.recurs⟩

theorem Recurs.not_isTableOf (hproductive : ∀ s, g.isNonterminal s = true → g.Productive s)
    (h : Recurs g t s) (table : Table) : ¬ IsTableOf table g := by
  intro htable
  obtain ⟨tokens, hcurrent⟩ := hg.exists_input (h.isTerminal hg)
  have hreturns : ∀ c, (∃ s stack, c = ⟨s :: stack, g.input tokens⟩ ∧ Recurs g t s) →
      ∃ c' c'', Goes (turn g table) c c' ∧ Reaches (turn g table) c' c'' ∧
        ∃ s stack, c'' = ⟨s :: stack, g.input tokens⟩ ∧ Recurs g t s := by
    rintro _ ⟨s, stack, rfl, hs⟩
    obtain ⟨c', s', stack', hgoes, hreach, hs'⟩ :=
      hs.returns hg hproductive htable hcurrent stack
    exact ⟨c', _, hgoes, hreach, s', stack', rfl, hs'⟩
  have hrun := run_unfinished_of_returns hreturns ⟨s, [], rfl, h⟩
  obtain ⟨accepted, hends⟩ := ends_of_input hg htable tokens [s]
  exact not_ends_of_unfinished hrun accepted hends

end Recurs

/-- In a reduced grammar some terminal predicts the way round: one that the symbol begins with or, if it
begins with none, one that follows it. -/
theorem exists_recurs (hg : g.WellFormed) (hstart : g.isNonterminal g.start = true)
    (hreduced : g.Reduced) {s : Nat} (h : g.LeftRecursive s) : ∃ t, Recurs g t s := by
  have hcycle := leftRecursive_iff.mp h
  obtain ⟨_, hcorner, -⟩ := TransGen.head'_iff.mp hcycle
  by_cases hfirst : ∃ t, (g.firstSets.ofSymbol s).Has (some t)
  · obtain ⟨t, ht⟩ := hfirst
    exact ⟨t, hcycle, .inl ht⟩
  · obtain ⟨t, ht⟩ := hreduced.exists_follower hg hstart (hcorner.isNonterminal hg)
    exact ⟨t, hcycle, .inr ⟨fun t' ht' => hfirst ⟨t', ht'⟩, ht⟩⟩

/-- A left-recursive nonterminal of a grammar without useless nonterminals makes a conflict, and the
grammar has no table. -/
theorem left_recursion_conflicts (hg : g.Readable) (hreduced : g.Reduced) {s : Nat}
    (h : g.LeftRecursive s) :
    conflicts g g.firstSets (g.followSets g.firstSets) ≠ [] ∧
      ∃ a, g.analyze? = some a ∧ a.ll1Conflicts ≠ [] ∧ a.ll1Table = none := by
  have hwf := hg.wellFormed
  obtain ⟨t, ht⟩ := exists_recurs hwf hg.isNonterminal_start hreduced h
  have hconflicts : conflicts g g.firstSets (g.followSets g.firstSets) ≠ [] := by
    intro hnil
    obtain ⟨table, htable⟩ :=
      (exists_table_iff hwf).mpr (predictsOne_of_conflicts_eq_nil hwf hnil)
    exact ht.not_isTableOf hwf hreduced.productive table (isTableOf_buildTable hwf htable)
  obtain ⟨a, ha⟩ := exists_analyze? hg
  rw [← ll1Conflicts_of_analyze? ha] at hconflicts ⊢
  refine ⟨hconflicts, a, ha, hconflicts, ?_⟩
  rw [Option.eq_none_iff_forall_ne_some]
  intro table htable
  exact hconflicts (ll1Conflicts_eq_nil ha htable)

/-! The recursion of `A` is behind `B`, and neither of them begins with a terminal. -/

theorem recursion_behind_vanishing_conflicts :
    ∃ g a, Grammar.read .spaced "S -> A c\nA -> B A | ϵ\nB -> ϵ" = .ok g ∧ g.Reduced ∧
      g.LeftRecursive 3 ∧ g.analyze? = some a ∧ a.ll1Conflicts ≠ [] ∧ a.ll1Table = none := by
  have hread : ((Grammar.read .spaced "S -> A c\nA -> B A | ϵ\nB -> ϵ").toOption.map fun g =>
      decide ((List.range g.size).filter g.isNonterminal = [2, 3, 4] ∧ g.start = 2 ∧
        [3, 5] ∈ g.bodies 2 ∧ [4, 3] ∈ g.bodies 3 ∧ [epsilon] ∈ g.bodies 3 ∧
        [epsilon] ∈ g.bodies 4 ∧ g.isTerminal 5 = true)) = some true := by
    decide +kernel
  simp only [Option.map_eq_some_iff, toOption_eq_some, decide_eq_true_eq] at hread
  obtain ⟨g, hg, hnonterminals, hstart, hs, ha, ha', hb, hc⟩ := hread
  have hvanishA : g.Yields [3] [] := .nonterminal ha' .nil .nil
  have hvanishB : g.Yields [4] [] := .nonterminal hb .nil .nil
  have hreduced : g.Reduced := by
    have hfirst : g.Produces [2] [3, 5] := produces_of_mem hs [] []
    have hsecond : g.Produces [3, 5] [4, 3, 5] := produces_of_mem ha [] [5]
    intro s hnon
    have hmem := mem_of_isNonterminal hnonterminals hnon
    simp only [List.mem_cons, List.not_mem_nil, or_false] at hmem
    rcases hmem with rfl | rfl | rfl
    · exact ⟨⟨[], [], hstart ▸ .refl⟩, [5],
        .nonterminal hs (hvanishA.append (.terminal hc .nil)) .nil⟩
    · exact ⟨⟨[], [5], hstart ▸ .single hfirst⟩, [], hvanishA⟩
    · exact ⟨⟨[], [3, 5], hstart ▸ (Relation.ReflTransGen.single hfirst).tail hsecond⟩, [],
        hvanishB⟩
  have hrecursive : g.LeftRecursive 3 :=
    leftRecursive_iff.mpr (.single ⟨_, ha, [4], [], rfl, hvanishB⟩)
  obtain ⟨-, a, hanalyze, hconflicts, htable⟩ :=
    left_recursion_conflicts (.read hg) hreduced hrecursive
  exact ⟨g, a, hg, hreduced, hrecursive, hanalyze, hconflicts, htable⟩

end LL1
end Lookahead
