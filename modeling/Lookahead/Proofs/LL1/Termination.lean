import Lookahead.Proofs.LL1.Membership
import Lookahead.Proofs.Sets.Begins

/-!
The predictive machine always halts. Between two tokens it can only produce, but what it predicts is
what makes the symbol on top begin with the terminal at hand, or vanish in front of it. So it goes
down the finite chain of steps by which the sets came to hold that fact, and either the terminal
comes on top of the stack or the stack loses its top.
-/

namespace Lookahead.LL1

open Machine Grammar Relation

variable {g : Grammar} {table : Table}

section Produce

variable (hg : g.WellFormed) (htable : IsTableOf table g) {t : Nat} (ht : g.isTerminal t = true)
  {rest : List Token} (hcurrent : rest.head?.bind Token.terminal = some t)

include hg htable ht hcurrent

theorem goes_of_body {left : Nat} {body : Body} (stack : List Nat) (hbody : body ∈ g.bodies left)
    (hpredicted : (g.firstSets.ofSequence body).Has (some t) ∨
      (g.firstSets.ofSequence body).Has none ∧ t ∈ g.followers left) :
    Goes (turn g table) ⟨left :: stack, rest⟩ ⟨body.visible ++ stack, rest⟩ := by
  obtain ⟨i, hi⟩ := List.mem_iff_getElem?.mp hbody
  exact goes_of_predicts hg htable hcurrent ht ⟨hi, hpredicted⟩

/-- Symbols that can vanish are worked off while a terminal that may follow them is at hand. -/
theorem reaches_of_vanishing {upper : List Nat} (h : g.Begins upper none) (lower : List Nat)
    (hfollow : ∀ s ∈ upper, g.isNonterminal s = true → t ∈ g.followers s) :
    Reaches (turn g table) ⟨upper ++ lower, rest⟩ ⟨lower, rest⟩ := by
  generalize ho : (none : Option Nat) = o at h
  induction h generalizing lower with
  | nil => exact .refl
  | terminal => cases ho
  | inside => cases ho
  | @behind left body upper _ hbody hinner _ ihinner ihrest =>
      have hnull := (hg.first_body_iff_begins hbody).mpr hinner
      have hleft := hfollow left (by simp) (hg.isNonterminal_of_mem_bodies hbody)
      have hproduce := goes_of_body hg htable ht hcurrent (upper ++ lower) hbody
        (.inr ⟨hnull, hleft⟩)
      have hfirst := ihinner (upper ++ lower)
        (fun s hs hnon => hg.mem_followers_of_vanishing hbody hnull hleft hs hnon) rfl
      have hsecond := ihrest lower (fun s hs => hfollow s (by simp [hs])) ho
      exact (hfirst.trans hsecond).head hproduce

/-- Symbols that can begin with the terminal at hand are worked off until it is on top. A symbol in
front of those that begin with it has to vanish, so the terminal must be known to follow it. -/
theorem reaches_of_beginning {upper : List Nat} (h : g.Begins upper (some t)) (lower : List Nat)
    (hfollow : ∀ u s v, upper = u ++ s :: v → g.isNonterminal s = true →
      (g.firstSets.ofSequence v).Has (some t) → t ∈ g.followers s) :
    ∃ lower', Reaches (turn g table) ⟨upper ++ lower, rest⟩ ⟨t :: lower', rest⟩ := by
  generalize ho : some t = o at h
  induction h generalizing lower with
  | nil => cases ho
  | @terminal t upper _ =>
      cases ho
      exact ⟨upper ++ lower, .refl⟩
  | @inside left t body upper hbody hinner ih =>
      cases ho
      have hproduce := goes_of_body hg htable ht hcurrent (upper ++ lower) hbody
        (.inl ((hg.first_body_iff_begins hbody).mpr hinner))
      obtain ⟨lower', hreach⟩ := ih (upper ++ lower)
        (fun u s v hsplit hnon hfirst => hg.mem_followers_of_body hbody hsplit hnon (.inl hfirst))
        rfl
      exact ⟨lower', hreach.head hproduce⟩
  | @behind left body upper _ hbody hinner hrest _ ihrest =>
      subst ho
      have hleft := hfollow [] left upper rfl (hg.isNonterminal_of_mem_bodies hbody)
        (hrest.first hg)
      have hvanish := reaches_of_vanishing hg htable ht hcurrent (.of_body hbody hinner)
        (upper ++ lower) (by simpa using fun _ => hleft)
      obtain ⟨lower', hreach⟩ := ihrest lower
        (fun u s v hsplit => hfollow (left :: u) s v (by simp [hsplit])) rfl
      exact ⟨lower', hvanish.trans hreach⟩

/-- A prediction for the symbol on top brings the terminal at hand on top, or takes the symbol off. -/
theorem reaches_of_predicts {left i : Nat} {body : Body} (h : Predicts g left t i body)
    (stack : List Nat) :
    (∃ lower, Reaches (turn g table) ⟨left :: stack, rest⟩ ⟨t :: lower, rest⟩) ∨
      Reaches (turn g table) ⟨left :: stack, rest⟩ ⟨stack, rest⟩ := by
  have hbody : body ∈ g.bodies left := List.mem_of_getElem? h.1
  have hbegins {o : Option Nat} (ho : (g.firstSets.ofSequence body).Has o) : g.Begins [left] o :=
    .of_body hbody ((hg.first_body_iff_begins hbody).mp ho)
  rcases h.2 with hfirst | ⟨hnull, hfollow⟩
  · left
    apply reaches_of_beginning hg htable ht hcurrent (hbegins hfirst) stack
    intro u s v hsplit _ hv
    have hlength := congrArg List.length hsplit
    simp only [List.length_append, List.length_cons, List.length_nil] at hlength
    obtain rfl : v = [] := List.length_eq_zero_iff.mp (by omega)
    exact absurd (FirstSet.has_nothing.mp hv) (by simp)
  · right
    apply reaches_of_vanishing hg htable ht hcurrent (hbegins hnull) stack
    simpa using fun _ => hfollow

end Produce

theorem halt_of_prediction?_eq_none {c : Config Nat} (hcurrent : c.current ≠ some (top c))
    (h : prediction? g table c = none) : turn g table c = .halt .reject false := by
  simp [turn, hcurrent, h]

/-- A terminal on top that is at hand ends the run or is matched. -/
theorem ends_of_top {t : Nat} {stack : List Nat} {rest : List Token}
    (hcurrent : rest.head?.bind Token.terminal = some t)
    (htail : t ≠ endMark → ∀ stack, ∃ accepted, Ends (turn g table) ⟨stack, rest.tail⟩ accepted) :
    ∃ accepted, Ends (turn g table) ⟨t :: stack, rest⟩ accepted := by
  by_cases hend : t = endMark
  · have hhalt : turn g table ⟨t :: stack, rest⟩ = .halt .accept true := by
      simp [turn, top, Config.current, hcurrent, hend]
    exact ⟨true, ends_of_halt hhalt⟩
  · obtain ⟨accepted, hends⟩ := htail hend stack
    exact ⟨accepted, hends.of_goes (goes_of_matched hcurrent hend)⟩

/-- While one terminal is at hand the machine comes to its end, or the terminal is read. -/
theorem ends_of_current (hg : g.WellFormed) (htable : IsTableOf table g) {t : Nat}
    (ht : g.isTerminal t = true) {rest : List Token}
    (hcurrent : rest.head?.bind Token.terminal = some t)
    (htail : t ≠ endMark → ∀ stack, ∃ accepted, Ends (turn g table) ⟨stack, rest.tail⟩ accepted)
    (stack : List Nat) : ∃ accepted, Ends (turn g table) ⟨stack, rest⟩ accepted := by
  induction stack with
  | nil =>
      by_cases hend : t = endMark
      · have hhalt : turn g table ⟨[], rest⟩ = .halt .accept true := by
          simp [turn, top, Config.current, hcurrent, hend]
        exact ⟨true, ends_of_halt hhalt⟩
      · have hhalt : turn g table ⟨[], rest⟩ = .halt .reject false := by
          apply halt_of_prediction?_eq_none
          · simp [top, Config.current, hcurrent, hend]
          · simp [prediction?, top, not_isNonterminal_of_isTerminal hg.isTerminal_endMark]
        exact ⟨false, ends_of_halt hhalt⟩
  | cons s stack ih =>
      by_cases hs : t = s
      · exact hs ▸ ends_of_top hcurrent htail
      cases hprediction : prediction? g table ⟨s :: stack, rest⟩ with
      | none =>
          have hhalt : turn g table ⟨s :: stack, rest⟩ = .halt .reject false := by
            apply halt_of_prediction?_eq_none _ hprediction
            simp [top, Config.current, hcurrent, hs]
          exact ⟨false, ends_of_halt hhalt⟩
      | some i =>
          obtain ⟨t', body, hcurrent', hpredicts⟩ := exists_predicts htable hprediction
          obtain rfl : t = t' := Option.some.inj (hcurrent.symm.trans hcurrent')
          rcases reaches_of_predicts hg htable ht hcurrent hpredicts stack with
            ⟨lower, hreach⟩ | hreach
          · obtain ⟨accepted, hends⟩ := ends_of_top hcurrent htail
            exact ⟨accepted, hends.of_reaches hreach⟩
          · obtain ⟨accepted, hends⟩ := ih
            exact ⟨accepted, hends.of_reaches hreach⟩

/-- From every stack and on any tokens the run comes to an end. -/
theorem ends_of_input (hg : g.WellFormed) (htable : IsTableOf table g) (tokens : List String)
    (stack : List Nat) : ∃ accepted, Ends (turn g table) ⟨stack, g.input tokens⟩ accepted := by
  induction tokens generalizing stack with
  | nil =>
      apply ends_of_current hg htable hg.isTerminal_endMark rfl
      intro hne
      exact absurd rfl hne
  | cons token tokens ih =>
      cases hterminal : g.terminal? token with
      | none =>
          have hcurrent : (Config.mk stack (g.input (token :: tokens))).current = none := hterminal
          have hnone : prediction? g table ⟨stack, g.input (token :: tokens)⟩ = none := by
            simp [prediction?, hcurrent]
          exact ⟨false, ends_of_halt (halt_of_prediction?_eq_none (by simp [hcurrent]) hnone)⟩
      | some t =>
          have hcurrent : (g.input (token :: tokens)).head?.bind Token.terminal = some t := hterminal
          have ht := (hg.terminal?_eq_some.mp hterminal).2.1
          exact ends_of_current hg htable ht hcurrent (fun _ => ih) stack

/-- The predictive machine halts on every list of tokens. -/
theorem halts_on_all_tokens (hg : g.Readable) {a : Analysis} (ha : g.analyze? = some a)
    (htable : a.ll1Table = some table) (tokens : List String) :
    ∃ limit trace, runFor limit g table tokens = .halted trace := by
  have hcells := isTableOf_of_analyze? hg.wellFormed ha htable
  obtain ⟨accepted, limit, trace, hrun, -⟩ :=
    ends_of_input hg.wellFormed hcells tokens (initial g tokens).stack
  exact ⟨limit, trace, hrun⟩

theorem halts_beside_recursion :
    ∃ g a table, Grammar.read .spaced
        "S -> B c S | u U | ϵ\nB -> b | ϵ\nU -> D U | V\nD -> ϵ\nV -> V c" = .ok g ∧
      g.analyze? = some a ∧ a.ll1Table = some table ∧
      ∃ limit trace, runFor limit g table ["b", "c", "u", "c"] = .halted trace := by
  have hread : ((Grammar.read .spaced
      "S -> B c S | u U | ϵ\nB -> b | ϵ\nU -> D U | V\nD -> ϵ\nV -> V c").toOption.bind fun g =>
        g.analyze?.bind fun a => a.ll1Table.map fun _ => true) = some true := by
    decide +kernel
  simp only [Option.bind_eq_some_iff, Option.map_eq_some_iff, toOption_eq_some] at hread
  obtain ⟨g, hg, a, ha, table, htable, -⟩ := hread
  exact ⟨g, a, table, hg, ha, htable, halts_on_all_tokens (.read hg) ha htable _⟩

end Lookahead.LL1
