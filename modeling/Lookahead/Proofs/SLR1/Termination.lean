import Lookahead.Proofs.Grammar.Sentential
import Lookahead.Proofs.SLR1.Loop
import Lookahead.Proofs.SLR1.Membership

/-!
When the shift-reduce machine halts. It halts on every list of tokens exactly if its automaton has no
loop of reductions. There is none if every nonterminal that can be reached derives a word: then every
string on the stack can be completed to a sentence, on which the machine would do the same reductions
and yet accept. A grammar with a nonterminal that derives no word can have a loop although it has no
conflicts.
-/

namespace Lookahead.SLR1

open Machine Grammar LR0 Relation

variable {g : Grammar} {table : Table}

section IsFor

variable {a : Automaton} (ha : a.IsFor g)
  (htable : buildTable a (g.followSets g.firstSets) = .ok table)

include ha

theorem yields_of_reduces {follow : FollowSets} {t : Nat} {string string' : List Nat}
    (h : Reduces a follow t string string') :
    (∃ word, g.Yields string word) → ∃ word, g.Yields string' word := by
  rintro ⟨word, hyields⟩
  exact ⟨word, .of_produces (produces_of_reduces ha h) hyields⟩

theorem lands_of_shifts {t : Nat} {string : List Nat} (hyields : ∃ word, g.Yields string word)
    (h : Shifts a t string) : Lands g a (string ++ [t]) := by
  obtain ⟨i, hi, hnext, hterm⟩ := h
  rw [ha.isTerminal_eq] at hterm
  obtain ⟨word, hyields⟩ := hyields
  exact ⟨⟨_, hi.move hnext⟩, ⟨_, hyields.append (.terminal hterm .nil)⟩,
    .inr ⟨string, t, rfl, hterm⟩⟩

include htable

/-! A machine that does not halt is in a loop. -/

/-- If the reductions come to an end, the machine halts or reads the next token. -/
theorem ends_or_reads {t : Nat} {string : List Nat} {tokens : List String}
    (hacc : Acc (flip (Reduces a (g.followSets g.firstSets) t)) string)
    (hyields : ∃ word, g.Yields string word) {stack : List Entry}
    (htraces : Traces a stack string)
    (hcurrent : (Config.mk stack (g.input tokens)).current = some t) :
    (∃ accepted, Ends (turn g table) ⟨stack, g.input tokens⟩ accepted) ∨
      ∃ token rest stack' string', tokens = token :: rest ∧
        Reaches (turn g table) ⟨stack, g.input tokens⟩ ⟨stack', g.input rest⟩ ∧
        Traces a stack' string' ∧ Lands g a string' := by
  induction hacc generalizing stack with
  | intro string _ ih =>
      rcases turn_cases ha htable htraces (g.input tokens) with hturn | ⟨hturn, -⟩ |
        ⟨t', j, hturn, hcurrent', hshifts, htraces'⟩ |
        ⟨t', move, stack', string', hturn, hcurrent', hreduces, htraces'⟩
      · exact .inl ⟨false, ends_of_halt hturn⟩
      · exact .inl ⟨true, ends_of_halt hturn⟩
      · obtain rfl : t = t' := Option.some.inj (hcurrent.symm.trans hcurrent')
        have hlands := lands_of_shifts ha hyields hshifts
        obtain ⟨i, hi, hnext, -⟩ := hshifts
        obtain ⟨token, rest, rfl, -⟩ :=
          exists_token hcurrent (hi.next_lt ha hnext).1.ne'
        exact .inr ⟨token, rest, _, _, rfl, .single ⟨_, hturn⟩, htraces', hlands⟩
      · obtain rfl : t = t' := Option.some.inj (hcurrent.symm.trans hcurrent')
        have hgoes : Goes (turn g table) ⟨stack, g.input tokens⟩ ⟨stack', g.input tokens⟩ :=
          ⟨move, hturn⟩
        rcases ih string' hreduces (yields_of_reduces ha hreduces hyields) htraces'
          hcurrent with ⟨accepted, hends⟩ | ⟨token, rest, stack'', string'', hcons, hreach, hlater⟩
        · exact .inl ⟨accepted, .of_goes hgoes hends⟩
        · exact .inr ⟨token, rest, stack'', string'', hcons, hreach.head hgoes, hlater⟩

/-- After a shift the run comes to an end, or the grammar loops. -/
theorem ends_or_loops (tokens : List String) {stack : List Entry} {string : List Nat}
    (htraces : Traces a stack string) (hlands : Lands g a string) :
    (∃ accepted, Ends (turn g table) ⟨stack, g.input tokens⟩ accepted) ∨
      Loops g a (g.followSets g.firstSets) := by
  cases hcurrent : (Config.mk stack (g.input tokens)).current with
  | none =>
      have hhalt : turn g table ⟨stack, g.input tokens⟩ = .halt .reject false := by
        simp [turn, hcurrent]
      exact .inl ⟨false, ends_of_halt hhalt⟩
  | some t =>
      by_cases hacc : Acc (flip (Reduces a (g.followSets g.firstSets) t)) string
      · rcases ends_or_reads ha htable hacc hlands.2.1 htraces hcurrent with
          hends | ⟨token, rest, stack', string', rfl, hreach, htraces', hlands'⟩
        · exact .inl hends
        · refine (ends_or_loops rest htraces' hlands').imp ?_ id
          rintro ⟨accepted, hends⟩
          exact ⟨accepted, .of_reaches hreach hends⟩
      · obtain ⟨f, rfl, hf⟩ := not_acc_iff_exists_descending_chain.mp hacc
        exact .inr (loops_of_chain (fun hi => hi.holds ha) hlands hf)
termination_by tokens.length

/-! A loop keeps the machine from halting. -/

/-- The machine brings a string that can be read up to a terminal onto its stack. -/
theorem reaches_string {string : List Nat} {t : Nat} {i : Item}
    (hi : a.Valid (string ++ [t]) i) (hterm : g.isTerminal t = true) (lower after : List Nat)
    {upper word : List Nat} (hsplit : string = lower ++ upper) (hyields : g.Yields upper word)
    {stack : List Entry} {rest : List Token} (htraces : Traces a stack lower)
    (hreads : Reads rest (word ++ t :: after)) :
    ∃ stack', Reaches (turn g table) ⟨stack, rest⟩ ⟨stack', rest.drop word.length⟩ ∧
      Traces a stack' string := by
  obtain ⟨later, hder⟩ := hi.exists_derives ha
  induction upper generalizing lower word stack rest with
  | nil =>
      cases hyields
      exact ⟨stack, .refl, by simpa [hsplit] using htraces⟩
  | cons s upper ih =>
      subst hsplit
      obtain ⟨first, second, rfl, hfirst, hsecond⟩ := Yields.split (u := [s]) hyields
      obtain ⟨j, hj, hnext⟩ := Automaton.Valid.exists_awaiting (u := lower) (s := s)
        (v := upper ++ [t]) (by simpa using hi)
      have hlook : (g.firstSets.ofSequence (t :: (a.grammar.ahead i ++ later))).Has
          (t :: after).head? := by
        refine first_cons.mpr (.inl ⟨?_, by simp⟩)
        rw [ha.wellFormed.first_terminal hterm]
        exact FirstSet.has_terminal.mpr rfl
      rw [List.append_assoc] at hreads
      obtain ⟨stack₁, hreach₁, htraces₁⟩ := reaches_of_yields ha htable hfirst _ htraces hj
        (ahead_eq_cons hnext) (by simpa using hder) (hsecond.first_append ha.wellFormed hlook)
        (by simp) hreads
      obtain ⟨stack', hreach₂, htraces'⟩ := ih (lower ++ [s]) (by simp) hsecond htraces₁
        hreads.drop
      rw [List.drop_drop] at hreach₂
      rw [List.length_append]
      exact ⟨stack', hreach₁.trans hreach₂, htraces'⟩

theorem reaches_landing {string word after : List Nat} {t : Nat} {rest : List Token}
    (hlands : Lands g a string) (hyields : g.Yields string word)
    (hreads : Reads rest (word ++ t :: after)) :
    ∃ stack, Reaches (turn g table) ⟨[], rest⟩ ⟨stack, rest.drop word.length⟩ ∧
      Traces a stack string := by
  obtain ⟨⟨i, hi⟩, -, rfl | ⟨front, s, rfl, hs⟩⟩ := hlands
  · cases hyields
    exact ⟨[], .refl, .nil⟩
  · obtain ⟨first, second, rfl, hfirst, hsecond⟩ := hyields.split
    cases hsecond with
    | nonterminal hbody _ _ => exact absurd hbody (not_mem_bodies_of_isTerminal hs)
    | terminal _ hnil =>
        cases hnil
        obtain ⟨stack, hreach, htraces⟩ := reaches_string ha htable hi hs []
          (t :: after) rfl hfirst .nil (by simpa using hreads)
        obtain ⟨j, hj, hnext⟩ := hi.exists_awaiting
        have hshifts : Shifts a s front :=
          ⟨j, hj, hnext, (ha.isTerminal_eq s).trans hs⟩
        rw [List.append_assoc] at hreads
        obtain ⟨k, hgoes, htraces'⟩ := goes_shift ha htable htraces hreads.drop.current hshifts
        refine ⟨_, hreach.tail ?_, htraces'⟩
        simpa [List.tail_drop] using hgoes

/-- The machine carries out any number of reductions that may follow each other. -/
theorem reaches_of_reduces {t : Nat} {string string' : List Nat}
    (h : ReflTransGen (Reduces a (g.followSets g.firstSets) t) string string')
    {stack : List Entry} {rest : List Token} (htraces : Traces a stack string)
    (hcurrent : (Config.mk stack rest).current = some t) :
    ∃ stack', Reaches (turn g table) ⟨stack, rest⟩ ⟨stack', rest⟩ ∧
      Traces a stack' string' := by
  induction h with
  | refl => exact ⟨stack, .refl, htraces⟩
  | tail _ hreduces ih =>
      obtain ⟨stack₁, hreach, htraces₁⟩ := ih
      obtain ⟨stack', hgoes, htraces'⟩ := goes_reduce ha htable htraces₁ hcurrent hreduces
      exact ⟨stack', hreach.tail hgoes, htraces'⟩

/-- Where reductions can go on without end, the run does. -/
theorem unfinished_of_not_acc {t : Nat} {string : List Nat}
    (h : ¬ Acc (flip (Reduces a (g.followSets g.firstSets) t)) string)
    {stack : List Entry} {rest : List Token} (htraces : Traces a stack string)
    (hcurrent : (Config.mk stack rest).current = some t) (limit : Nat) :
    run (turn g table) limit ⟨stack, rest⟩ = .unfinished := by
  refine run_unfinished (P := fun c => ∃ stack string, c = ⟨stack, rest⟩ ∧
    ¬ Acc (flip (Reduces a (g.followSets g.firstSets) t)) string ∧
    Traces a stack string) ?_ ⟨stack, string, rfl, h, htraces⟩ limit
  rintro _ ⟨stack, string, rfl, hnot, htraces⟩
  obtain ⟨string', hnot', hreduces⟩ := exists_not_acc_lt_of_not_acc hnot
  obtain ⟨stack', hgoes, htraces'⟩ := goes_reduce ha htable htraces hcurrent hreduces
  exact ⟨_, hgoes, stack', string', rfl, hnot', htraces'⟩

/-- There are tokens on which the machine goes through a given loop. -/
theorem exists_not_ends (h : Loops g a (g.followSets g.firstSets)) :
    ∃ tokens, ∀ accepted, ¬ Ends (turn g table) (initial g tokens) accepted := by
  obtain ⟨t, front, s, pumped, ⟨landing, hlands, hreduces⟩, hsame, hcycle⟩ := h
  have hterm : g.isTerminal t = true := by
    obtain ⟨_, ⟨-, -, i, -, -, -, hfollow, -⟩, -⟩ := TransGen.head'_iff.mp hcycle
    exact ha.wellFormed.isTerminal_of_mem_followers hfollow
  obtain ⟨word, hyields⟩ := hlands.2.1
  have hend : endMark ∉ word := by
    obtain ⟨i, hi⟩ := hlands.1
    exact not_mem_of_yields ha.wellFormed hyields fun hmem => lt_irrefl _ (hi.endMark_lt ha _ hmem)
  obtain ⟨tokens, after, hreads⟩ :
      ∃ tokens after, Reads (g.input tokens) (word ++ t :: after) := by
    by_cases ht : t = endMark
    · obtain ⟨tokens, hspells⟩ := exists_spells hyields.isTerminal_of_mem hend
      exact ⟨tokens, [], ht ▸ ha.wellFormed.reads_input hspells⟩
    · have hlonger : g.Yields (landing ++ [t]) (word ++ [t]) :=
        hyields.append (.terminal hterm .nil)
      obtain ⟨tokens, hspells⟩ := exists_spells hlonger.isTerminal_of_mem
        (by simp [hend, Ne.symm ht])
      exact ⟨tokens, [endMark], by simpa using ha.wellFormed.reads_input hspells⟩
  obtain ⟨stack₁, hreach₁, htraces₁⟩ := reaches_landing ha htable hlands hyields hreads
  obtain ⟨stack₂, hreach₂, htraces₂⟩ :=
    reaches_of_reduces ha htable hreduces htraces₁ hreads.drop.current
  have hforever := unfinished_of_not_acc ha htable (not_acc_of_cycle hsame hcycle) htraces₂
    hreads.drop.current
  refine ⟨tokens, fun accepted hends => not_ends_of_unfinished hforever accepted ?_⟩
  exact hends.of_reaches_start (hreach₁.trans hreach₂)

/-! Where every reachable nonterminal derives a word, there is no loop. -/

omit htable in
theorem exists_yields_ahead
    (hproductive : ∀ s, g.Reachable s → g.isNonterminal s = true → g.Productive s)
    {string after : List Nat} {i : Item} (hi : a.Valid string i)
    (hder : g.Derives [g.start, endMark] (string ++ (a.grammar.ahead i ++ after))) :
    ∃ word, g.Yields (a.grammar.ahead i) word := by
  apply exists_yields
  intro s hs
  obtain ⟨hend, hlt⟩ := hi.mem_ahead ha s hs
  rcases isTerminal_or_isNonterminal hlt (ne_epsilon_of_lt hend) with hterm | hnon
  · exact ⟨[s], .terminal hterm .nil⟩
  · refine hproductive s ?_ hnon
    obtain ⟨front, hfront, hder⟩ := derives_of_derives_endMark ha.wellFormed hder
    obtain ⟨u, v, hsplit⟩ := List.append_of_mem hs
    rw [hsplit] at hfront
    have hsplit' : front ++ [endMark] = (string ++ u) ++ s :: (v ++ after) := by
      simpa using hfront.symm
    rcases append_eq_append_cons hsplit' with ⟨x, rfl, -⟩ | ⟨x, hx, -⟩
    · exact ⟨_, _, hder⟩
    · have hs : s ∈ [endMark] := by simp [hx]
      exact absurd (List.mem_singleton.mp hs) hend.ne'

/-- What is ahead of an item and some word after it lead to acceptance. -/
theorem exists_completion
    (hproductive : ∀ s, g.Reachable s → g.isNonterminal s = true → g.Productive s)
    {string : List Nat} {i : Item} (hi : a.Valid string i) :
    ∃ after word, g.Derives [g.start, endMark]
        (string ++ (a.grammar.ahead i ++ after)) ∧
      g.Yields after word ∧ word ≠ [] ∧
      ∀ stack rest, Traces a stack (string ++ a.grammar.ahead i) →
        Reads rest word → Ends (turn g table) ⟨stack, rest⟩ true := by
  induction hi with
  | start =>
      refine ⟨[endMark], [endMark], ?_, .terminal ha.wellFormed.isTerminal_endMark .nil, by simp, ?_⟩
      · rw [ahead_start ha]
        exact .refl
      · intro stack rest htraces hreads
        obtain ⟨last, hlast, hleft, -, hdone⟩ := Automaton.Valid.start.move_over (a := a) rfl
        exact ends_of_halt (halt_accept ha htable htraces hreads.current hlast hleft hdone)
  | @move string i s _ hnext ih =>
      obtain ⟨after, word, hder, hyields, hne, hends⟩ := ih
      rw [ahead_eq_cons hnext] at hder hends
      refine ⟨after, word, by simpa using hder, hyields, hne, fun stack rest htraces => ?_⟩
      exact hends stack rest (by simpa using htraces)
  | @expand string i j left hsource hnext hawaited hmem ih =>
      obtain ⟨after, word, hder, hyields, hne, hends⟩ := ih
      obtain ⟨production, hlt, rfl⟩ := mem_initialItems.mp hmem
      have hleft : left ≠ a.accept := ha.ne_accept (hsource.next_lt ha hnext).2
      have hbody := (holds_initialItem hlt).body_mem
      have hahead := ahead_initialItem ha.grammar_wellFormed hlt
      simp only [initialItem, ha.bodies_of_ne hleft] at hbody
      have hnon := ha.wellFormed.isNonterminal_of_mem_bodies hbody
      have hmoved := hsource.move hnext
      rw [ahead_eq_cons hnext] at hder hends
      have hder : g.Derives [g.start, endMark]
          (string ++ left :: (a.grammar.ahead i.advance ++ after)) := by
        simpa using hder
      have hder' : g.Derives [g.start, endMark]
          (string ++ [left] ++ (a.grammar.ahead i.advance ++ after)) := by
        simpa using hder
      obtain ⟨first, hfirst⟩ := exists_yields_ahead ha hproductive hmoved hder'
      rw [hahead]
      refine ⟨a.grammar.ahead i.advance ++ after, first ++ word,
        by simpa using hder.tail (produces_of_mem hbody string _), hfirst.append hyields,
        by simp [hne], fun stack rest htraces hreads => ?_⟩
      obtain ⟨t, ht⟩ : ∃ t, (first ++ word).head? = some t :=
        ⟨_, List.head?_eq_some_head (by simp [hne])⟩
      have hfollow : t ∈ g.followers left :=
        ha.wellFormed.mem_followers_of_derives hder rfl hnon
          (ht ▸ (hfirst.append hyields).first ha.wellFormed)
      have hreduces : Reduces a (g.followSets g.firstSets) t
          (string ++ (a.grammar.body left production).visible) (string ++ [left]) :=
        reduces_of_ahead (hsource.expand hnext hawaited hmem) hahead hleft hfollow
      obtain ⟨stack₁, hgoes, htraces₁⟩ := goes_reduce ha htable htraces
        (hreads.current.trans ht) hreduces
      obtain ⟨stack₂, hreach, htraces₂⟩ := reaches_of_yields ha htable hfirst [] htraces₁ hmoved
        (by simp) hder' (hyields.first ha.wellFormed) hne hreads
      refine .of_goes hgoes (.of_reaches hreach (hends _ _ ?_ hreads.drop))
      simpa using htraces₂

/-- Every string that can be read can be completed to a sentence, which the machine accepts. -/
theorem exists_accepted
    (hproductive : ∀ s, g.Reachable s → g.isNonterminal s = true → g.Productive s)
    {string : List Nat} {i : Item} (hi : a.Valid string i) :
    ∃ after word, g.Derives [g.start, endMark] (string ++ after) ∧ g.Yields after word ∧
      word ≠ [] ∧ ∀ stack rest, Traces a stack string → Reads rest word →
        Ends (turn g table) ⟨stack, rest⟩ true := by
  obtain ⟨after, word, hder, hyields, hne, hends⟩ :=
    exists_completion ha htable hproductive hi
  obtain ⟨first, hfirst⟩ := exists_yields_ahead ha hproductive hi hder
  refine ⟨a.grammar.ahead i ++ after, first ++ word, hder, hfirst.append hyields,
    by simp [hne], fun stack rest htraces hreads => ?_⟩
  obtain ⟨stack', hreach, htraces'⟩ := reaches_of_yields ha htable hfirst [] htraces hi
    (by simp) hder (hyields.first ha.wellFormed) hne hreads
  exact .of_reaches hreach (hends _ _ htraces' hreads.drop)

omit htable in
theorem derives_of_chain {follow : FollowSets} {t : Nat} {f : Nat → List Nat}
    (hf : ∀ n, Reduces a follow t (f n) (f (n + 1))) {j k : Nat} (hjk : j ≤ k) :
    g.Derives (f k) (f j) := by
  induction k, hjk using Nat.le_induction with
  | base => exact .refl
  | succ k _ ih => exact ReflTransGen.head (produces_of_reduces ha (hf k)) ih

omit htable in
/-- The terminal that comes next in a sentence calls for the reductions that lead to it. -/
theorem reduces_of_completion {t s : Nat} {f : Nat → List Nat}
    (hf : ∀ n, Reduces a (g.followSets g.firstSets) t (f n) (f (n + 1))) {j k : Nat} (hjk : j < k)
    {after word : List Nat} (hder : g.Derives [g.start, endMark] (f k ++ after))
    (hyields : g.Yields after word) (hs : word.head? = some s) :
    Reduces a (g.followSets g.firstSets) s (f j) (f (j + 1)) := by
  obtain ⟨front, i, hi, hdone, hleft, -, hbefore, hafter⟩ := hf j
  have hbody := (hi.complete_origin ha hleft hdone).1
  have hform : g.Derives [g.start, endMark] (front ++ i.left :: after) := by
    have hback := (derives_of_chain ha hf (Nat.succ_le_of_lt hjk)).append_right after
    rw [Nat.succ_eq_add_one, hafter] at hback
    simpa using hder.trans hback
  refine ⟨front, i, hi, hdone, hleft, ?_, hbefore, hafter⟩
  exact ha.wellFormed.mem_followers_of_derives hform rfl
    (ha.wellFormed.isNonterminal_of_mem_bodies hbody) (hs ▸ hyields.first ha.wellFormed)

/-- Where every nonterminal that can be reached is productive, reductions come to an end. -/
theorem acc_of_productive
    (hproductive : ∀ s, g.Reachable s → g.isNonterminal s = true → g.Productive s) (t : Nat)
    (string : List Nat) : Acc (flip (Reduces a (g.followSets g.firstSets) t)) string := by
  by_contra hnot
  obtain ⟨f, -, hf⟩ := not_acc_iff_exists_descending_chain.mp hnot
  have hvalid (k : Nat) : ∃ i, a.Valid (f k) i := by
    obtain ⟨_, i, hi, -⟩ := hf k
    exact ⟨i, hi⟩
  choose after word hder hyields hne hends using fun k =>
    exists_accepted ha htable hproductive (hvalid k).choose_spec
  -- infinitely many of the completions begin with the same terminal
  have hhead (k : Nat) : ∃ s : Fin g.size, (word k).head? = some s.val := by
    have hsome := List.head?_eq_some_head (hne k)
    have hterm := (hyields k).isTerminal_of_mem _ (List.mem_of_head? hsome)
    exact ⟨⟨_, lt_size_of_isTerminal hterm⟩, hsome⟩
  choose first hfirst using hhead
  obtain ⟨s, hinfinite⟩ := Finite.exists_infinite_fiber first
  have hgt (n : Nat) : ∃ k, first k = s ∧ n < k := by
    obtain ⟨k, hk, hlt⟩ := (Set.infinite_coe_iff.mp hinfinite).exists_gt n
    exact ⟨k, hk, hlt⟩
  have hreduces (j : Nat) : Reduces a (g.followSets g.firstSets) s (f j) (f (j + 1)) := by
    obtain ⟨k, rfl, hlt⟩ := hgt j
    exact reduces_of_completion ha hf hlt (hder k) (hyields k) (hfirst k)
  -- on one of these the machine would accept and reduce forever
  obtain ⟨k, rfl, -⟩ := hgt 0
  obtain ⟨i, hi⟩ := hvalid k
  obtain ⟨stack, htraces⟩ := exists_traces ha.complete (fun h => h.next_mem_alphabet ha) hi
  have hreads : Reads ((word k).map fun t => ⟨"", some t⟩) (word k) := by
    simp [Reads]
  have hforever : ¬ Acc (flip (Reduces a (g.followSets g.firstSets) (first k))) (f k) :=
    not_acc_iff_exists_descending_chain.mpr ⟨fun n => f (k + n), rfl, fun n => hreduces (k + n)⟩
  refine not_ends_of_unfinished (unfinished_of_not_acc ha htable hforever htraces ?_) true
    (hends k stack _ htraces hreads)
  exact hreads.current.trans (hfirst k)

end IsFor

/-- The machine halts on all lists of tokens exactly if there is no loop of reductions, and there is
none if every nonterminal that can be reached derives a word. -/
theorem halts_iff_not_loops (hg : g.Readable) {a : Analysis} (ha : g.analyze? = some a)
    (htable : a.slr1Table = some table) :
    ((∀ tokens, ∃ limit trace, runFor limit g table tokens = .halted trace) ↔
        ¬ Loops g a.automaton a.follow) ∧
      ((∀ s, g.Reachable s → g.isNonterminal s = true → g.Productive s) →
        ∀ tokens, ∃ limit trace, runFor limit g table tokens = .halted trace) := by
  obtain ⟨hfor, hfollow, hbuild⟩ := isFor_of_analyze? hg ha htable
  rw [hfollow]
  have hends (tokens : List String) :
      (∃ limit trace, runFor limit g table tokens = .halted trace) ↔
        ∃ accepted, Ends (turn g table) (initial g tokens) accepted := by
    constructor
    · rintro ⟨limit, trace, hrun⟩
      exact ⟨trace.accepted, limit, trace, hrun, rfl⟩
    · rintro ⟨_, limit, trace, hrun, -⟩
      exact ⟨limit, trace, hrun⟩
  have hiff : (∀ tokens, ∃ limit trace, runFor limit g table tokens = .halted trace) ↔
      ¬ Loops g a.automaton (g.followSets g.firstSets) := by
    simp only [hends]
    constructor
    · intro hall hloops
      obtain ⟨tokens, hnot⟩ := exists_not_ends hfor hbuild hloops
      obtain ⟨accepted, haccepted⟩ := hall tokens
      exact hnot accepted haccepted
    · intro hnot tokens
      refine (ends_or_loops hfor hbuild tokens .nil ?_).resolve_right hnot
      exact ⟨⟨_, .start⟩, ⟨[], .nil⟩, .inl rfl⟩
  refine ⟨hiff, fun hproductive => hiff.mpr ?_⟩
  rintro ⟨t, front, s, pumped, -, hsame, hcycle⟩
  exact not_acc_of_cycle hsame hcycle (acc_of_productive hfor hbuild hproductive t _)

/-! After `A` the grammar below waits for `U`, which derives no word, so no terminal is ever shifted
there. `N` cannot be reached, but it puts `t` behind `A`, and on `t` the machine reduces `A` to itself
again and again. -/

theorem goes_round_in_place :
    ∃ g a table, Grammar.read .spaced "S -> A U\nA -> A | a\nU -> U x\nN -> A t" = .ok g ∧
      g.analyze? = some a ∧ a.slr1Table = some table ∧
      ∃ c, Reaches (turn g table) (initial g ["a", "t"]) c ∧ Goes (turn g table) c c := by
  have hturns : ((Grammar.read .spaced "S -> A U\nA -> A | a\nU -> U x\nN -> A t").toOption.bind
      fun g => g.analyze?.bind fun a => a.slr1Table.map fun table =>
        let rest := [⟨"t", some 8⟩, ⟨"$", some 1⟩]
        decide (turn g table (initial g ["a", "t"]) = .next (.shift 1) ⟨[⟨6, 1⟩], rest⟩ ∧
          turn g table ⟨[⟨6, 1⟩], rest⟩ = .next (.reduce 3 1) ⟨[⟨3, 3⟩], rest⟩ ∧
          turn g table ⟨[⟨3, 3⟩], rest⟩ = .next (.reduce 3 0) ⟨[⟨3, 3⟩], rest⟩)) = some true := by
    decide +kernel
  simp only [Option.bind_eq_some_iff, Option.map_eq_some_iff, toOption_eq_some,
    decide_eq_true_eq] at hturns
  obtain ⟨g, hg, a, ha, table, htable, hshift, hreduce, hagain⟩ := hturns
  exact ⟨g, a, table, hg, ha, htable, _,
    .tail (.single ⟨_, hshift⟩) ⟨_, hreduce⟩, ⟨_, hagain⟩⟩

theorem reduces_without_end :
    ∃ g a table, Grammar.read .spaced "S -> A U\nA -> A | a\nU -> U x\nN -> A t" = .ok g ∧
      g.analyze? = some a ∧ a.slr1Table = some table ∧
      ∀ limit, runFor limit g table ["a", "t"] = .unfinished := by
  obtain ⟨g, a, table, hg, ha, htable, c, hreach, hround⟩ := goes_round_in_place
  exact ⟨g, a, table, hg, ha, htable, run_unfinished_of_cycle hreach hround⟩

theorem loops_in_place :
    ∃ g a table, Grammar.read .spaced "S -> A U\nA -> A | a\nU -> U x\nN -> A t" = .ok g ∧
      g.analyze? = some a ∧ a.slr1Table = some table ∧ Loops g a.automaton a.follow := by
  obtain ⟨g, a, table, hg, ha, htable, c, hreach, hround⟩ := goes_round_in_place
  refine ⟨g, a, table, hg, ha, htable, ?_⟩
  by_contra hnot
  obtain ⟨limit, trace, hrun⟩ :=
    (halts_iff_not_loops (.read hg) ha htable).1.mpr hnot ["a", "t"]
  have hforever := run_unfinished_of_cycle hreach hround limit
  rw [runFor, hforever] at hrun
  cases hrun

end Lookahead.SLR1
