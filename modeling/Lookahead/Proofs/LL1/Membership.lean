import Lookahead.Analysis
import Lookahead.LL1.Machine
import Lookahead.Proofs.Fallible
import Lookahead.Proofs.Grammar.Readable
import Lookahead.Proofs.Machine.Steps
import Lookahead.Proofs.Sets.Follow

/-!
The predictive machine accepts exactly the sentences of its grammar. What it accepts, its stack
yields, since each turn undoes a step of a derivation. In the other direction the machine follows a
derivation tree: below a nonterminal of the tree it finds the alternative of the tree in its table,
because the next terminal is in the FIRST set of that alternative, or else the alternative vanishes
and the terminal is in the FOLLOW set of the nonterminal.
-/

namespace Lookahead.LL1

open Machine Grammar Relation

variable {g : Grammar} {table : Table}

/-- Alternative number `i` of `left` is the one to take on `t`. -/
def Predicts (g : Grammar) (left t i : Nat) (body : Body) : Prop :=
  (g.bodies left)[i]? = some body ∧
    ((g.firstSets.ofSequence body).Has (some t) ∨
      (g.firstSets.ofSequence body).Has none ∧ t ∈ g.followers left)

def IsTableOf (table : Table) (g : Grammar) : Prop :=
  ∀ left t i, table.find? left t = some i ↔ ∃ body, Predicts g left t i body

theorem fills_table : Fills (fun (table : Table) cell => table.cells.find? cell)
    (fun table (entry : Cell × Nat) => table.fill entry.1 entry.2) := by
  intro table cell i table' h
  change table.fill cell i = .ok table' at h
  unfold Table.fill at h
  split at h
  · next other hother =>
      split at h
      · next hsame =>
          cases h
          subst hsame
          refine ⟨.inr hother, fun x => ?_⟩
          split
          · next hx => exact hx ▸ hother
          · rfl
      · cases h
  · next hnone =>
      cases h
      exact ⟨.inl hnone, fun x => SortedMap.find?_insert _ _ _ _⟩

theorem mem_lookaheads {follow : FollowSets} {left t : Nat} {f : FirstSet} :
    t ∈ lookaheads follow left f ↔ f.Has (some t) ∨ f.Has none ∧ t ∈ follow.ofSymbol left := by
  unfold lookaheads
  by_cases hnull : f.nullable = true <;> simp [hnull, FirstSet.Has]

/-- The entries for the table are what the grammar predicts. -/
theorem mem_predictions (hg : g.WellFormed) {left t i : Nat} :
    (⟨left, t⟩, i) ∈ predictions g g.firstSets (g.followSets g.firstSets) ↔
      ∃ body, Predicts g left t i body := by
  simp only [predictions, predictionsOf, List.mem_flatMap, List.mem_map, Prod.exists,
    Prod.mk.injEq, Cell.mk.injEq, List.mem_zipIdx_iff_getElem?, ← SortedSet.mem_def,
    mem_lookaheads, Predicts, Grammar.followers]
  constructor
  · rintro ⟨n, hn, body, i, hbody, t, ht, ⟨rfl, rfl⟩, rfl⟩
    exact ⟨body, hg.bodies_index hn ▸ hbody, ht⟩
  · rintro ⟨body, hbody, ht⟩
    have hleft := hg.isNonterminal_of_mem_bodies (List.mem_of_getElem? hbody)
    obtain ⟨n, hn, rfl, hbodies⟩ := hg.exists_nonterminal hleft
    exact ⟨n, hn, body, i, hbodies ▸ hbody, t, ht, ⟨rfl, rfl⟩, rfl⟩

theorem isTableOf_buildTable (hg : g.WellFormed)
    (h : buildTable g g.firstSets (g.followSets g.firstSets) = .ok table) : IsTableOf table g := by
  intro left t i
  rw [← mem_predictions hg]
  exact (fills_table.look_foldlM h ⟨left, t⟩ i).trans (by simp)

theorem isTableOf_of_analyze? (hg : g.WellFormed) {a : Analysis} (ha : g.analyze? = some a)
    (htable : a.ll1Table = some table) : IsTableOf table g := by
  unfold analyze? at ha
  obtain ⟨automaton, -, ha⟩ := Option.bind_eq_some_iff.mp ha
  cases ha
  simp only [Option.ite_none_right_eq_some, toOption_eq_some] at htable
  exact isTableOf_buildTable hg htable.2

/-! What one turn does. -/

theorem goes_of_matched {t : Nat} {stack : List Nat} {rest : List Token}
    (hcurrent : (Config.mk (t :: stack) rest).current = some t) (ht : t ≠ endMark) :
    Goes (turn g table) ⟨t :: stack, rest⟩ ⟨stack, rest.tail⟩ := by
  refine ⟨.matched t, ?_⟩
  simp [turn, top, hcurrent, ht]

/-- An alternative that is predicted takes the place of its left side on the stack. -/
theorem goes_of_predicts (hg : g.WellFormed) (htable : IsTableOf table g) {left t i : Nat}
    {body : Body} {stack : List Nat} {rest : List Token}
    (hcurrent : (Config.mk (left :: stack) rest).current = some t)
    (ht : g.isTerminal t = true) (hpredicts : Predicts g left t i body) :
    Goes (turn g table) ⟨left :: stack, rest⟩ ⟨body.visible ++ stack, rest⟩ := by
  have hbody : body ∈ g.bodies left := List.mem_of_getElem? hpredicts.1
  have hleft := hg.isNonterminal_of_mem_bodies hbody
  have hfind : table.find? left t = some i := (htable left t i).mpr ⟨body, hpredicts⟩
  have hget : g.body left i = body := by simp [Grammar.body, hpredicts.1]
  have hnames := isSome_names? ((hg.fits hbody).lt_size hg)
  have hne : t ≠ left := by
    rintro rfl
    rw [not_isNonterminal_of_isTerminal ht] at hleft
    cases hleft
  refine ⟨.produce left i, ?_⟩
  simp [turn, top, prediction?, hcurrent, hne, hleft, hfind, hget, hnames]

/-- All that a turn can do. -/
theorem turn_inversion (g : Grammar) (table : Table) (c : Config Nat) :
    (turn g table c = .halt .accept true ∧ c.current = some endMark ∧ top c = endMark) ∨
    turn g table c = .halt .reject false ∨ turn g table c = .fault ∨
    (turn g table c = .next (.matched (top c)) ⟨c.stack.tail, c.rest.tail⟩ ∧
      c.current = some (top c) ∧ top c ≠ endMark) ∨
    ∃ i, turn g table c = .next (.produce (top c) i)
        ⟨(g.body (top c) i).visible ++ c.stack.tail, c.rest⟩ ∧
      prediction? g table c = some i := by
  unfold turn
  split
  · next hcurrent =>
      split
      · next htop => exact .inl ⟨rfl, htop ▸ hcurrent, htop⟩
      · next hne => exact .inr (.inr (.inr (.inl ⟨rfl, hcurrent, hne⟩)))
  · split
    · exact .inr (.inl rfl)
    · next i hi =>
        dsimp only
        split
        · exact .inr (.inr (.inr (.inr ⟨i, rfl, hi⟩)))
        · exact .inr (.inr (.inl rfl))

theorem exists_predicts (htable : IsTableOf table g) {c : Config Nat} {i : Nat}
    (h : prediction? g table c = some i) :
    ∃ t body, c.current = some t ∧ Predicts g (top c) t i body := by
  unfold prediction? at h
  split at h
  · obtain ⟨t, hcurrent, hfind⟩ := Option.bind_eq_some_iff.mp h
    obtain ⟨body, hbody⟩ := (htable _ _ _).mp hfind
    exact ⟨t, body, hcurrent, hbody⟩
  · cases h

/-- The ways on from a configuration: a terminal is matched, or a prediction is taken. -/
theorem next_cases (htable : IsTableOf table g) {c c' : Config Nat} {move : Move}
    (h : turn g table c = .next move c') :
    (c.current = some (top c) ∧ top c ≠ endMark ∧ move = .matched (top c) ∧
        c' = ⟨c.stack.tail, c.rest.tail⟩) ∨
      ∃ i body, (g.bodies (top c))[i]? = some body ∧ move = .produce (top c) i ∧
        c' = ⟨body.visible ++ c.stack.tail, c.rest⟩ := by
  rcases turn_inversion g table c with ⟨hturn, -⟩ | hturn | hturn | ⟨hturn, hcurrent, hne⟩ |
    ⟨i, hturn, hi⟩
  · simp [hturn] at h
  · simp [hturn] at h
  · simp [hturn] at h
  · rw [hturn] at h
    cases h
    exact .inl ⟨hcurrent, hne, rfl, rfl⟩
  · rw [hturn] at h
    cases h
    obtain ⟨t, body, -, hbody, -⟩ := exists_predicts htable hi
    refine .inr ⟨i, body, hbody, rfl, ?_⟩
    simp [Grammar.body, hbody]

/-- A move reads the terminal on the stack, or puts an alternative in the place of the nonterminal
there. -/
theorem Goes.cases (htable : IsTableOf table g) {c c' : Config Nat}
    (h : Goes (turn g table) c c') :
    (c.current = some (top c) ∧ top c ≠ endMark ∧ c' = ⟨c.stack.tail, c.rest.tail⟩) ∨
      ∃ body ∈ g.bodies (top c), c' = ⟨body.visible ++ c.stack.tail, c.rest⟩ := by
  obtain ⟨move, hmove⟩ := h
  rcases next_cases htable hmove with ⟨hcurrent, hne, -, hnext⟩ | ⟨i, body, hbody, -, hnext⟩
  · exact .inl ⟨hcurrent, hne, hnext⟩
  · exact .inr ⟨body, List.mem_of_getElem? hbody, hnext⟩

/-- The machine halts to accept, with the end mark on both sides, or to reject. -/
theorem halt_cases {c : Config Nat} {move : Move} {accepted : Bool}
    (h : turn g table c = .halt move accepted) :
    (move = .accept ∧ accepted = true ∧ c.current = some endMark ∧ top c = endMark) ∨
      (move = .reject ∧ accepted = false) := by
  rcases turn_inversion g table c with ⟨hturn, hcurrent, htop⟩ | hturn | hturn | ⟨hturn, -⟩ |
    ⟨i, hturn, -⟩
  · rw [hturn] at h
    cases h
    exact .inl ⟨rfl, rfl, hcurrent, htop⟩
  · rw [hturn] at h
    cases h
    exact .inr ⟨rfl, rfl⟩
  · simp [hturn] at h
  · simp [hturn] at h
  · simp [hturn] at h

theorem halt_accept_cases {c : Config Nat} {move : Move} (h : turn g table c = .halt move true) :
    c.current = some endMark ∧ top c = endMark := by
  rcases halt_cases h with ⟨-, -, hlast⟩ | ⟨-, hfalse⟩
  · exact hlast
  · cases hfalse

/-! What is accepted is derived. -/

/-- The stack yields every word that is accepted from it. -/
theorem yields_of_ends (hg : g.WellFormed) (htable : IsTableOf table g) (stack : List Nat)
    (tokens : List String) (hstack : endMark ∉ stack)
    (h : Ends (turn g table) ⟨stack, g.input tokens⟩ true) :
    ∃ word, g.Spells tokens word ∧ g.Yields stack word := by
  obtain ⟨last, move, hreach, hlast⟩ := ends_iff.mp h
  generalize hc : (⟨stack, g.input tokens⟩ : Config Nat) = c at hreach
  induction hreach using ReflTransGen.head_induction_on generalizing stack tokens with
  | refl =>
      subst hc
      obtain ⟨hcurrent, htop⟩ := halt_accept_cases hlast
      obtain rfl := hg.current_eq_endMark hcurrent
      cases stack with
      | nil => exact ⟨[], .nil, .nil⟩
      | cons s stack => exact absurd (htop ▸ List.mem_cons_self : endMark ∈ s :: stack) hstack
  | head hgoes hreach ih =>
      subst hc
      rcases Goes.cases htable hgoes with ⟨hcurrent, hne, rfl⟩ | ⟨body, hbody, rfl⟩
      · cases stack with
        | nil => exact absurd rfl hne
        | cons t stack =>
            obtain ⟨token, rest, rfl, hterminal⟩ := exists_token hcurrent hne
            obtain ⟨word, hspell, hyield⟩ := ih stack rest
              (fun hmem => hstack (List.mem_cons_of_mem _ hmem))
              (ends_iff.mpr ⟨last, move, hreach, hlast⟩) rfl
            have hterm := (hg.terminal?_eq_some.mp hterminal).2.1
            exact ⟨t :: word, hg.spells_cons.mpr ⟨hterminal, hspell⟩, .terminal hterm hyield⟩
      · cases stack with
        | nil => exact absurd hbody (not_mem_bodies_of_isTerminal hg.isTerminal_endMark)
        | cons left stack =>
            have hmem : endMark ∉ body.visible ++ stack :=
              hg.endMark_not_mem_append hbody fun hmem => hstack (List.mem_cons_of_mem _ hmem)
            obtain ⟨word, hspell, hyield⟩ := ih (body.visible ++ stack) tokens
              hmem (ends_iff.mpr ⟨last, move, hreach, hlast⟩) rfl
            obtain ⟨first, second, rfl, hfirst, hsecond⟩ := hyield.split
            exact ⟨first ++ second, hspell, .nonterminal hbody hfirst hsecond⟩

/-! What is derived is accepted. -/

/-- The alternative at the root of a derivation tree is predicted on the terminal that comes next,
wherever in a sentence the tree stands. -/
theorem predicts_of_yields (hg : g.WellFormed) {left t i : Nat} {body : Body}
    {front after first second : List Nat}
    (hder : g.Derives [g.start, endMark] (front ++ left :: after))
    (hi : (g.bodies left)[i]? = some body) (hfirst : g.Yields body.visible first)
    (hsecond : g.Yields after second) (ht : (first ++ second).head? = some t) :
    Predicts g left t i body := by
  refine ⟨hi, ?_⟩
  cases first with
  | nil =>
      have hnull := hg.first_visible.mp (hfirst.first hg)
      have hnext := hsecond.first hg
      rw [show second.head? = some t from ht] at hnext
      exact .inr ⟨hnull, hg.mem_followers_of_derives hder rfl
        (hg.isNonterminal_of_mem_bodies (List.mem_of_getElem? hi)) hnext⟩
  | cons s first =>
      obtain rfl : s = t := by simpa using ht
      exact .inl (hg.first_visible.mp (hfirst.first hg))

/-- The machine works off the upper part of its stack along a derivation tree. The lower part, what
it yields and what was read before say where in a sentence that happens. -/
theorem reaches_of_yields (hg : g.WellFormed) (htable : IsTableOf table g)
    {upper word : List Nat} (h : g.Yields upper word) (front lower : List Nat) {below : List Nat}
    {rest : List Token} (hupper : endMark ∉ upper)
    (hder : g.Derives [g.start, endMark] (front ++ upper ++ (lower ++ [endMark])))
    (hbelow : g.Yields lower below) (hreads : Reads rest (word ++ (below ++ [endMark]))) :
    Reaches (turn g table) ⟨upper ++ lower, rest⟩ ⟨lower, rest.drop word.length⟩ := by
  induction h generalizing front lower below rest with
  | nil => exact .refl
  | @terminal t upper word _ _ ih =>
      have hcurrent : (Config.mk (t :: (upper ++ lower)) rest).current = some t := hreads.current
      have hmatched : Goes (turn g table) ⟨t :: (upper ++ lower), rest⟩
          ⟨upper ++ lower, rest.tail⟩ :=
        goes_of_matched hcurrent fun hend => hupper (by simp [hend])
      have hrest := ih (front ++ [t]) lower (fun hmem => hupper (List.mem_cons_of_mem _ hmem))
        (by simpa using hder) hbelow hreads.tail
      rw [List.drop_tail] at hrest
      exact hrest.head hmatched
  | @nonterminal left body upper first second hbody hinner hfollowing ihinner ihfollowing =>
      have hend : g.Yields [endMark] [endMark] := .terminal hg.isTerminal_endMark .nil
      have hafter : g.Yields (upper ++ (lower ++ [endMark])) (second ++ (below ++ [endMark])) :=
        hfollowing.append (hbelow.append hend)
      have hder : g.Derives [g.start, endMark]
          (front ++ left :: (upper ++ (lower ++ [endMark]))) := by
        simpa using hder
      rw [List.append_assoc] at hreads
      obtain ⟨t, ht⟩ : ∃ t, (first ++ (second ++ (below ++ [endMark]))).head? = some t :=
        ⟨_, List.head?_eq_some_head (by simp)⟩
      have hterm : g.isTerminal t = true :=
        (hinner.append hafter).isTerminal_of_mem t (List.mem_of_head? ht)
      obtain ⟨i, hi⟩ := List.mem_iff_getElem?.mp hbody
      have hpredicts := predicts_of_yields hg hder hi hinner hafter ht
      have hproduce : Goes (turn g table) ⟨left :: (upper ++ lower), rest⟩
          ⟨body.visible ++ (upper ++ lower), rest⟩ :=
        goes_of_predicts hg htable (hreads.current.trans ht) hterm hpredicts
      have hder : g.Derives [g.start, endMark]
          (front ++ body.visible ++ (upper ++ (lower ++ [endMark]))) :=
        hder.tail (produces_of_mem hbody _ _)
      have hvisible := hg.endMark_not_mem_visible hbody
      have hfirst := ihinner front (upper ++ lower) hvisible (by simpa using hder)
        (hfollowing.append hbelow) (by simpa using hreads)
      have hder : g.Derives [g.start, endMark]
          (front ++ first ++ (upper ++ (lower ++ [endMark]))) :=
        hder.trans ((hinner.derives.append_left front).append_right _)
      have hsecond := ihfollowing (front ++ first) lower
        (fun hmem => hupper (List.mem_cons_of_mem _ hmem)) (by simpa using hder) hbelow
        (by simpa using hreads.drop)
      rw [List.drop_drop] at hsecond
      rw [List.length_append]
      exact (hfirst.trans hsecond).head hproduce

theorem endMark_not_mem_start (hg : g.WellFormed) (hstart : g.isNonterminal g.start = true) :
    endMark ∉ [g.start] := by
  intro hmem
  rw [← List.mem_singleton.mp hmem, not_isNonterminal_of_isTerminal hg.isTerminal_endMark] at hstart
  cases hstart

/-- What the start symbol yields is accepted. -/
theorem ends_of_yields (hg : g.WellFormed) (hstart : g.isNonterminal g.start = true)
    (htable : IsTableOf table g) {tokens : List String} {word : List Nat}
    (hspell : g.Spells tokens word) (h : g.Yields [g.start] word) :
    Ends (turn g table) ⟨[g.start], g.input tokens⟩ true := by
  have hreads : Reads (g.input tokens) (word ++ [endMark]) := hg.reads_input hspell
  have hreach := reaches_of_yields hg htable h [] []
    (endMark_not_mem_start hg hstart) .refl .nil (by simpa using hreads)
  have hcurrent : (Config.mk ([] : List Nat) ((g.input tokens).drop word.length)).current =
      some endMark :=
    hreads.drop.current
  have hhalt : turn g table ⟨[], (g.input tokens).drop word.length⟩ = .halt .accept true := by
    simp [turn, top, hcurrent]
  exact .of_reaches hreach (ends_of_halt hhalt)

/-- The predictive machine accepts a list of tokens exactly if it is a sentence. -/
theorem accepts_iff_isSentence (hg : g.Readable) {a : Analysis} (ha : g.analyze? = some a)
    (htable : a.ll1Table = some table) (tokens : List String) :
    (∃ limit trace, runFor limit g table tokens = .halted trace ∧ trace.accepted = true) ↔
      g.IsSentence tokens := by
  have hwf := hg.wellFormed
  have hstart := hg.isNonterminal_start
  have hcells := isTableOf_of_analyze? hwf ha htable
  have hne : g.start ≠ epsilon := (isNonterminal_iff.mp hstart).1
  have hinitial : initial g tokens = ⟨[g.start], g.input tokens⟩ := by
    simp [initial, hne]
  change Ends (turn g table) (initial g tokens) true ↔ _
  rw [hinitial, isSentence_iff]
  constructor
  · exact yields_of_ends hwf hcells [g.start] tokens (endMark_not_mem_start hwf hstart)
  · rintro ⟨word, hspell, hyield⟩
    exact ends_of_yields hwf hstart hcells hspell hyield

theorem accepts_nested_pairs :
    ∃ g a table, Grammar.read .spaced "S -> a S b | ϵ" = .ok g ∧ g.analyze? = some a ∧
      a.ll1Table = some table ∧ g.IsSentence ["a", "a", "b", "b"] := by
  have hrun : ((Grammar.read .spaced "S -> a S b | ϵ").toOption.bind fun g =>
      g.analyze?.bind fun a => a.ll1Table.bind fun table =>
        (runFor 12 g table ["a", "a", "b", "b"]).trace?.map Trace.accepted) = some true := by
    decide +kernel
  simp only [Option.bind_eq_some_iff, Option.map_eq_some_iff, toOption_eq_some,
    trace?_eq_some] at hrun
  obtain ⟨g, hg, a, ha, table, htable, trace, htrace, haccepted⟩ := hrun
  refine ⟨g, a, table, hg, ha, htable, ?_⟩
  exact (accepts_iff_isSentence (.read hg) ha htable _).mp ⟨12, trace, htrace, haccepted⟩

end Lookahead.LL1
