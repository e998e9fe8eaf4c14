import Lookahead.Proofs.Grammar.Readable
import Lookahead.Proofs.Text.Lines

/-!
The compact notation beside the spaced one. Every rule line of a compact text can be spelled again in
the spaced notation, with a blank between the characters. The two readers go through these lines side
by side: they declare the same left sides, and their alternatives have the same bodies.
-/

namespace Lookahead.Reader.Compact

open Text (arrow Halves)

def respellAlternative (alternative : List Char) : List Char :=
  if Text.squeeze alternative = ['e'] then epsilonName.toList
  else [' '].intercalate ((Text.squeeze alternative).map fun c => [c])

def respellRight (right : List Char) : List Char :=
  ['|'].intercalate ((right.splitOn '|').map respellAlternative)

def respell (line : List Char) : List Char :=
  match Text.splitArrows line with
  | [left, right] => left ++ arrow ++ respellRight right
  | _ => line

/-! Characters of a respelled line. -/

theorem mem_respellAlternative {alternative : List Char} {c : Char}
    (h : c ∈ respellAlternative alternative) : c ∈ Text.squeeze alternative ∨ c ∈ [' ', 'ϵ'] := by
  unfold respellAlternative at h
  split at h
  · exact .inr (List.mem_cons_of_mem _ (by simpa [epsilonName] using h))
  · rcases Text.mem_intercalate h with rfl | ⟨piece, hpiece, hc⟩
    · simp
    · obtain ⟨d, hd, rfl⟩ := List.mem_map.mp hpiece
      exact .inl (List.mem_singleton.mp hc ▸ hd)

theorem bar_not_mem_respellAlternative {alternative : List Char} (h : '|' ∉ alternative) :
    '|' ∉ respellAlternative alternative := by
  intro hmem
  rcases mem_respellAlternative hmem with hmem | hmem
  · exact h (List.mem_of_mem_filter hmem)
  · simp at hmem

/-- No blank but the one between two symbols is left. -/
theorem not_mem_respellRight {right : List Char} {c : Char} (hblank : Text.isBlank c = true)
    (hne : c ≠ ' ') : c ∉ respellRight right := by
  intro hmem
  rcases Text.mem_intercalate hmem with rfl | ⟨piece, hpiece, hc⟩
  · revert hblank
    decide
  obtain ⟨alternative, -, rfl⟩ := List.mem_map.mp hpiece
  rcases mem_respellAlternative hc with hc | hc
  · rw [Text.isBlank_of_mem_squeeze hc] at hblank
    cases hblank
  · rcases List.mem_pair.mp hc with rfl | rfl
    · exact hne rfl
    · revert hblank
      decide

/-- Setting the characters apart takes all arrows from a right side. -/
theorem not_arrow_within_respellRight (right : List Char) : ¬ arrow <:+: respellRight right := by
  refine Text.not_arrow_within_intercalate (by decide) fun piece hpiece => ?_
  obtain ⟨alternative, -, rfl⟩ := List.mem_map.mp hpiece
  unfold respellAlternative
  split
  · decide
  · refine Text.not_arrow_within_intercalate (by decide) fun symbol hsymbol harrow => ?_
    obtain ⟨c, -, rfl⟩ := List.mem_map.mp hsymbol
    simpa [arrow] using harrow.length_le

theorem respell_eq {line left right : List Char} (h : Halves line left right) :
    respell line = left ++ arrow ++ respellRight right := by
  rw [respell, h.splitArrows_eq]

theorem halves_respell {line left right : List Char} (h : Halves line left right) :
    Halves (respell line) left (respellRight right) :=
  ⟨respell_eq h, h.not_left, not_arrow_within_respellRight right⟩

theorem isLine_respell {line left right : List Char} (hline : '\n' ∉ line)
    (h : Halves line left right) : Text.IsLine (respell line) := by
  rw [respell_eq h, List.append_assoc]
  constructor
  · rw [h.eq_append, List.append_assoc] at hline
    simp only [List.mem_append, not_or] at hline ⊢
    exact ⟨hline.1, hline.2.1, not_mem_respellRight (by decide) (by decide)⟩
  · have hne : arrow ++ respellRight right ≠ [] := by simp [arrow]
    rw [List.getLast?_append_of_ne_nil _ hne]
    intro hlast
    rcases List.mem_append.mp (List.mem_of_getLast? hlast) with hmem | hmem
    · revert hmem
      decide
    · exact not_mem_respellRight (by decide) (by decide) hmem

theorem not_blank_respell {line left right : List Char} (h : Halves line left right) :
    (respell line).all Text.isBlank = false := by
  rw [respell_eq h, List.all_eq_false]
  exact ⟨'-', by simp [arrow], by decide⟩

/-- Rule lines have a text of their own in the spaced notation, at their old numbers. -/
theorem exists_respelled {cs : List Char} {lines : List (Nat × List Char)}
    (hlines : lines <:+: numberedLines cs)
    (harrow : ∀ entry ∈ lines, ∃ left right, Halves entry.2 left right) :
    ∃ cs', numberedLines cs' = lines.map fun entry => (entry.1, respell entry.2) := by
  have hsorted := (pairwise_numberedLines cs).sublist hlines.sublist
  refine ⟨_, numberedLines_layOut (List.pairwise_map.mpr hsorted) ?_⟩
  simp only [List.forall_mem_map]
  rintro ⟨n, line⟩ hmem
  obtain ⟨k, rfl, hline, -⟩ := mem_numberedLines.mp (hlines.subset hmem)
  obtain ⟨left, right, h⟩ := harrow _ hmem
  have hnewline := Text.not_mem_newline_of_mem_lines (List.mem_of_getElem? hline)
  exact ⟨Nat.succ_pos k, isLine_respell hnewline h, not_blank_respell h⟩

/-! Alternatives. -/

/-- An alternative spelled in both notations: the empty string has a name in the second one. -/
def SameAlternative (alternative alternative' : List String) : Prop :=
  alternative' = alternative ∨ alternative = [] ∧ alternative' = [epsilonName]

theorem words_respellAlternative (alternative : List Char) :
    Text.words (respellAlternative alternative) =
      if Text.squeeze alternative = ['e'] then [epsilonName.toList]
      else (Text.squeeze alternative).map fun c => [c] := by
  unfold respellAlternative
  split
  · decide
  · refine Text.words_intercalate fun w hw => ?_
    obtain ⟨c, hc, rfl⟩ := List.mem_map.mp hw
    exact ⟨by simp, by simpa using Text.isBlank_of_mem_squeeze hc⟩

/-- Both notations have the same alternatives on a right side and its respelling. -/
theorem alternatives_respellRight (right : List Char) :
    List.Forall₂ SameAlternative (alternatives right) (Spaced.alternatives (respellRight right)) := by
  have hpieces : Text.splitOn '|' (respellRight right) =
      (Text.splitOn '|' right).map respellAlternative := by
    rw [respellRight, ← Text.splitOn_eq]
    refine Text.splitOn_intercalate ?_ (by simpa using Text.splitOn_ne_nil '|' right)
    intro piece hpiece
    obtain ⟨alternative, halternative, rfl⟩ := List.mem_map.mp hpiece
    exact bar_not_mem_respellAlternative (Text.within_of_mem_splitOn halternative).2
  rw [Spaced.alternatives, hpieces, List.map_map, alternatives, List.forall₂_map_left_iff,
    List.forall₂_map_right_iff, List.forall₂_same]
  intro alternative _
  rw [Function.comp_apply, words_respellAlternative]
  by_cases he : Text.squeeze alternative = ['e']
  · exact .inr ⟨if_pos he, by simp [he]⟩
  · exact .inl (by simp [he])

/-! The two rounds. -/

variable {g : Grammar}

structure SameRule (rule rule' : Rule) : Prop where
  line_eq : rule'.line = rule.line
  left_eq : rule'.left = rule.left
  alternatives : List.Forall₂ SameAlternative rule.alternatives rule'.alternatives

/-- Both readers declare the same left side on a rule line. -/
theorem readLine_respell (g : Grammar) (previous : Option Nat) (n : Nat) {line left right : List Char}
    (h : Halves line left right) :
    readLine g n line = (declare g n left).map (fun (g, i) => (g, i, right)) ∧
      Spaced.readLine g previous n (respell line) =
        (declare g n left).map fun (g, i) => (g, i, respellRight right) := by
  rw [readLine, Spaced.readLine, h.splitArrows_eq, (halves_respell h).splitArrows_eq]
  dsimp only
  cases declare g n left <;> exact ⟨rfl, rfl⟩

/-- The first round stops at the same line, or makes the same grammar out of the same rules. -/
theorem declareAll_respell {lines : List (Nat × List Char)}
    (harrow : ∀ entry ∈ lines, ∃ left right, Halves entry.2 left right) (g : Grammar)
    (previous : Option Nat) :
    (∃ e, declareAll g lines = .error e ∧
      Spaced.declareAll g previous (lines.map fun entry => (entry.1, respell entry.2)) = .error e) ∨
    ∃ g' rules rules', declareAll g lines = .ok (g', rules) ∧
      Spaced.declareAll g previous (lines.map fun entry => (entry.1, respell entry.2)) =
        .ok (g', rules') ∧
      rules.length = lines.length ∧ List.Forall₂ SameRule rules rules' := by
  induction lines generalizing g previous with
  | nil => exact .inr ⟨g, [], [], rfl, rfl, rfl, .nil⟩
  | cons entry lines ih =>
      obtain ⟨n, line⟩ := entry
      obtain ⟨⟨left, right, h⟩, harrow⟩ := List.forall_mem_cons.mp harrow
      obtain ⟨hread, hread'⟩ := readLine_respell g previous n h
      rw [List.map_cons, declareAll, Spaced.declareAll, hread, hread']
      cases declare g n left with
      | error e => exact .inl ⟨e, rfl, rfl⟩
      | ok declared =>
          obtain ⟨g₁, i⟩ := declared
          rcases ih harrow g₁ (some i) with ⟨e, hrest, hrest'⟩ |
            ⟨g₂, rules, rules', hrest, hrest', hlength, hrules⟩
          · exact .inl ⟨e, bind_eq_error.mpr (.inr ⟨_, rfl, bind_eq_error.mpr (.inl hrest)⟩),
              bind_eq_error.mpr (.inr ⟨_, rfl, bind_eq_error.mpr (.inl hrest')⟩)⟩
          · exact .inr ⟨g₂, ⟨n, i, alternatives right⟩ :: rules,
              ⟨n, i, Spaced.alternatives (respellRight right)⟩ :: rules',
              bind_eq_ok.mpr ⟨_, rfl, bind_eq_ok.mpr ⟨_, hrest, rfl⟩⟩,
              bind_eq_ok.mpr ⟨_, rfl, bind_eq_ok.mpr ⟨_, hrest', rfl⟩⟩,
              congrArg Nat.succ hlength, .cons ⟨rfl, rfl, alternatives_respellRight right⟩ hrules⟩

/-- The empty alternative and the name of the empty string come to the same body. -/
theorem addAlternative_eq_of_same {line left : Nat} {alternative alternative' : List String}
    (hg : g.WellFormed) (h : SameAlternative alternative alternative') :
    addAlternative g line left alternative = addAlternative g line left alternative' := by
  rcases h with rfl | ⟨rfl, rfl⟩
  · rfl
  · have hindex : g.index? epsilonName = some epsilon :=
      hg.index_of_name (by rw [Grammar.name?, hg.epsilon_symbol]; rfl)
    have hresolve : resolveAll g line [epsilonName] = .ok (g, [epsilon]) := by
      rw [resolveAll, resolve, if_neg (by decide), hindex]
      rfl
    rw [addAlternative, addAlternative, hresolve]
    rfl

/-- The second round does the same in both notations. -/
theorem addRules_eq_of_same {rules rules' : List Rule} (hg : g.WellFormed)
    (h : List.Forall₂ SameRule rules rules') : addRules g rules = addRules g rules' := by
  refine foldlM_eq_of_forall₂ Grammar.WellFormed ?_ ?_ h hg
  · intro g rule rule' hg hrule
    rw [hrule.line_eq, hrule.left_eq]
    refine foldlM_eq_of_forall₂ Grammar.WellFormed ?_ ?_ hrule.alternatives hg
    · exact fun g _ _ hg h => addAlternative_eq_of_same hg h
    · exact fun g _ g' hg h => addAlternative_keeps (kept_wellFormed fun _ => True) hg (by simp) h
  · intro g rule g' hg hrule
    have hone : addRules g [rule] = .ok g' := by simpa [addRules] using hrule
    exact addRules_keeps (kept_wellFormed fun _ => True) hg (fun _ _ _ _ => trivial) hone

/-- Where a text in the compact notation has as many rule lines as it promises, it is read as its rule
lines are in the spaced notation, but starts with `S`. -/
theorem compact_agrees_with_spaced {text : String} {n count : Nat} {first : List Char}
    {rest : List (Nat × List Char)} (hlines : numberedLines text.toList = (n, first) :: rest)
    (hcount : Text.count? (Text.trim first) = some count) (hpos : 1 ≤ count)
    (hlength : count ≤ rest.length)
    (harrow : ∀ entry ∈ rest.take count, ∃ left right, Halves entry.2 left right) :
    (∃ respelled : String, numberedLines respelled.toList =
      (rest.take count).map fun entry => (entry.1, respell entry.2)) ∧
    ∀ respelled : String, numberedLines respelled.toList =
        (rest.take count).map (fun entry => (entry.1, respell entry.2)) →
      (∃ e, Grammar.read .spaced respelled = .error e ∧ Grammar.read .compact text = .error e) ∨
      ∃ g, Grammar.read .spaced respelled = .ok g ∧
        ((∃ i, g.index? startName = some i ∧ g.isNonterminal i = true ∧
            Grammar.read .compact text = .ok { g with start := i }) ∨
          (¬ ∃ i, g.index? startName = some i ∧ g.isNonterminal i = true) ∧
            Grammar.read .compact text = .error (.missingStart startName)) := by
  have hrules : ruleLines text.toList = .ok (rest.take count) := by
    simp [ruleLines, hlines, hcount, Nat.one_le_iff_ne_zero.mp hpos, Nat.not_lt.mpr hlength]
  have hwithin : rest.take count <:+: numberedLines text.toList := by
    rw [hlines]
    exact (List.take_prefix count rest).isInfix.trans (List.suffix_cons _ rest).isInfix
  refine ⟨?_, fun respelled hrespelled => ?_⟩
  · obtain ⟨cs, hcs⟩ := exists_respelled hwithin harrow
    exact ⟨String.ofList cs, by rwa [String.toList_ofList]⟩
  simp only [Grammar.read, read, Spaced.read, hrules, hrespelled]
  rcases declareAll_respell harrow ∅ none with ⟨e, hread, hread'⟩ |
    ⟨g, rules, rules', hread, hread', hrulesLength, hsame⟩
  · left
    refine ⟨e, ?_, ?_⟩
    · rw [hread']
      rfl
    · simp only [bind, Except.bind, hread]
  · have hne : rules'.isEmpty = false := by
      rw [List.isEmpty_eq_false_iff, ← List.length_pos_iff, ← hsame.length_eq, hrulesLength,
        List.length_take]
      omega
    have hg := (declareAll_keeps (kept_wellFormed _) .empty hread).1
    simp only [hread, hread', bind, Except.bind, hne]
    rw [← addRules_eq_of_same hg hsame]
    cases hadd : addRules g rules with
    | error e => exact .inl ⟨e, rfl, rfl⟩
    | ok g' =>
        right
        refine ⟨g', rfl, ?_⟩
        dsimp only
        cases hindex : g'.index? startName with
        | none => exact .inr ⟨by simp, rfl⟩
        | some i =>
            by_cases hkind : g'.isNonterminal i = true
            · exact .inl ⟨i, rfl, hkind, if_pos hkind⟩
            · exact .inr ⟨by simpa using hkind, if_neg hkind⟩

theorem compact_agrees_on_late_start :
    ∃ g i, Grammar.read .spaced "\n\nA ->a b|ϵ\nS->A e" = .ok g ∧
      g.index? startName = some i ∧ g.start ≠ i ∧
      Grammar.read .compact "2\n\nA -> a b | e\nS->Ae\n-> x" = .ok { g with start := i } := by
  have hlines : numberedLines "2\n\nA -> a b | e\nS->Ae\n-> x".toList = (1, ['2']) ::
      [(3, "A -> a b | e".toList), (4, "S->Ae".toList), (5, "-> x".toList)] := by decide +kernel
  have hcount : Text.count? (Text.trim ['2']) = some 2 := by decide +kernel
  have harrow : ∀ entry ∈ [(3, "A -> a b | e".toList), (4, "S->Ae".toList)],
      ∃ left right, Halves entry.2 left right := by
    simp only [List.forall_mem_cons, List.not_mem_nil, false_implies, implies_true, and_true]
    exact ⟨⟨"A ".toList, " a b | e".toList, rfl, by decide, by decide⟩,
      ⟨"S".toList, "Ae".toList, rfl, by decide, by decide⟩⟩
  have hread : ((Grammar.read .spaced "\n\nA ->a b|ϵ\nS->A e").toOption.bind fun g =>
      (g.index? startName).map fun i => decide (g.start ≠ i) && g.isNonterminal i) = some true := by
    decide +kernel
  simp only [Option.bind_eq_some_iff, Option.map_eq_some_iff, toOption_eq_some, Bool.and_eq_true,
    decide_eq_true_eq] at hread
  obtain ⟨g, hg, i, hi, hstart, hkind⟩ := hread
  obtain ⟨-, hagrees⟩ :=
    compact_agrees_with_spaced hlines hcount (by decide) (by decide) harrow
  rcases hagrees "\n\nA ->a b|ϵ\nS->A e" (by decide +kernel) with ⟨e, hfails, -⟩ |
    ⟨g', hg', ⟨i', hi', -, hcompact⟩ | ⟨hmissing, -⟩⟩
  · rw [hg] at hfails
    cases hfails
  · obtain rfl := Except.ok.inj (hg.symm.trans hg')
    obtain rfl := Option.some.inj (hi.symm.trans hi')
    exact ⟨g, i, hg, hi, hstart, hcompact⟩
  · obtain rfl := Except.ok.inj (hg.symm.trans hg')
    exact absurd ⟨i, hi, hkind⟩ hmissing

end Lookahead.Reader.Compact
