import Lookahead.Proofs.Reader.Outline
import Lookahead.Proofs.Text.Lines
import Lookahead.Reader

/-!
What the spaced notation is. The lines of a text spell rules one after the other, and the grammar that
is read is the one that these rules stand for. The first line that spells no rule is reported; where
every line does, it is an error to have no rule, and then to name the end of the input.
-/

namespace Lookahead.Reader.Spaced

open Text (arrow Halves IsWord)

def spelled (right : List Char) : List (List String) :=
  (right.splitOn '|').map fun piece =>
    ((piece.splitOnP Text.isBlank).filter (· ≠ [])).map String.ofList

theorem alternatives_eq (right : List Char) : alternatives right = spelled right := by
  simp only [alternatives, spelled, Text.splitOn_eq, Text.words_eq]

/-- What is written on the right of a line: the text after the arrow, or after the bar where there is
no arrow. -/
inductive RightSide (line : List Char) : List Char → Prop
  | ofRule {left right : List Char} (h : Halves line left right) : RightSide line right
  | ofBar {right : List Char} (h : ¬ arrow <:+: line) (hbar : Text.trim line = '|' :: right) :
      RightSide line right

/-- The line spells alternatives on `right` for `left`, which is `previous` where the line starts with
a bar. -/
inductive Spells (previous : Option String) (line : List Char) : String → List Char → Prop
  | rule {left right : List Char} {name : String} (h : Halves line left right)
      (hleft : IsWord (Text.trim left)) (hname : String.ofList (Text.trim left) = name)
      (hfree : name ∉ reservedNames) : Spells previous line name right
  | goOn {name : String} {right : List Char} (h : ¬ arrow <:+: line)
      (hbar : Text.trim line = '|' :: right) (hprevious : previous = some name) :
      Spells previous line name right

inductive SpellsAll : Option String → List (List Char) → Outline → Prop
  | nil {previous : Option String} : SpellsAll previous [] []
  | cons {previous : Option String} {line right : List Char} {left : String}
      {lines : List (List Char)} {o : Outline} (h : Spells previous line left right)
      (hlines : SpellsAll (some left) lines o) :
      SpellsAll previous (line :: lines) (⟨left, spelled right⟩ :: o)

/-- What may stand on a line: at most one arrow with one word to its left that is not reserved, or no
arrow and a bar in front, but not at first. -/
structure InShape (first : Prop) (line : List Char) : Prop where
  one_arrow : ∀ u v w, line ≠ u ++ arrow ++ (v ++ arrow ++ w)
  bar : ¬ arrow <:+: line → ¬ first ∧ ∃ right, Text.trim line = '|' :: right
  left_side : ∀ left right, line = left ++ arrow ++ right →
    IsWord (Text.trim left) ∧ String.ofList (Text.trim left) ∉ reservedNames

/-- What is wrong with a line that is not in shape. -/
inductive Faulty (first : Prop) (line : List Char) : LineFault → Prop
  | manyArrows {u v w : List Char} (h : line = u ++ arrow ++ (v ++ arrow ++ w)) :
      Faulty first line .manyArrows
  | noLeftSide (h : ¬ arrow <:+: line) (hfirst : first) : Faulty first line .noLeftSide
  | neitherArrowNorBar (h : ¬ arrow <:+: line) (hfirst : ¬ first)
      (hbar : ∀ right, Text.trim line ≠ '|' :: right) : Faulty first line .neitherArrowNorBar
  | emptyLeftSide {left right : List Char} (h : Halves line left right)
      (hleft : Text.trim left = []) : Faulty first line .emptyLeftSide
  | blankInLeftSide {left right : List Char} {b : Char} (h : Halves line left right)
      (hmem : b ∈ Text.trim left) (hb : Text.isBlank b = true) : Faulty first line .blankInLeftSide
  | reservedLeftSide {left right : List Char} {name : String} (h : Halves line left right)
      (hleft : IsWord (Text.trim left)) (hname : String.ofList (Text.trim left) = name)
      (hreserved : name ∈ reservedNames) : Faulty first line (.reservedLeftSide name)

/-- An alternative on the line names the end of the input. -/
def NamesEndMark (line : List Char) : Prop :=
  ∃ right, RightSide line right ∧ endMarkName ∈ (spelled right).flatten

/-! One line. -/

theorem RightSide.unique {line right right' : List Char} (h : RightSide line right)
    (h' : RightSide line right') : right = right' := by
  cases h with
  | ofRule h =>
      cases h' with
      | ofRule h' => exact (h'.unique h.eq_append).2
      | ofBar h' => exact absurd h.arrow_within h'
  | ofBar h hbar =>
      cases h' with
      | ofRule h' => exact absurd h'.arrow_within h
      | ofBar h' hbar' => exact (List.cons.inj (hbar.symm.trans hbar')).2

theorem RightSide.namesEndMark_iff {line right : List Char} (h : RightSide line right) :
    NamesEndMark line ↔ endMarkName ∈ (spelled right).flatten := by
  constructor
  · rintro ⟨right', hright', hmem⟩
    exact h.unique hright' ▸ hmem
  · exact fun hmem => ⟨right, h, hmem⟩

theorem Spells.rightSide {previous : Option String} {line right : List Char} {left : String}
    (h : Spells previous line left right) : RightSide line right := by
  cases h with
  | rule h => exact .ofRule h
  | goOn h hbar => exact .ofBar h hbar

theorem Spells.unique {previous : Option String} {line right right' : List Char} {left left' : String}
    (h : Spells previous line left right) (h' : Spells previous line left' right') :
    left = left' ∧ right = right' := by
  refine ⟨?_, h.rightSide.unique h'.rightSide⟩
  cases h with
  | rule h _ hname =>
      cases h' with
      | rule h' _ hname' =>
          obtain ⟨rfl, -⟩ := h.unique h'.eq_append
          exact hname.symm.trans hname'
      | goOn h' => exact absurd h.arrow_within h'
  | goOn h _ hprevious =>
      cases h' with
      | rule h' => exact absurd h'.arrow_within h
      | goOn _ _ hprevious' => exact Option.some.inj (hprevious.symm.trans hprevious')

theorem Spells.inShape {previous : Option String} {line right : List Char} {left : String}
    (h : Spells previous line left right) : InShape (previous = none) line := by
  cases h with
  | rule h hleft hname hfree =>
      subst hname
      refine ⟨fun u v w => h.ne_two_arrows, fun hnot => absurd h.arrow_within hnot, ?_⟩
      intro left' right' hsplit
      obtain ⟨rfl, -⟩ := h.unique hsplit
      exact ⟨hleft, hfree⟩
  | goOn h hbar hprevious =>
      have harrow : ∀ left right, line ≠ left ++ arrow ++ right := by
        rintro left right rfl
        exact h ⟨left, right, rfl⟩
      refine ⟨fun u v w => harrow u _, fun _ => ⟨by simp [hprevious], _, hbar⟩, ?_⟩
      exact fun left right hsplit => absurd hsplit (harrow left right)

/-- A line with a fault is not in shape. -/
theorem Faulty.not_inShape {first : Prop} {line : List Char} {fault : LineFault}
    (h : Faulty first line fault) : ¬ InShape first line := by
  intro hshape
  cases h with
  | manyArrows h => exact hshape.one_arrow _ _ _ h
  | noLeftSide h hfirst => exact (hshape.bar h).1 hfirst
  | neitherArrowNorBar h _ hbar =>
      obtain ⟨right, hright⟩ := (hshape.bar h).2
      exact hbar right hright
  | emptyLeftSide h hleft => exact (hshape.left_side _ _ h.eq_append).1.1 hleft
  | blankInLeftSide h hmem hb =>
      exact (hshape.left_side _ _ h.eq_append).1.not_mem_of_isBlank hb hmem
  | reservedLeftSide h _ hname hreserved =>
      exact (hshape.left_side _ _ h.eq_append).2 (hname ▸ hreserved)

/-! All lines. -/

namespace SpellsAll

variable {previous : Option String} {lines : List (List Char)} {o : Outline}

theorem unique (h : SpellsAll previous lines o) {o' : Outline} (h' : SpellsAll previous lines o') :
    o = o' := by
  induction h generalizing o' with
  | nil => cases h' with | nil => rfl
  | cons h _ ih =>
      cases h' with
      | cons h' hlines' =>
          obtain ⟨rfl, rfl⟩ := h.unique h'
          rw [ih hlines']

theorem inShape (h : SpellsAll previous lines o) {before after : List (List Char)} {line : List Char}
    (hsplit : lines = before ++ line :: after) : InShape (previous = none ∧ before = []) line := by
  induction h generalizing before with
  | nil => simp at hsplit
  | cons h _ ih =>
      cases before with
      | nil =>
          obtain ⟨rfl, -⟩ := List.cons.inj hsplit
          simpa using h.inShape
      | cons first before =>
          obtain ⟨-, hsplit⟩ := List.cons.inj hsplit
          simpa using ih hsplit

theorem endMark_mem_uses_iff (h : SpellsAll previous lines o) :
    endMarkName ∈ o.uses ↔ ∃ line ∈ lines, NamesEndMark line := by
  induction h with
  | nil => simp [Outline.uses]
  | cons h _ ih =>
      rw [Outline.uses_cons, List.mem_append, ih, List.exists_mem_cons_iff,
        h.rightSide.namesEndMark_iff]

end SpellsAll

/-! The first round. -/

variable {g : Grammar} {declared : List String}

def lastLeft (declared : List String) : Option Nat :=
  declared.getLast?.map (numberIn (namesOf declared.eraseDups []))

theorem lastLeft_concat (declared : List String) (name : String) :
    some (numberIn (namesOf (declared ++ [name]).eraseDups []) name) = lastLeft (declared ++ [name]) := by
  simp [lastLeft]

/-- A line is read as it is spelled, and the grammar has its left side then, or it is refused for its
fault. -/
theorem readLine_cases (h : g.Lists declared.eraseDups [] fun _ => []) (n : Nat) (line : List Char) :
    (∃ name right g', Spells declared.getLast? line name right ∧
      readLine g (lastLeft declared) n line =
        .ok (g', numberIn (namesOf (declared ++ [name]).eraseDups []) name, right) ∧
      g'.Lists (declared ++ [name]).eraseDups [] fun _ => []) ∨
    ∃ fault, Faulty (declared = []) line fault ∧
      readLine g (lastLeft declared) n line = .error (.malformed n fault) := by
  rcases Text.splitArrows_cases line with hnone | ⟨left, right, hone⟩ | ⟨u, v, w, rfl⟩
  · have hcut := Text.splitArrows_of_no_arrow hnone
    cases hlast : declared.getLast? with
    | none =>
        obtain rfl : declared = [] := List.getLast?_eq_none_iff.mp hlast
        exact .inr ⟨.noLeftSide, .noLeftSide hnone rfl, by simp [readLine, hcut, lastLeft]⟩
    | some name =>
        have hmem : name ∈ declared := List.mem_of_getLast? hlast
        have hdups : (declared ++ [name]).eraseDups = declared.eraseDups := by
          rw [eraseDups_concat, if_pos hmem]
        by_cases hbar : ∃ right, Text.trim line = '|' :: right
        · obtain ⟨right, hright⟩ := hbar
          refine .inl ⟨name, right, g, .goOn hnone hright rfl, ?_, hdups ▸ h⟩
          simp [readLine, hcut, lastLeft, hlast, hright, hdups]
        · simp only [not_exists] at hbar
          refine .inr ⟨.neitherArrowNorBar, .neitherArrowNorBar hnone ?_ hbar, ?_⟩
          · rintro rfl
            cases hlast
          · simp [readLine, hcut, lastLeft, hlast]
  · have hread : readLine g (lastLeft declared) n line = do
        let declared ← declare g n left
        return (declared.1, declared.2, right) := by
      rw [readLine, hone.splitArrows_eq]
    rw [hread]
    by_cases hempty : Text.trim left = []
    · exact .inr ⟨_, .emptyLeftSide hone hempty, by rw [declare_of_empty g n hempty]; rfl⟩
    by_cases hblank : ∃ b ∈ Text.trim left, Text.isBlank b = true
    · obtain ⟨b, hmem, hb⟩ := hblank
      exact .inr ⟨_, .blankInLeftSide hone hmem hb, by rw [declare_of_blank g n hmem hb]; rfl⟩
    have hword : IsWord (Text.trim left) := ⟨hempty, by simpa using hblank⟩
    generalize hname : String.ofList (Text.trim left) = name
    by_cases hreserved : name ∈ reservedNames
    · exact .inr ⟨_, .reservedLeftSide hone hword hname hreserved,
        by rw [declare_of_reserved h n hword hname hreserved]; rfl⟩
    · obtain ⟨g', hdeclare, hg'⟩ := declare_eq_ok h n hword hname hreserved
      exact .inl ⟨name, right, g', .rule hone hword hname hreserved, by rw [hdeclare]; rfl, hg'⟩
  · obtain ⟨first, second, third, more, hcut⟩ := Text.splitArrows_of_two u v w
    exact .inr ⟨.manyArrows, .manyArrows rfl, by simp only [readLine, hcut]⟩

def StandsOn (rule : Rule) (entry : Nat × List Char) : Prop :=
  rule.line = entry.1 ∧ ∃ right, RightSide entry.2 right ∧ rule.alternatives = spelled right

theorem StandsOn.namesEndMark_iff {rule : Rule} {entry : Nat × List Char} (h : StandsOn rule entry) :
    endMarkName ∈ rule.alternatives.flatten ↔ NamesEndMark entry.2 := by
  obtain ⟨-, right, hright, halternatives⟩ := h
  rw [halternatives, hright.namesEndMark_iff]

/-- The first rule that names the end of the input stands on the first line that does. -/
theorem exists_first_line {rules : List Rule} {lines : List (Nat × List Char)}
    (h : List.Forall₂ StandsOn rules lines) {rule : Rule}
    (hfind : rules.find? (fun rule => endMarkName ∈ rule.alternatives.flatten) = some rule) :
    ∃ before line after, lines = before ++ (rule.line, line) :: after ∧ NamesEndMark line ∧
      ∀ entry ∈ before, ¬ NamesEndMark entry.2 := by
  induction h with
  | nil => cases hfind
  | @cons first entry rules lines hfirst _ ih =>
      by_cases hmark : endMarkName ∈ first.alternatives.flatten
      · rw [List.find?_cons_of_pos (by simpa only [decide_eq_true_eq] using hmark)] at hfind
        obtain rfl : first = rule := Option.some.inj hfind
        refine ⟨[], entry.2, lines, ?_, hfirst.namesEndMark_iff.mp hmark, by simp⟩
        rw [hfirst.1]
        rfl
      · rw [List.find?_cons_of_neg (by simpa only [decide_eq_true_eq] using hmark)] at hfind
        obtain ⟨before, line, after, rfl, hline, hbefore⟩ := ih hfind
        refine ⟨entry :: before, line, after, rfl, hline, List.forall_mem_cons.mpr ⟨?_, hbefore⟩⟩
        exact fun h => hmark (hfirst.namesEndMark_iff.mpr h)

/-- The first round declares the left sides of the rules that are spelled, or stops at the first line
that spells none. -/
theorem declareAll_cases (h : g.Lists declared.eraseDups [] fun _ => [])
    (lines : List (Nat × List Char)) :
    (∃ o g' rules, SpellsAll declared.getLast? (lines.map Prod.snd) o ∧
      declareAll g (lastLeft declared) lines = .ok (g', rules) ∧
      g'.Lists (declared ++ o.map NamedRule.left).eraseDups [] (fun _ => []) ∧
      List.Forall₂ StandsOn rules lines ∧
      ∀ final, namesOf (declared ++ o.map NamedRule.left).eraseDups [] <+: final →
        Numbers final rules o) ∨
    ∃ before n line after fault o, lines = before ++ (n, line) :: after ∧
      SpellsAll declared.getLast? (before.map Prod.snd) o ∧
      Faulty (declared = [] ∧ before = []) line fault ∧
      declareAll g (lastLeft declared) lines = .error (.malformed n fault) := by
  -- the left sides read so far determine the grammar and the number that a bar goes on with
  induction lines generalizing g declared with
  | nil => exact .inl ⟨[], g, [], .nil, rfl, by simpa using h, .nil, fun _ _ => .nil⟩
  | cons entry lines ih =>
      obtain ⟨n, line⟩ := entry
      rcases readLine_cases h n line with ⟨name, right, g₁, hspells, hread, h₁⟩ | ⟨fault, hfault, hread⟩
      · have hlast : (declared ++ [name]).getLast? = some name := by simp
        have hdeclare : declareAll g (lastLeft declared) ((n, line) :: lines) = do
            let rest ← declareAll g₁ (lastLeft (declared ++ [name])) lines
            return (rest.1, ⟨n, numberIn (namesOf (declared ++ [name]).eraseDups []) name,
              alternatives right⟩ :: rest.2) := by
          rw [declareAll, hread, ← lastLeft_concat]
          rfl
        rw [hdeclare]
        rcases ih h₁ with ⟨o, g₂, rules, hall, hrest, h₂, hlines, hrules⟩ |
          ⟨before, m, bad, after, fault, o, rfl, hall, hfault, hrest⟩
        · rw [hlast] at hall
          refine .inl ⟨⟨name, spelled right⟩ :: o, g₂, _, .cons hspells hall, by rw [hrest]; rfl,
            by simpa using h₂, .cons ⟨rfl, right, hspells.rightSide, alternatives_eq right⟩ hlines,
            fun final hfinal => ?_⟩
          have hsplit : declared ++ (⟨name, spelled right⟩ :: o).map NamedRule.left =
              declared ++ [name] ++ o.map NamedRule.left := by simp
          rw [hsplit] at hfinal
          have hbefore := (prefix_namesOf_lefts (prefix_eraseDups (declared ++ [name]) _) []).trans hfinal
          refine .cons ⟨?_, alternatives_eq right⟩ (hrules final hfinal)
          rw [numberIn_stable hbefore]
          exact mem_namesOf_iff.mpr (.inr (.inl (List.mem_eraseDups.mpr (by simp))))
        · rw [hlast] at hall
          refine .inr ⟨(n, line) :: before, m, bad, after, fault, _, rfl, .cons hspells hall, ?_,
            by rw [hrest]; rfl⟩
          simpa using hfault
      · refine .inr ⟨[], n, line, lines, fault, [], rfl, .nil, by simpa using hfault, ?_⟩
        rw [declareAll, hread]
        rfl

/-! Both rounds. -/

/-- A text has a first line that spells no rule, no rule, a first rule that names the end of the input,
or else it is read. -/
theorem read_cases (cs : List Char) :
    (∃ before n line after fault o, numberedLines cs = before ++ (n, line) :: after ∧
      SpellsAll none (before.map Prod.snd) o ∧ Faulty (before = []) line fault ∧
      read cs = .error (.malformed n fault)) ∨
    ∃ o, SpellsAll none ((numberedLines cs).map Prod.snd) o ∧
      (numberedLines cs = [] ∧ read cs = .error .noRules ∨
        (∃ before n line after, numberedLines cs = before ++ (n, line) :: after ∧
          NamesEndMark line ∧ (∀ entry ∈ before, ¬ NamesEndMark entry.2) ∧
          read cs = .error (.malformed n .endMarkInBody)) ∨
        numberedLines cs ≠ [] ∧ endMarkName ∉ o.uses ∧ ∃ g, read cs = .ok g ∧ o.Describes g) := by
  have hempty : (∅ : Grammar).Lists ([] : List String).eraseDups [] fun _ => [] := Grammar.Lists.empty
  rcases declareAll_cases hempty (numberedLines cs) with
    ⟨o, g, rules, hall, hread, hg, hlines, hrules⟩ |
    ⟨before, n, line, after, fault, o, hsplit, hall, hfault, hread⟩
  · refine .inr ⟨o, hall, ?_⟩
    have hread : read cs = if rules.isEmpty then .error .noRules else addRules g rules := by
      unfold read
      change (declareAll ∅ (lastLeft []) (numberedLines cs) >>= _) = _
      rw [hread]
      change (if rules.isEmpty then _ else _) = _
      split <;> rfl
    rw [hread]
    by_cases hnil : numberedLines cs = []
    · obtain rfl : rules = [] := by
        rw [hnil] at hlines
        exact List.forall₂_nil_right_iff.mp hlines
      exact .inl ⟨hnil, rfl⟩
    have hne : rules.isEmpty = false := by
      rw [List.isEmpty_eq_false_iff]
      rintro rfl
      exact hnil (List.forall₂_nil_left_iff.mp hlines)
    rw [hne, if_neg Bool.false_ne_true]
    have hnumbers := hrules o.names (prefix_namesOf_lefts (List.prefix_refl _) _)
    cases hfind : rules.find? (fun rule => endMarkName ∈ rule.alternatives.flatten) with
    | some rule =>
        obtain ⟨before, line, after, hsplit, hline, hbefore⟩ := exists_first_line hlines hfind
        exact .inr (.inl ⟨before, rule.line, line, after, hsplit, hline, hbefore,
          addRules_eq_error_iff.mpr ⟨rule, hfind, rfl⟩⟩)
    | none =>
        have hmark : endMarkName ∉ o.uses := by
          simp only [hnumbers.uses_eq, List.mem_flatten, List.mem_flatMap, not_exists, not_and]
          rintro alternative ⟨rule, hrule, halternative⟩ hmem
          have hnot := List.find?_eq_none.mp hfind rule hrule
          exact hnot (decide_eq_true (List.mem_flatten.mpr ⟨alternative, halternative, hmem⟩))
        obtain ⟨g', hread, hg'⟩ := addRules_describes hg hnumbers hmark
        exact .inr (.inr ⟨hnil, hmark, g', hread, hg'⟩)
  · exact .inl ⟨before, n, line, after, fault, o, hsplit, hall, by simpa using hfault, by
      unfold read
      change (declareAll ∅ (lastLeft []) (numberedLines cs) >>= _) = _
      rw [hread]
      rfl⟩

/-- Lines that spell rules without the end of the input are read. -/
theorem read_of_spellsAll {cs : List Char} {o : Outline}
    (h : SpellsAll none ((numberedLines cs).map Prod.snd) o) (hne : o ≠ [])
    (hmark : endMarkName ∉ o.uses) : ∃ g, read cs = .ok g ∧ o.Describes g := by
  rcases read_cases cs with ⟨before, n, line, after, fault, -, hsplit, -, hfault, -⟩ |
    ⟨o', hall, ⟨hnil, -⟩ | ⟨before, n, line, after, hsplit, hline, -⟩ | ⟨-, -, g, hread, hg⟩⟩
  · have hlines : (numberedLines cs).map Prod.snd =
        before.map Prod.snd ++ line :: after.map Prod.snd := by simp [hsplit]
    exact absurd (by simpa using h.inShape hlines) hfault.not_inShape
  · rw [hnil] at h
    cases h
    exact absurd rfl hne
  · exact absurd (h.endMark_mem_uses_iff.mpr ⟨line, by simp [hsplit], hline⟩) hmark
  · obtain rfl := h.unique hall
    exact ⟨g, hread, hg⟩

/-- A grammar that is read stands for rules that its lines spell. -/
theorem exists_spellsAll_of_read {cs : List Char} (h : read cs = .ok g) :
    ∃ o, SpellsAll none ((numberedLines cs).map Prod.snd) o ∧ o ≠ [] ∧ endMarkName ∉ o.uses ∧
      o.Describes g := by
  rcases read_cases cs with ⟨before, n, line, after, fault, o, -, -, -, hread⟩ |
    ⟨o, hall, ⟨-, hread⟩ | ⟨before, n, line, after, -, -, -, hread⟩ | ⟨hne, hmark, g', hread, hg⟩⟩
  · cases hread.symm.trans h
  · cases hread.symm.trans h
  · cases hread.symm.trans h
  · obtain rfl := Except.ok.inj (hread.symm.trans h)
    refine ⟨o, hall, ?_, hmark, hg⟩
    rintro rfl
    generalize hlines : (numberedLines cs).map Prod.snd = lines at hall
    cases hall
    exact hne (List.map_eq_nil_iff.mp hlines)

theorem inShape_of_mem {cs line : List Char} {before after : List (Nat × List Char)} {o : Outline}
    {n : Nat} (hsplit : numberedLines cs = before ++ after)
    (h : SpellsAll none (before.map Prod.snd) o) (hmem : (n, line) ∈ before) :
    InShape (IsFirst cs n) line := by
  obtain ⟨u, v, rfl⟩ := List.append_of_mem hmem
  rw [List.append_assoc, List.cons_append] at hsplit
  rw [List.map_append, List.map_cons] at h
  simpa [isFirst_iff hsplit] using h.inShape rfl

/-- The four outcomes, told by the numbers of the lines. -/
theorem read_outcomes (cs : List Char) :
    (∃ n line fault, Stands cs n line ∧
      (∀ m line', Stands cs m line' → m < n → InShape (IsFirst cs m) line') ∧
      Faulty (IsFirst cs n) line fault ∧ read cs = .error (.malformed n fault)) ∨
    (∀ n line, Stands cs n line → InShape (IsFirst cs n) line) ∧
      ((¬ ∃ n line, Stands cs n line) ∧ read cs = .error .noRules ∨
        (∃ n line, Stands cs n line ∧ NamesEndMark line ∧
          (∀ m line', Stands cs m line' → m < n → ¬ NamesEndMark line') ∧
          read cs = .error (.malformed n .endMarkInBody)) ∨
        (∃ n line, Stands cs n line) ∧ (∀ n line, Stands cs n line → ¬ NamesEndMark line) ∧
          ∃ g o, read cs = .ok g ∧ SpellsAll none ((numberedLines cs).map Prod.snd) o ∧
            o.Describes g) := by
  rcases read_cases cs with ⟨before, n, line, after, fault, o, hsplit, hall, hfault, hread⟩ |
    ⟨o, hall, houtcome⟩
  · refine .inl ⟨n, line, fault, mem_numberedLines.mp (by simp [hsplit]), ?_, ?_, hread⟩
    · intro m line' hstands hlt
      exact inShape_of_mem hsplit hall ((mem_before_iff hsplit).mpr ⟨hstands, hlt⟩)
    · rwa [isFirst_iff hsplit]
  · refine .inr ⟨fun n line hstands => ?_, ?_⟩
    · exact inShape_of_mem (List.append_nil _).symm hall (mem_numberedLines.mpr hstands)
    rcases houtcome with ⟨hnil, hread⟩ | ⟨before, n, line, after, hsplit, hline, hbefore, hread⟩ |
      ⟨hne, hmark, g, hread, hg⟩
    · refine .inl ⟨?_, hread⟩
      rintro ⟨n, line, hstands⟩
      simpa [hnil] using mem_numberedLines.mpr hstands
    · refine .inr (.inl ⟨n, line, mem_numberedLines.mp (by simp [hsplit]), hline, ?_, hread⟩)
      exact fun m line' hstands hlt => hbefore _ ((mem_before_iff hsplit).mpr ⟨hstands, hlt⟩)
    · obtain ⟨⟨n, line⟩, lines, hlines⟩ := List.exists_cons_of_ne_nil hne
      refine .inr (.inr ⟨⟨n, line, mem_numberedLines.mp (by simp [hlines])⟩, ?_, g, o, hread, hall, hg⟩)
      intro n line hstands hnames
      have hmem := List.mem_map_of_mem (f := Prod.snd) (mem_numberedLines.mpr hstands)
      exact hmark (hall.endMark_mem_uses_iff.mpr ⟨line, hmem, hnames⟩)

/-- A text is read if and only if it has a line that is not blank, every such line is in shape and none
names the end of the input. The grammar is the one that the rules on its lines stand for. Otherwise the
error is that of the first line that is not in shape, or there is no rule, or it is that of the first
line that names the end of the input. -/
theorem reads_exactly (text : String) :
    ((∃ g, Grammar.read .spaced text = .ok g) ↔
      (∃ n line, Stands text.toList n line) ∧
      (∀ n line, Stands text.toList n line → InShape (IsFirst text.toList n) line) ∧
      ∀ n line, Stands text.toList n line → ¬ NamesEndMark line) ∧
    (∀ g, Grammar.read .spaced text = .ok g →
      ∃ o, SpellsAll none ((numberedLines text.toList).map Prod.snd) o ∧ o.Describes g) ∧
    ∀ e, Grammar.read .spaced text = .error e →
      (∃ n line fault, Stands text.toList n line ∧ ¬ InShape (IsFirst text.toList n) line ∧
        (∀ m line', Stands text.toList m line' → m < n → InShape (IsFirst text.toList m) line') ∧
        Faulty (IsFirst text.toList n) line fault ∧ e = .malformed n fault) ∨
      (∀ n line, Stands text.toList n line → InShape (IsFirst text.toList n) line) ∧
        ((¬ ∃ n line, Stands text.toList n line) ∧ e = .noRules ∨
          ∃ n line, Stands text.toList n line ∧ NamesEndMark line ∧
            (∀ m line', Stands text.toList m line' → m < n → ¬ NamesEndMark line') ∧
            e = .malformed n .endMarkInBody) := by
  change ((∃ g, read text.toList = .ok g) ↔ _) ∧ (∀ g, read text.toList = .ok g → _) ∧
    ∀ e, read text.toList = .error e → _
  generalize text.toList = cs
  rcases read_outcomes cs with ⟨n, line, fault, hstands, hbefore, hfault, hread⟩ |
    ⟨hshape, ⟨hnone, hread⟩ | ⟨n, line, hstands, hline, hbefore, hread⟩ | ⟨hsome, hmark, g, o, hread, hg⟩⟩
  · refine ⟨⟨?_, fun h => absurd (h.2.1 n line hstands) hfault.not_inShape⟩, ?_, ?_⟩
    · simp [hread]
    · simp [hread]
    · intro e he
      obtain rfl := Except.error.inj (hread.symm.trans he)
      exact .inl ⟨n, line, fault, hstands, hfault.not_inShape, hbefore, hfault, rfl⟩
  · refine ⟨⟨?_, fun h => absurd h.1 hnone⟩, ?_, ?_⟩
    · simp [hread]
    · simp [hread]
    · intro e he
      obtain rfl := Except.error.inj (hread.symm.trans he)
      exact .inr ⟨hshape, .inl ⟨hnone, rfl⟩⟩
  · refine ⟨⟨?_, fun h => absurd hline (h.2.2 n line hstands)⟩, ?_, ?_⟩
    · simp [hread]
    · simp [hread]
    · intro e he
      obtain rfl := Except.error.inj (hread.symm.trans he)
      exact .inr ⟨hshape, .inr ⟨n, line, hstands, hline, hbefore, rfl⟩⟩
  · refine ⟨⟨fun _ => ⟨hsome, hshape, hmark⟩, fun _ => ⟨g, hread⟩⟩, ?_, ?_⟩
    · intro g' hg'
      obtain rfl := Except.ok.inj (hread.symm.trans hg')
      exact ⟨o, hg⟩
    · simp [hread]

end Lookahead.Reader.Spaced
