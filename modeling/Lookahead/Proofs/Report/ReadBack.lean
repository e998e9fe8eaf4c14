import Lookahead.Proofs.Reader.Spaced
import Lookahead.Proofs.Report.Productions

/-!
Printed rules can be read back. The text has one line for every alternative, and each of its lines
spells that alternative, for names hold no blank, no arrow, and on right sides no bar. So the grammar
that is read from it has the same nonterminals with the same alternatives, by name.
-/

namespace Lookahead

open Text (arrow Halves IsWord)

/-! Names that can be told apart. -/

structure IsLeftName (name : String) : Prop where
  word : IsWord name.toList
  not_arrow : ¬ arrow <:+: name.toList
  free : name ∉ reservedNames

structure IsRightName (name : String) : Prop where
  word : IsWord name.toList
  not_arrow : ¬ arrow <:+: name.toList
  not_bar : '|' ∉ name.toList

theorem isRightName_epsilonName : IsRightName epsilonName where
  word := by simp [epsilonName, IsWord, Text.isBlank]
  not_arrow := by decide +kernel
  not_bar := by simp [epsilonName]

structure Outline.Legible (o : Outline) : Prop where
  left_name : ∀ rule ∈ o, IsLeftName rule.left
  rights_ne_nil : ∀ rule ∈ o, rule.rights ≠ []
  right_name : ∀ name ∈ o.uses, IsRightName name

namespace Outline.Legible

variable {o : Outline}

theorem right_names (h : o.Legible) {rule : NamedRule} (hrule : rule ∈ o) :
    ∀ name ∈ rule.rights.flatten, IsRightName name := by
  intro name hname
  obtain ⟨right, hright, hname⟩ := List.mem_flatten.mp hname
  exact h.right_name name
    (List.mem_flatten.mpr ⟨right, List.mem_flatMap.mpr ⟨rule, hrule, hright⟩, hname⟩)

theorem tail {rule : NamedRule} (h : Outline.Legible (rule :: o)) : o.Legible where
  left_name r hr := h.left_name r (List.mem_cons_of_mem _ hr)
  rights_ne_nil r hr := h.rights_ne_nil r (List.mem_cons_of_mem _ hr)
  right_name name hname := h.right_name name (uses_cons rule o ▸ List.mem_append_right _ hname)

theorem productions (h : o.Legible) : o.productions.Legible where
  left_name := by
    intro rule hrule
    obtain ⟨left, hleft, rfl⟩ := List.mem_map.mp hrule
    obtain ⟨first, hfirst, rfl⟩ := List.mem_map.mp (List.mem_eraseDups.mp hleft)
    exact h.left_name first hfirst
  rights_ne_nil := rights_ne_nil_of_mem_productions h.rights_ne_nil
  right_name := by
    intro name hname
    rcases mem_uses_productions hname with rfl | hname
    · exact isRightName_epsilonName
    · exact h.right_name name hname

end Outline.Legible

namespace Reader.Spaced

theorem isRightName_of_mem_spelled {right : List Char} (harrow : ¬ arrow <:+: right) {name : String}
    (h : name ∈ (spelled right).flatten) : IsRightName name := by
  rw [← alternatives_eq] at h
  obtain ⟨alternative, halternative, hname⟩ := List.mem_flatten.mp h
  obtain ⟨piece, hpiece, rfl⟩ := List.mem_map.mp halternative
  obtain ⟨word, hword, rfl⟩ := List.mem_map.mp hname
  obtain ⟨hpiece, hbar⟩ := Text.within_of_mem_splitOn hpiece
  have hwithin := Text.within_of_mem_words hword
  refine ⟨?_, ?_, ?_⟩ <;> rw [String.toList_ofList]
  · exact Text.isWord_of_mem_words hword
  · exact fun h => harrow (h.trans (hwithin.trans hpiece))
  · exact fun h => hbar (hwithin.subset h)

theorem Spells.not_arrow_right {previous : Option String} {line right : List Char} {left : String}
    (h : Spells previous line left right) : ¬ arrow <:+: right := by
  cases h with
  | rule h => exact h.not_right
  | goOn h hbar =>
      intro harrow
      have hright : right <:+: Text.trim line := hbar ▸ (List.suffix_cons '|' right).isInfix
      exact h (harrow.trans (hright.trans (Text.trim_within line)))

theorem Spells.isLeftName {previous : Option String} {line right : List Char} {left : String}
    (h : Spells previous line left right) (hprevious : ∀ name ∈ previous, IsLeftName name) :
    IsLeftName left := by
  cases h with
  | rule h hword hname hfree =>
      subst hname
      refine ⟨?_, ?_, hfree⟩ <;> rw [String.toList_ofList]
      · exact hword
      · exact fun h' => h.not_left (h'.trans (Text.trim_within _))
  | goOn h hbar hname => exact hprevious left hname

theorem spelled_ne_nil (right : List Char) : spelled right ≠ [] := by
  rw [← alternatives_eq, alternatives]
  simpa using Text.splitOn_ne_nil '|' right

/-- The names of rules that were spelled once can be spelled again. -/
theorem SpellsAll.legible {previous : Option String} {lines : List (List Char)} {o : Outline}
    (h : SpellsAll previous lines o) (hprevious : ∀ name ∈ previous, IsLeftName name) : o.Legible := by
  induction h with
  | nil => exact ⟨by simp, by simp, by simp [Outline.uses]⟩
  | @cons previous line right left lines o h _ ih =>
      have hleft := h.isLeftName hprevious
      have hrest := ih (by simpa using hleft)
      refine ⟨List.forall_mem_cons.mpr ⟨hleft, hrest.left_name⟩,
        List.forall_mem_cons.mpr ⟨spelled_ne_nil right, hrest.rights_ne_nil⟩, fun name hname => ?_⟩
      rw [Outline.uses_cons, List.mem_append] at hname
      rcases hname with hname | hname
      · exact isRightName_of_mem_spelled h.not_arrow_right hname
      · exact hrest.right_name name hname

end Reader.Spaced

/-! The lines of a printed rule. -/

namespace NamedRule

def spaced (right : List String) : List Char := [' '].intercalate (right.map String.toList)

def firstLine (width : Nat) (left : String) (right : List String) : List Char :=
  List.replicate (width - left.length) ' ' ++ left.toList ++ [' '] ++ arrow ++ ' ' :: spaced right

def nextLine (width : Nat) (right : List String) : List Char :=
  List.replicate (width + 2) ' ' ++ '|' :: ' ' :: spaced right

def lines (width : Nat) (rule : NamedRule) : List (List Char) :=
  match rule.rights with
  | [] => []
  | right :: rights => firstLine width rule.left right :: rights.map (nextLine width)

theorem toList_text (width : Nat) {rule : NamedRule} (h : rule.rights ≠ []) :
    (rule.text width).toList = ['\n'].intercalate (rule.lines width) := by
  obtain ⟨left, rights⟩ := rule
  cases rights with
  | nil => exact absurd rfl h
  | cons right rights =>
      have hfirst : (Grid.padLeft width left ++ " -> " ++ " ".intercalate right).toList =
          firstLine width left right := by
        simp [Grid.padLeft, firstLine, spaced, arrow]
      have hnext : ∀ right, (Grid.padLeft width "" ++ "  | " ++ " ".intercalate right).toList =
          nextLine width right := by
        intro right
        simp [Grid.padLeft, nextLine, spaced, List.replicate_succ']
      have hmore : (rights.map fun right =>
          (Grid.padLeft width "" ++ "  | " ++ " ".intercalate right).toList) =
            rights.map (nextLine width) := List.map_congr_left fun right _ => hnext right
      simp only [text, lines, List.map_cons, String.toList_intercalate, hfirst, List.map_map]
      exact congrArg (fun more => ['\n'].intercalate (firstLine width left right :: more)) hmore

theorem words_spaced {right : List String} (h : ∀ name ∈ right, IsRightName name) :
    Text.words (spaced right) = right.map String.toList := by
  refine Text.words_intercalate fun word hword => ?_
  obtain ⟨name, hname, rfl⟩ := List.mem_map.mp hword
  exact (h name hname).word

theorem bar_not_mem_spaced {right : List String} (h : ∀ name ∈ right, IsRightName name) :
    '|' ∉ spaced right := by
  intro hmem
  rcases Text.mem_intercalate hmem with hblank | ⟨word, hword, hbar⟩
  · cases hblank
  · obtain ⟨name, hname, rfl⟩ := List.mem_map.mp hword
    exact (h name hname).not_bar hbar

theorem not_arrow_within_spaced {right : List String} (h : ∀ name ∈ right, IsRightName name) :
    ¬ arrow <:+: ' ' :: spaced right := by
  intro harrow
  rcases Text.arrow_within_append_cons (u := []) (by decide) harrow with harrow | harrow
  · revert harrow
    decide
  · refine Text.not_arrow_within_intercalate (by decide) (fun word hword => ?_) harrow
    obtain ⟨name, hname, rfl⟩ := List.mem_map.mp hword
    exact (h name hname).not_arrow

end NamedRule

namespace Reader.Spaced

open NamedRule

variable {left : String} {right : List String}

theorem spelled_eq_singleton {cs : List Char} (hbar : '|' ∉ cs)
    (hwords : Text.words cs = right.map String.toList) : spelled cs = [right] := by
  rw [← alternatives_eq, alternatives, Text.splitOn_of_not_mem hbar]
  simp [hwords, Function.comp_def]

theorem isBlank_of_mem_replicate {k : Nat} {c : Char} (h : c ∈ List.replicate k ' ') :
    Text.isBlank c = true := by
  rw [List.eq_of_mem_replicate h]
  rfl

/-- The first line of a printed rule spells its first alternative. -/
theorem spells_firstLine (width : Nat) (hleft : IsLeftName left)
    (hright : ∀ name ∈ right, IsRightName name) (previous : Option String) :
    ∃ cs, Spells previous (firstLine width left right) left cs ∧ spelled cs = [right] := by
  have hwords : Text.words (List.replicate (width - left.length) ' ' ++ left.toList ++ [' ']) =
      [left.toList] := by
    rw [Text.words_append_blanks (v := [' ']) fun _ => isBlank_of_mem_replicate (k := 1),
      Text.words_blanks_append fun _ => isBlank_of_mem_replicate, hleft.word.words_eq]
  have htrim := (Text.trim_of_words_eq_singleton hwords).1
  refine ⟨' ' :: spaced right, .rule ⟨rfl, ?_, not_arrow_within_spaced hright⟩ ?_ ?_ hleft.free,
    spelled_eq_singleton ?_ ?_⟩
  · intro harrow
    rcases Text.arrow_within_append_cons (by decide) harrow with harrow | harrow
    · exact hleft.not_arrow (Text.arrow_within_replicate_append (by decide) harrow)
    · revert harrow
      decide
  · rw [htrim]
    exact hleft.word
  · rw [htrim, String.ofList_toList]
  · simpa using bar_not_mem_spaced hright
  · rw [← words_spaced hright]
    rfl

theorem spells_nextLine (left : String) (width : Nat) (hright : ∀ name ∈ right, IsRightName name) :
    ∃ cs, Spells (some left) (nextLine width right) left cs ∧ spelled cs = [right] := by
  obtain ⟨cs, v, hsplit, hv, htrim⟩ :=
    Text.exists_trim_eq_cons (fun _ => isBlank_of_mem_replicate) (c := '|') (by decide)
      (' ' :: spaced right)
  refine ⟨cs, .goOn ?_ htrim rfl, spelled_eq_singleton (fun hbar => ?_) ?_⟩
  · intro harrow
    rcases Text.arrow_within_append_cons (by decide) harrow with harrow | harrow
    · rw [← List.append_nil (List.replicate _ _)] at harrow
      have hnil := Text.arrow_within_replicate_append (by decide) harrow
      revert hnil
      decide
    · exact not_arrow_within_spaced hright harrow
  · have hmem : '|' ∈ ' ' :: spaced right := hsplit ▸ List.mem_append_left v hbar
    exact bar_not_mem_spaced hright (by simpa using hmem)
  · rw [← words_spaced hright, ← Text.words_append_blanks hv, ← hsplit]
    rfl

theorem SpellsAll.append {previous : Option String} {lines lines' : List (List Char)} {o o' : Outline}
    (h : SpellsAll previous lines o) (h' : ∀ previous, SpellsAll previous lines' o') :
    SpellsAll previous (lines ++ lines') (o ++ o') := by
  induction h with
  | nil => exact h' _
  | cons h _ ih => exact .cons h ih

/-- A printed rule spells its alternatives one by one. -/
theorem spellsAll_lines (width : Nat) {rule : NamedRule} (hleft : IsLeftName rule.left)
    (hright : ∀ name ∈ rule.rights.flatten, IsRightName name) (previous : Option String) :
    SpellsAll previous (rule.lines width)
      (rule.rights.map fun right => ⟨rule.left, [right]⟩) := by
  obtain ⟨left, rights⟩ := rule
  have hnext : ∀ rights : List (List String), (∀ name ∈ rights.flatten, IsRightName name) →
      SpellsAll (some left) (rights.map (nextLine width)) (rights.map fun right => ⟨left, [right]⟩) := by
    intro rights hright
    induction rights with
    | nil => exact .nil
    | cons right rights ih =>
        rw [List.flatten_cons, List.forall_mem_append] at hright
        obtain ⟨cs, hspells, hcs⟩ := spells_nextLine left width hright.1
        rw [List.map_cons, List.map_cons, ← hcs]
        exact .cons hspells (ih hright.2)
  cases rights with
  | nil => exact .nil
  | cons right rights =>
      rw [List.flatten_cons, List.forall_mem_append] at hright
      obtain ⟨cs, hspells, hcs⟩ := spells_firstLine width hleft hright.1 previous
      rw [List.map_cons, ← hcs]
      exact .cons hspells (hnext rights hright.2)

/-- The printed lines spell the rules again, one alternative on each. -/
theorem spellsAll_flatMap_lines (width : Nat) {o : Outline} (h : o.Legible)
    (previous : Option String) : SpellsAll previous (o.flatMap (NamedRule.lines width)) o.apart := by
  induction o generalizing previous with
  | nil => exact .nil
  | cons rule o ih =>
      have hrule := List.mem_cons_self (a := rule) (l := o)
      exact (spellsAll_lines width (h.left_name rule hrule) (h.right_names hrule) previous).append
        (ih h.tail)

/-! The printed text. -/

theorem eq_blank_of_mem_spaced (hright : ∀ name ∈ right, IsRightName name) {c : Char}
    (hmem : c ∈ spaced right) (hc : Text.isBlank c = true) : c = ' ' := by
  rcases Text.mem_intercalate hmem with rfl | ⟨word, hword, hmem⟩
  · rfl
  · obtain ⟨name, hname, rfl⟩ := List.mem_map.mp hword
    exact absurd hmem ((hright name hname).word.not_mem_of_isBlank hc)

/-- A printed line holds no blank but the one between its parts. -/
theorem eq_blank_of_mem_lines {width : Nat} {rule : NamedRule} (hleft : IsLeftName rule.left)
    (hright : ∀ name ∈ rule.rights.flatten, IsRightName name) {line : List Char}
    (hline : line ∈ rule.lines width) {c : Char} (hmem : c ∈ line) (hc : Text.isBlank c = true) :
    c = ' ' := by
  obtain ⟨left, rights⟩ := rule
  cases rights with
  | nil => cases hline
  | cons first rights =>
      rw [List.flatten_cons, List.forall_mem_append] at hright
      rcases List.mem_cons.mp hline with rfl | hline
      · simp only [firstLine, List.mem_append, List.mem_cons, List.not_mem_nil, or_false] at hmem
        rcases hmem with (((hmem | hmem) | hmem) | hmem) | hmem | hmem
        · exact List.eq_of_mem_replicate hmem
        · exact absurd hmem (hleft.word.not_mem_of_isBlank hc)
        · exact hmem
        · rcases List.mem_pair.mp hmem with rfl | rfl <;> exact absurd hc (by decide)
        · exact hmem
        · exact eq_blank_of_mem_spaced hright.1 hmem hc
      · obtain ⟨right, hmemRight, rfl⟩ := List.mem_map.mp hline
        simp only [nextLine, List.mem_append, List.mem_cons] at hmem
        rcases hmem with hmem | rfl | hmem | hmem
        · exact List.eq_of_mem_replicate hmem
        · exact absurd hc (by decide)
        · exact hmem
        · exact eq_blank_of_mem_spaced
            (fun name hname => hright.2 name (List.mem_flatten.mpr ⟨right, hmemRight, hname⟩)) hmem hc

theorem not_blank_of_mem_lines {width : Nat} {rule : NamedRule} {line : List Char}
    (hline : line ∈ rule.lines width) : line.all Text.isBlank = false := by
  obtain ⟨left, rights⟩ := rule
  rw [List.all_eq_false]
  cases rights with
  | nil => cases hline
  | cons first rights =>
      rcases List.mem_cons.mp hline with rfl | hline
      · exact ⟨'-', by simp [firstLine, arrow], by decide⟩
      · obtain ⟨right, -, rfl⟩ := List.mem_map.mp hline
        exact ⟨'|', by simp [nextLine], by decide⟩

/-- Cut at its line feeds, the print has the lines of its rules. -/
theorem exists_lines_text {o : Outline} (h : o.Legible) :
    ∃ width, Text.lines (Report.Productions.text ⟨o⟩).toList = o.flatMap (NamedRule.lines width) := by
  set width := (o.map fun rule => rule.left.utf8ByteSize).foldl max 0 with hwidth
  refine ⟨width, ?_⟩
  have hgroups : ∀ group ∈ o.map (NamedRule.lines width), group ≠ [] := by
    rw [List.forall_mem_map]
    intro rule hrule
    obtain ⟨right, rights, hrights⟩ := List.exists_cons_of_ne_nil (h.rights_ne_nil rule hrule)
    simp [NamedRule.lines, hrights]
  have htext : (Report.Productions.text ⟨o⟩).toList =
      ['\n'].intercalate (o.flatMap (NamedRule.lines width)) := by
    rw [List.flatMap_def, ← Text.intercalate_map_intercalate hgroups, List.map_map]
    rw [Report.Productions.text, String.toList_intercalate, List.map_map]
    congr 1
    exact List.map_congr_left fun rule hrule => NamedRule.toList_text width (h.rights_ne_nil rule hrule)
  rw [htext]
  refine Text.lines_intercalate fun line hline => ?_
  obtain ⟨rule, hrule, hline⟩ := List.mem_flatMap.mp hline
  have hplain : ∀ c, Text.isBlank c = true → c ≠ ' ' → c ∉ line := fun c hc hne hmem =>
    hne (eq_blank_of_mem_lines (h.left_name rule hrule) (h.right_names hrule) hline hmem hc)
  refine ⟨⟨hplain '\n' (by decide) (by decide), fun hlast => ?_⟩, ?_⟩
  · exact hplain '\r' (by decide) (by decide) (List.mem_of_getLast? hlast)
  · rintro rfl
    cases not_blank_of_mem_lines hline

/-- A first line with an arrow holds no count. -/
theorem detect_of_spellsAll {text : String} {o : Outline}
    (h : SpellsAll none ((numberedLines text.toList).map Prod.snd) o) :
    Format.detect text = .spaced := by
  unfold Format.detect
  cases hlines : numberedLines text.toList with
  | nil => rfl
  | cons entry lines =>
      rw [hlines] at h
      cases h with
      | cons hfirst _ =>
          have harrow : arrow <:+: entry.2 := by
            cases hfirst with
            | rule h => exact h.arrow_within
            | goOn _ _ hprevious => cases hprevious
          have hmem : '-' ∈ Text.trim entry.2 := Text.mem_trim (harrow.subset (by decide)) (by decide)
          have hcount := Text.count?_eq_none hmem (by decide) (by decide)
          simp [hcount]

/-- The text of legible rules is read, and it stands for these rules set apart. -/
theorem read_text {o : Outline} (h : o.Legible) (hne : o ≠ []) (hmark : endMarkName ∉ o.uses) :
    ∃ g, Grammar.read .spaced (Report.Productions.text ⟨o⟩) = .ok g ∧
      Grammar.ofText (Report.Productions.text ⟨o⟩) = .ok g ∧ o.apart.Describes g := by
  obtain ⟨width, hlines⟩ := exists_lines_text h
  generalize Report.Productions.text ⟨o⟩ = text at hlines
  have hnumbered : (numberedLines text.toList).map Prod.snd = o.flatMap (NamedRule.lines width) := by
    rw [← hlines]
    refine map_snd_numberedLines fun line hline => ?_
    rw [hlines] at hline
    obtain ⟨rule, -, hline⟩ := List.mem_flatMap.mp hline
    exact not_blank_of_mem_lines hline
  have hall := spellsAll_flatMap_lines width h none
  rw [← hnumbered] at hall
  have hapart : o.apart ≠ [] := by
    obtain ⟨rule, o, rfl⟩ := List.exists_cons_of_ne_nil hne
    have hrights := h.rights_ne_nil rule (by simp)
    intro hnil
    simp [Outline.apart, hrights] at hnil
  obtain ⟨g, hread, hg⟩ := read_of_spellsAll hall hapart (o.uses_apart ▸ hmark)
  refine ⟨g, hread, ?_, hg⟩
  rw [Grammar.ofText, detect_of_spellsAll hall]
  exact hread

end Reader.Spaced

/-- Two lists that go with the same third one go with each other. -/
theorem forall₂_join {α β γ : Type} {R : α → γ → Prop} {S : β → γ → Prop} {l : List α} {l' : List β}
    {l'' : List γ} (h : List.Forall₂ R l l'') (h' : List.Forall₂ S l' l'') :
    List.Forall₂ (fun a b => ∃ c, R a c ∧ S b c) l l' := by
  induction h generalizing l' with
  | nil =>
      cases h'
      exact .nil
  | cons hfirst _ ih =>
      cases h' with
      | cons hfirst' hrest' => exact .cons ⟨_, hfirst, hfirst'⟩ (ih hrest')

namespace Report.Productions

/-- Printed rules are read back: the text is a grammar again, with the same nonterminals in the same
order, the same start symbol and the same alternatives, by name, and so it is printed as before. -/
theorem printed_rules_read_back {text : String} {g : Grammar} (hg : Grammar.read .spaced text = .ok g) :
    ∃ p g', of? g = some p ∧ Grammar.read .spaced p.text = .ok g' ∧
      Grammar.ofText p.text = .ok g' ∧
      (∃ name, g.name? g.start = some name ∧ g'.name? g'.start = some name) ∧
      List.Forall₂ (fun n n' => n'.name = n.name ∧ ∃ rights,
        n.bodies.mapM g.names? = some rights ∧ n'.bodies.mapM g'.names? = some rights)
          g.nonterminals g'.nonterminals ∧
      of? g' = some p := by
  obtain ⟨o, hall, hne, hmark, hdescribes⟩ := Reader.Spaced.exists_spellsAll_of_read hg
  have hlegible := hall.legible (by simp)
  have hlefts : o.lefts ≠ [] := by
    obtain ⟨rule, hrule⟩ := List.exists_mem_of_ne_nil o hne
    exact List.ne_nil_of_mem (List.mem_eraseDups.mpr (List.mem_map_of_mem hrule))
  have hmark' : endMarkName ∉ o.productions.uses := by
    intro hmem
    rcases Outline.mem_uses_productions hmem with heq | hmem
    · revert heq
      decide
    · exact hmark hmem
  obtain ⟨g', hread, hofText, hdescribes'⟩ :=
    Reader.Spaced.read_text hlegible.productions (by simpa [Outline.productions] using hlefts) hmark'
  have hp := hdescribes.productions_eq
  have hp' := hdescribes'.productions_eq
  rw [Outline.productions_apart_productions hlegible.rights_ne_nil] at hp'
  refine ⟨_, g', hp, hread, hofText, ⟨o.lefts.headD epsilonName, hdescribes.name?_start, ?_⟩, ?_, hp'⟩
  · rw [hdescribes'.name?_start, Outline.lefts_apart hlegible.productions.rights_ne_nil,
      Outline.lefts_productions]
  · refine (forall₂_join (forall₂_of_eq_some hp) (forall₂_of_eq_some hp')).imp fun n n' h => ?_
    obtain ⟨rule, ⟨hname, hrights⟩, hname', hrights'⟩ := h
    exact ⟨hname'.trans hname.symm, rule.rights, hrights, hrights'⟩

theorem reads_back_names_with_bars :
    ∃ g p, Grammar.read .spaced "S| -> > | ε a ϵ\n|- S|\n\nB->\nS| -> B -\n" = .ok g ∧ of? g = some p ∧
      ∃ g', Grammar.ofText p.text = .ok g' ∧ of? g' = some p := by
  have hread : ((Grammar.read .spaced "S| -> > | ε a ϵ\n|- S|\n\nB->\nS| -> B -\n").toOption).isSome = true := by
    decide +kernel
  obtain ⟨g, hg⟩ := Option.isSome_iff_exists.mp hread
  rw [toOption_eq_some] at hg
  obtain ⟨p, g', hp, -, hread', -, -, hp'⟩ := printed_rules_read_back hg
  exact ⟨g, p, hg, hp, g', hread', hp'⟩

end Report.Productions

end Lookahead
