import Lookahead.Text
import Mathlib.Data.List.TakeWhile
import Mathlib.Tactic

/-!
What a text is cut into. Pieces and words are those of the list operations `splitOn` and `splitOnP`, so
a text put together from words with blanks between them is cut into these words again. A text is cut
at an arrow wherever one stands.
-/

namespace Lookahead.Text

theorem prepend_eq_modifyHead (c : Char) {pieces : List (List Char)} (h : pieces ≠ []) :
    prepend c pieces = pieces.modifyHead (c :: ·) := by
  cases pieces with
  | nil => exact absurd rfl h
  | cons piece pieces => rfl

theorem splitOn_eq (separator : Char) (cs : List Char) :
    splitOn separator cs = List.splitOn separator cs := by
  induction cs with
  | nil => rfl
  | cons c cs ih =>
      rw [splitOn, List.splitOn_cons_eq_if_modifyHead, ih,
        prepend_eq_modifyHead c (List.splitOn_ne_nil separator cs)]
      simp

/-! Words. -/

/-- The words of a text are the pieces between its blanks that are not empty. -/
theorem words_eq (cs : List Char) : words cs = (cs.splitOnP isBlank).filter (· ≠ []) := by
  induction cs with
  | nil => rfl
  | cons c cs ih =>
      rw [words, List.splitOnP_cons_eq_if_modifyHead]
      by_cases hc : isBlank c = true
      · simp [hc, ih]
      · simp only [hc, Bool.false_eq_true, ↓reduceIte]
        cases cs with
        | nil => rfl
        | cons b cs =>
            rw [ih, List.splitOnP_cons_eq_if_modifyHead]
            by_cases hb : isBlank b = true
            · simp [hb]
            · obtain ⟨piece, pieces, hpieces⟩ :=
                List.exists_cons_of_ne_nil (List.splitOnP_ne_nil isBlank cs)
              simp [hb, hpieces, prepend]

/-- At a blank a text may be cut in two without cutting a word. -/
theorem words_append_blank {b : Char} (hb : isBlank b = true) (u v : List Char) :
    words (u ++ b :: v) = words u ++ words v := by
  simp only [words_eq]
  rw [List.splitOnP_append_cons u v hb, List.filter_append]

theorem words_blanks_append {u : List Char} (hu : ∀ c ∈ u, isBlank c = true) (v : List Char) :
    words (u ++ v) = words v := by
  induction u with
  | nil => rfl
  | cons c u ih =>
      rw [List.cons_append, words, if_pos (hu c (by simp))]
      exact ih fun c hc => hu c (by simp [hc])

theorem words_append_blanks {v : List Char} (hv : ∀ c ∈ v, isBlank c = true) (u : List Char) :
    words (u ++ v) = words u := by
  cases v with
  | nil => rw [List.append_nil]
  | cons c v =>
      have hnil := words_blanks_append (fun c hc => hv c (List.mem_cons_of_mem _ hc)) []
      rw [List.append_nil] at hnil
      rw [words_append_blank (hv c (by simp)), hnil, words, List.append_nil]

theorem words_of_no_blank {w : List Char} (hne : w ≠ []) (h : ∀ c ∈ w, isBlank c = false) :
    words w = [w] := by
  rw [words_eq, List.splitOnP_eq_singleton h]
  simp [hne]

def IsWord (w : List Char) : Prop := w ≠ [] ∧ ∀ c ∈ w, isBlank c = false

theorem IsWord.words_eq {w : List Char} (h : IsWord w) : words w = [w] := words_of_no_blank h.1 h.2

theorem IsWord.not_mem_of_isBlank {w : List Char} (h : IsWord w) {c : Char}
    (hc : isBlank c = true) : c ∉ w := by
  intro hmem
  rw [h.2 c hmem] at hc
  cases hc

/-- Words with blanks between them are read as they are. -/
theorem words_intercalate {l : List (List Char)} (h : ∀ w ∈ l, IsWord w) :
    words ([' '].intercalate l) = l := by
  induction l with
  | nil => rfl
  | cons w l ih =>
      have hw := (h w (by simp)).words_eq
      cases l with
      | nil => rw [List.intercalate_singleton, hw]
      | cons w' l =>
          rw [List.intercalate_cons_cons, List.append_assoc, List.singleton_append,
            words_append_blank (by decide), hw, ih fun w hw => h w (by simp [hw])]
          rfl

/-- What stands first in a cut stands in the text, and so does the rest. -/
private theorem within_of_mem_splitOnP {p : Char → Bool} {cs piece : List Char}
    (h : piece ∈ cs.splitOnP p) : piece <:+: cs ∧ ∀ c ∈ piece, p c = false := by
  suffices hhead : ∀ cs : List Char, ∀ piece pieces, cs.splitOnP p = piece :: pieces →
      (piece <+: cs ∧ ∀ c ∈ piece, p c = false) ∧
        ∀ piece ∈ pieces, piece <:+: cs ∧ ∀ c ∈ piece, p c = false by
    obtain ⟨first, rest, hsplit⟩ := List.exists_cons_of_ne_nil (List.splitOnP_ne_nil p cs)
    obtain ⟨hfirst, hrest⟩ := hhead cs first rest hsplit
    rw [hsplit] at h
    rcases List.mem_cons.mp h with rfl | h
    · exact ⟨hfirst.1.isInfix, hfirst.2⟩
    · exact hrest piece h
  intro cs
  induction cs with
  | nil =>
      intro piece pieces hsplit
      obtain ⟨rfl, rfl⟩ : [] = piece ∧ [] = pieces := by simpa using hsplit
      simp
  | cons c cs ih =>
      intro piece pieces hsplit
      obtain ⟨first, rest, hcs⟩ := List.exists_cons_of_ne_nil (List.splitOnP_ne_nil p cs)
      obtain ⟨⟨hfirst, hfirst'⟩, hrest⟩ := ih first rest hcs
      have hmore : ∀ piece ∈ rest, piece <:+: c :: cs ∧ ∀ c ∈ piece, p c = false :=
        fun piece hpiece => ⟨(hrest piece hpiece).1.trans (List.suffix_cons c cs).isInfix,
          (hrest piece hpiece).2⟩
      rw [List.splitOnP_cons_eq_if_modifyHead, hcs] at hsplit
      by_cases hc : p c = true
      · obtain ⟨rfl, rfl⟩ : [] = piece ∧ first :: rest = pieces := by simpa [hc] using hsplit
        refine ⟨by simp, fun piece hpiece => ?_⟩
        rcases List.mem_cons.mp hpiece with rfl | hpiece
        · exact ⟨hfirst.isInfix.trans (List.suffix_cons c cs).isInfix, hfirst'⟩
        · exact hmore piece hpiece
      · obtain ⟨rfl, rfl⟩ : c :: first = piece ∧ rest = pieces := by simpa [hc] using hsplit
        refine ⟨⟨?_, ?_⟩, hmore⟩
        · simpa using hfirst
        · simpa [hc] using hfirst'

theorem within_of_mem_words {cs w : List Char} (h : w ∈ words cs) : w <:+: cs := by
  rw [words_eq] at h
  exact (within_of_mem_splitOnP (List.mem_of_mem_filter h)).1

/-- What a text is cut into at its blanks are words. -/
theorem isWord_of_mem_words {cs w : List Char} (h : w ∈ words cs) : IsWord w := by
  rw [words_eq, List.mem_filter] at h
  exact ⟨by simpa using h.2, (within_of_mem_splitOnP h.1).2⟩

theorem isBlank_of_mem_squeeze {cs : List Char} {c : Char} (h : c ∈ squeeze cs) :
    isBlank c = false := by
  simpa using (List.mem_filter.mp h).2

theorem within_of_mem_splitOn {separator : Char} {cs piece : List Char}
    (h : piece ∈ splitOn separator cs) : piece <:+: cs ∧ separator ∉ piece := by
  rw [splitOn_eq, List.splitOn_eq_splitOnP] at h
  obtain ⟨hwithin, hnot⟩ := within_of_mem_splitOnP h
  refine ⟨hwithin, fun hmem => ?_⟩
  simpa using hnot separator hmem

theorem splitOn_of_not_mem {separator : Char} {cs : List Char} (h : separator ∉ cs) :
    splitOn separator cs = [cs] := by
  rw [splitOn_eq, List.splitOn_eq_singleton h]

theorem splitOn_intercalate {separator : Char} {l : List (List Char)}
    (h : ∀ piece ∈ l, separator ∉ piece) (hne : l ≠ []) :
    splitOn separator ([separator].intercalate l) = l := by
  rw [splitOn_eq, List.splitOn_intercalate separator h hne]

theorem splitOn_ne_nil (separator : Char) (cs : List Char) : splitOn separator cs ≠ [] := by
  rw [splitOn_eq]
  exact List.splitOn_ne_nil separator cs

theorem mem_of_mem_intercalate {separator : List Char} {l : List (List Char)} {c : Char}
    (h : c ∈ separator.intercalate l) : c ∈ separator ∨ ∃ piece ∈ l, c ∈ piece := by
  induction l with
  | nil => simp [List.intercalate_nil] at h
  | cons piece l ih =>
      cases l with
      | nil =>
          rw [List.intercalate_singleton] at h
          exact .inr ⟨piece, by simp, h⟩
      | cons piece' l =>
          rw [List.intercalate_cons_cons, List.append_assoc, List.mem_append, List.mem_append] at h
          rcases h with h | h | h
          · exact .inr ⟨piece, by simp, h⟩
          · exact .inl h
          · exact (ih h).imp_right fun ⟨piece, hpiece, hc⟩ => ⟨piece, by simp [hpiece], hc⟩

theorem mem_intercalate {separator c : Char} {l : List (List Char)}
    (h : c ∈ [separator].intercalate l) : c = separator ∨ ∃ piece ∈ l, c ∈ piece :=
  (mem_of_mem_intercalate h).imp_left List.mem_singleton.mp

/-- A separator between groups and within them. -/
theorem intercalate_map_intercalate {separator : Char} {l : List (List (List Char))}
    (h : ∀ group ∈ l, group ≠ []) :
    [separator].intercalate (l.map [separator].intercalate) = [separator].intercalate l.flatten := by
  have happend : ∀ group rest : List (List Char), group ≠ [] → rest ≠ [] →
      [separator].intercalate (group ++ rest) =
        [separator].intercalate group ++ [separator] ++ [separator].intercalate rest := by
    intro group rest hgroup hrest
    induction group with
    | nil => exact absurd rfl hgroup
    | cons piece group ih =>
        cases group with
        | nil => rw [List.singleton_append, List.intercalate_cons_of_ne_nil hrest, List.intercalate_singleton]
        | cons piece' group =>
            rw [List.cons_append, List.intercalate_cons_of_ne_nil (by simp), ih (by simp),
              List.intercalate_cons_cons]
            simp
  induction l with
  | nil => rfl
  | cons group l ih =>
      obtain ⟨hgroup, hl⟩ := List.forall_mem_cons.mp h
      cases l with
      | nil => simp
      | cons group' l =>
          have hrest : (group' :: l).flatten ≠ [] := by
            simp [hl group' (by simp)]
          rw [List.flatten_cons, happend group _ hgroup hrest, ← ih hl, List.map_cons, List.map_cons,
            List.intercalate_cons_cons]

/-! Trimming. -/

/-- Trimming takes blanks off both ends and leaves none there. -/
theorem exists_trim (cs : List Char) :
    ∃ u v, cs = u ++ trim cs ++ v ∧ (∀ c ∈ u, isBlank c = true) ∧ (∀ c ∈ v, isBlank c = true) ∧
      (∀ c ∈ (trim cs).head?, isBlank c = false) ∧
      ∀ c ∈ (trim cs).getLast?, isBlank c = false := by
  have hfront := List.takeWhile_append_dropWhile (p := isBlank) (l := cs)
  set middle := cs.dropWhile isBlank with hmiddle
  have hback := List.takeWhile_append_dropWhile (p := isBlank) (l := middle.reverse)
  have htrim : trim cs = (middle.reverse.dropWhile isBlank).reverse := rfl
  have hsplit : middle = trim cs ++ (middle.reverse.takeWhile isBlank).reverse := by
    rw [htrim, ← List.reverse_append, hback, List.reverse_reverse]
  refine ⟨cs.takeWhile isBlank, (middle.reverse.takeWhile isBlank).reverse, ?_, ?_, ?_, ?_, ?_⟩
  · rw [List.append_assoc, ← hsplit, hfront]
  · exact fun c hc => List.mem_takeWhile_imp hc
  · exact fun c hc => List.mem_takeWhile_imp (List.mem_reverse.mp hc)
  · intro c hc
    have hhead : middle.head? = some c := by
      rw [hsplit]
      simp [Option.mem_def.mp hc]
    have := List.head?_dropWhile_not isBlank cs
    rw [← hmiddle, hhead] at this
    simpa using this
  · intro c hc
    rw [htrim, List.getLast?_reverse] at hc
    have := List.head?_dropWhile_not isBlank middle.reverse
    rw [Option.mem_def.mp hc] at this
    simpa using this

theorem trim_within (cs : List Char) : trim cs <:+: cs := by
  obtain ⟨u, v, hsplit, -⟩ := exists_trim cs
  exact ⟨u, v, hsplit.symm⟩

theorem mem_trim {cs : List Char} {c : Char} (hmem : c ∈ cs) (hc : isBlank c = false) :
    c ∈ trim cs := by
  obtain ⟨u, v, hsplit, hu, hv, -⟩ := exists_trim cs
  rw [hsplit, List.mem_append, List.mem_append] at hmem
  rcases hmem with (hmem | hmem) | hmem
  · rw [hu c hmem] at hc
    cases hc
  · exact hmem
  · rw [hv c hmem] at hc
    cases hc

/-- Behind blanks a text is trimmed from its first other character on. -/
theorem exists_trim_eq_cons {u : List Char} (hu : ∀ c ∈ u, isBlank c = true) {c : Char}
    (hc : isBlank c = false) (rest : List Char) :
    ∃ r v, rest = r ++ v ∧ (∀ c ∈ v, isBlank c = true) ∧ trim (u ++ c :: rest) = c :: r := by
  have hback := List.takeWhile_append_dropWhile (p := isBlank) (l := rest.reverse)
  refine ⟨(rest.reverse.dropWhile isBlank).reverse, (rest.reverse.takeWhile isBlank).reverse, ?_, ?_, ?_⟩
  · rw [← List.reverse_append, hback, List.reverse_reverse]
  · exact fun c hc => List.mem_takeWhile_imp (List.mem_reverse.mp hc)
  · rw [trim, List.dropWhile_append_of_pos hu, List.dropWhile_cons_of_neg (by simp [hc]),
      List.reverse_cons, List.dropWhile_append]
    split
    · next hnil =>
        rw [List.isEmpty_iff] at hnil
        simp [hnil, hc]
    · simp

theorem words_trim (cs : List Char) : words (trim cs) = words cs := by
  obtain ⟨u, v, hsplit, hu, hv, -⟩ := exists_trim cs
  conv_rhs => rw [hsplit, words_append_blanks hv, words_blanks_append hu]

theorem words_ne_nil {cs : List Char} {c : Char} (hmem : c ∈ cs) (hc : isBlank c = false) :
    words cs ≠ [] := by
  induction cs with
  | nil => cases hmem
  | cons first cs ih =>
      rw [words]
      split
      · next hfirst =>
          rcases List.mem_cons.mp hmem with rfl | hmem
          · rw [hc] at hfirst
            cases hfirst
          · exact ih hmem
      · split
        · simp
        · cases words cs <;> simp [prepend]

/-- There are three kinds of text: blanks only, one word with blanks around it, and more words. -/
theorem words_of_trim (cs : List Char) :
    trim cs = [] ∧ words cs = [] ∨ IsWord (trim cs) ∧ words cs = [trim cs] ∨
      trim cs ≠ [] ∧ (∃ b ∈ trim cs, isBlank b = true) ∧ 2 ≤ (words cs).length := by
  rw [← words_trim]
  obtain ⟨-, -, -, -, -, hhead, hlast⟩ := exists_trim cs
  by_cases hnil : trim cs = []
  · exact .inl ⟨hnil, by rw [hnil, words]⟩
  by_cases hblank : ∃ b ∈ trim cs, isBlank b = true
  · refine .inr (.inr ⟨hnil, hblank, ?_⟩)
    obtain ⟨b, hmem, hb⟩ := hblank
    obtain ⟨u, v, hsplit⟩ := List.append_of_mem hmem
    -- the blank is neither the first nor the last character
    have hu : words u ≠ [] := by
      cases u with
      | nil => simp [hsplit, hb] at hhead
      | cons c u => exact words_ne_nil List.mem_cons_self (hhead c (by simp [hsplit]))
    have hv : words v ≠ [] := by
      cases v using List.reverseRecOn with
      | nil => simp [hsplit, hb] at hlast
      | append_singleton v c =>
          rw [hsplit, ← List.cons_append, ← List.append_assoc, List.getLast?_concat] at hlast
          exact words_ne_nil (List.mem_concat_self) (hlast c rfl)
    have hu := List.length_pos_iff.mpr hu
    have hv := List.length_pos_iff.mpr hv
    rw [hsplit, words_append_blank hb, List.length_append]
    omega
  · simp only [not_exists, not_and, Bool.not_eq_true] at hblank
    have hword : IsWord (trim cs) := ⟨hnil, hblank⟩
    exact .inr (.inl ⟨hword, hword.words_eq⟩)

/-- A text of one word is this word with blanks around it. -/
theorem trim_of_words_eq_singleton {cs w : List Char} (h : words cs = [w]) :
    trim cs = w ∧ IsWord w := by
  rcases words_of_trim cs with ⟨-, hnil⟩ | ⟨hword, hone⟩ | ⟨-, -, hmany⟩
  · simp [h] at hnil
  · obtain rfl : w = trim cs := by simpa [h] using hone
    exact ⟨rfl, hword⟩
  · simp [h] at hmany

theorem count?_eq_none {cs : List Char} {c : Char} (hmem : c ∈ cs) (hplus : c ≠ '+')
    (hdigit : isDigit c = false) : count? cs = none := by
  have hall : ∀ digits : List Char, c ∈ digits → digits.all isDigit = false := by
    intro digits hmem
    rw [List.all_eq_false]
    exact ⟨c, hmem, by simp [hdigit]⟩
  unfold count?
  split
  · next rest =>
      simp [hall rest ((List.mem_cons.mp hmem).resolve_left hplus)]
  · simp [hall cs hmem]

/-! Arrows. -/

def arrow : List Char := ['-', '>']

theorem splitArrows_ne_nil (cs : List Char) : splitArrows cs ≠ [] := by
  fun_cases splitArrows cs with
  | case1 => simp
  | case2 => simp
  | case3 c cs => cases splitArrows cs <;> simp [prepend]

theorem splitArrows_of_no_arrow {cs : List Char} (h : ¬ arrow <:+: cs) : splitArrows cs = [cs] := by
  fun_induction splitArrows cs with
  | case1 => rfl
  | case2 cs ih => exact absurd (List.prefix_append arrow cs).isInfix h
  | case3 c cs _ ih =>
      rw [List.infix_cons_iff, not_or] at h
      rw [ih h.2]
      rfl

/-- A text is cut at every arrow, for no arrow begins within another one. -/
theorem splitArrows_append (u v : List Char) :
    splitArrows (u ++ arrow ++ v) = splitArrows u ++ splitArrows v := by
  fun_induction splitArrows u with
  | case1 => rfl
  | case2 u ih =>
      rw [List.cons_append, List.cons_append, List.cons_append, List.cons_append, splitArrows, ih]
      rfl
  | case3 c u hnot ih =>
      have hcut : splitArrows (c :: (u ++ arrow ++ v)) = prepend c (splitArrows (u ++ arrow ++ v)) := by
        refine splitArrows.eq_3 c _ fun cs hc hcs => ?_
        cases u with
        | nil => simp [arrow] at hcs
        | cons d u =>
            obtain ⟨rfl, -⟩ := List.cons.inj hcs
            exact hnot u hc rfl
      rw [List.cons_append, List.cons_append, hcut, ih]
      obtain ⟨piece, pieces, hpieces⟩ := List.exists_cons_of_ne_nil (splitArrows_ne_nil u)
      rw [hpieces]
      rfl

theorem splitArrows_eq_singleton {cs piece : List Char} (h : splitArrows cs = [piece]) :
    cs = piece ∧ ¬ arrow <:+: cs := by
  by_cases harrow : arrow <:+: cs
  · obtain ⟨u, v, rfl⟩ := harrow
    have hlength := congrArg List.length h
    rw [splitArrows_append, List.length_append, List.length_singleton] at hlength
    have hu := List.length_pos_iff.mpr (splitArrows_ne_nil u)
    have hv := List.length_pos_iff.mpr (splitArrows_ne_nil v)
    omega
  · rw [splitArrows_of_no_arrow harrow] at h
    exact ⟨List.head_eq_of_cons_eq h, harrow⟩

/-- No arrow reaches over a character that is not part of it. -/
theorem arrow_within_append_cons {separator : Char} (hseparator : separator ∉ arrow)
    {u v : List Char} (h : arrow <:+: u ++ separator :: v) : arrow <:+: u ∨ arrow <:+: v := by
  simp only [arrow, List.mem_cons, List.not_mem_nil, or_false, not_or] at hseparator
  induction u with
  | nil =>
      rw [List.nil_append, List.infix_cons_iff] at h
      rcases h with h | h
      · exact absurd (List.cons_prefix_cons.mp h).1.symm hseparator.1
      · exact .inr h
  | cons c u ih =>
      rw [List.cons_append, List.infix_cons_iff] at h
      rcases h with h | h
      · obtain ⟨rfl, hrest⟩ := List.cons_prefix_cons.mp h
        cases u with
        | nil => exact absurd (List.cons_prefix_cons.mp hrest).1.symm hseparator.2
        | cons d u =>
            obtain ⟨rfl, -⟩ := List.cons_prefix_cons.mp hrest
            exact .inl (List.prefix_append arrow u).isInfix
      · exact (ih h).imp_left fun h => h.trans (List.suffix_cons c u).isInfix

theorem arrow_within_replicate_append {separator : Char} (hseparator : separator ∉ arrow) {k : Nat}
    {u : List Char} (h : arrow <:+: List.replicate k separator ++ u) : arrow <:+: u := by
  induction k with
  | zero => exact h
  | succ k ih =>
      rw [List.replicate_succ, List.cons_append] at h
      rcases arrow_within_append_cons (u := []) hseparator h with h | h
      · simp [arrow] at h
      · exact ih h

/-- No arrow comes up when pieces without one are put together around another character. -/
theorem not_arrow_within_intercalate {separator : Char} (hseparator : separator ∉ arrow)
    {l : List (List Char)} (h : ∀ piece ∈ l, ¬ arrow <:+: piece) :
    ¬ arrow <:+: [separator].intercalate l := by
  induction l with
  | nil => simp [arrow, List.intercalate_nil]
  | cons piece l ih =>
      obtain ⟨hpiece, hl⟩ := List.forall_mem_cons.mp h
      cases l with
      | nil => rwa [List.intercalate_singleton]
      | cons piece' l =>
          rw [List.intercalate_cons_cons, List.append_assoc, List.singleton_append]
          exact fun h => (arrow_within_append_cons hseparator h).elim hpiece (ih hl)

/-- The text holds one arrow, between `left` and `right`. -/
structure Halves (cs left right : List Char) : Prop where
  eq_append : cs = left ++ arrow ++ right
  not_left : ¬ arrow <:+: left
  not_right : ¬ arrow <:+: right

namespace Halves

variable {cs left right : List Char}

theorem splitArrows_eq (h : Halves cs left right) : splitArrows cs = [left, right] := by
  rw [h.eq_append, splitArrows_append, splitArrows_of_no_arrow h.not_left,
    splitArrows_of_no_arrow h.not_right]
  rfl

theorem arrow_within (h : Halves cs left right) : arrow <:+: cs := ⟨left, right, h.eq_append.symm⟩

/-- Where a text holds one arrow, it is cut nowhere else. -/
theorem unique (h : Halves cs left right) {left' right' : List Char}
    (h' : cs = left' ++ arrow ++ right') : left' = left ∧ right' = right := by
  have hcut := h.splitArrows_eq
  rw [h', splitArrows_append] at hcut
  obtain ⟨piece, pieces, hleft⟩ := List.exists_cons_of_ne_nil (splitArrows_ne_nil left')
  obtain ⟨piece', pieces', hright⟩ := List.exists_cons_of_ne_nil (splitArrows_ne_nil right')
  rw [hleft, hright, List.cons_append, List.cons.injEq, List.append_eq_singleton_iff] at hcut
  obtain ⟨rfl, ⟨rfl, hpieces⟩ | ⟨-, hnil⟩⟩ := hcut
  · rw [hpieces] at hright
    exact ⟨(splitArrows_eq_singleton hleft).1, (splitArrows_eq_singleton hright).1⟩
  · cases hnil

theorem ne_two_arrows (h : Halves cs left right) {u v w : List Char} :
    cs ≠ u ++ arrow ++ (v ++ arrow ++ w) := by
  intro h'
  obtain ⟨-, rfl⟩ := h.unique h'
  exact h.not_right ⟨v, w, rfl⟩

end Halves

/-- A text holds no arrow, one, or two and more. -/
theorem splitArrows_cases (cs : List Char) :
    ¬ arrow <:+: cs ∨ (∃ left right, Halves cs left right) ∨
      ∃ u v w, cs = u ++ arrow ++ (v ++ arrow ++ w) := by
  by_cases h : arrow <:+: cs
  · obtain ⟨left, right, rfl⟩ := h
    by_cases hleft : arrow <:+: left
    · obtain ⟨u, v, rfl⟩ := hleft
      exact .inr (.inr ⟨u, v, right, by simp⟩)
    · by_cases hright : arrow <:+: right
      · obtain ⟨v, w, rfl⟩ := hright
        exact .inr (.inr ⟨left, v, w, rfl⟩)
      · exact .inr (.inl ⟨left, right, rfl, hleft, hright⟩)
  · exact .inl h

/-- A text with two arrows in it is cut into three pieces or more. -/
theorem splitArrows_of_two (u v w : List Char) :
    ∃ first second third more,
      splitArrows (u ++ arrow ++ (v ++ arrow ++ w)) = first :: second :: third :: more := by
  have hlength : 3 ≤ (splitArrows (u ++ arrow ++ (v ++ arrow ++ w))).length := by
    rw [splitArrows_append, splitArrows_append, List.length_append, List.length_append]
    have hu := List.length_pos_iff.mpr (splitArrows_ne_nil u)
    have hv := List.length_pos_iff.mpr (splitArrows_ne_nil v)
    have hw := List.length_pos_iff.mpr (splitArrows_ne_nil w)
    omega
  match splitArrows (u ++ arrow ++ (v ++ arrow ++ w)), hlength with
  | first :: second :: third :: more, _ => exact ⟨first, second, third, more, rfl⟩

end Lookahead.Text
