import Lookahead.Proofs.Text.Pieces
import Lookahead.Reader.Rule

/-!
Lines and their numbers. A text that is put together from lines with line feeds after or between them
is cut into these lines again, if no line ends in a carriage return. The numbered lines of a text are
its lines that are not blank, and they can be laid out again at their numbers.
-/

namespace Lookahead.Text

theorem not_mem_newline_of_mem_lines {cs line : List Char} (h : line ∈ lines cs) :
    '\n' ∉ line := by
  fun_induction lines cs generalizing line with
  | case1 => cases h
  | case2 cs ih =>
      rcases List.mem_cons.mp h with rfl | h
      · simp
      · exact ih h
  | case3 cs ih =>
      rcases List.mem_cons.mp h with rfl | h
      · simp
      · exact ih h
  | case4 c cs hcr hlf ih =>
      have hc : '\n' ≠ c := fun hc => hlf hc.symm
      cases hlines : lines cs with
      | nil =>
          rw [hlines] at h
          obtain rfl : line = [c] := by simpa [prepend] using h
          simpa using hc
      | cons first rest =>
          rw [hlines] at h ih
          rcases List.mem_cons.mp h with rfl | h
          · have hfirst : '\n' ∉ first := ih (by simp)
            simpa [hc] using hfirst
          · exact ih (by simp [h])

/-- A line in print: it holds no line feed, and no carriage return stands at its end. -/
def IsLine (line : List Char) : Prop := '\n' ∉ line ∧ line.getLast? ≠ some '\r'

/-- A line in front of a text is cut off again. -/
theorem lines_append_newline {line : List Char} (h : IsLine line) (cs : List Char) :
    lines (line ++ '\n' :: cs) = line :: lines cs := by
  induction line with
  | nil => rfl
  | cons c line ih =>
      obtain ⟨hlf, hcr⟩ := h
      simp only [List.mem_cons, not_or] at hlf
      have hcut : lines (c :: (line ++ '\n' :: cs)) = prepend c (lines (line ++ '\n' :: cs)) := by
        refine lines.eq_4 c _ (fun rest hc hrest => ?_) (fun hc => hlf.1 hc.symm)
        subst hc
        cases line with
        | nil => simp at hcr
        | cons d line =>
            obtain ⟨rfl, -⟩ := List.cons.inj hrest
            simp at hlf
      rw [List.cons_append, hcut, ih ⟨hlf.2, fun hlast => hcr ?_⟩]
      · rfl
      · rw [List.getLast?_cons, hlast]
        rfl

theorem lines_of_newline_not_mem {line : List Char} (h : '\n' ∉ line) (hne : line ≠ []) :
    lines line = [line] := by
  fun_induction lines line with
  | case1 => exact absurd rfl hne
  | case2 => simp at h
  | case3 => simp at h
  | case4 c cs _ _ ih =>
      cases cs with
      | nil => rfl
      | cons d cs =>
          rw [ih (fun hmem => h (List.mem_cons_of_mem _ hmem)) (by simp)]
          rfl

/-- Lines with line feeds between them. -/
theorem lines_intercalate {l : List (List Char)} (h : ∀ line ∈ l, IsLine line ∧ line ≠ []) :
    lines (['\n'].intercalate l) = l := by
  induction l with
  | nil => rfl
  | cons line l ih =>
      obtain ⟨hline, hne⟩ := h line (by simp)
      cases l with
      | nil => rw [List.intercalate_singleton, lines_of_newline_not_mem hline.1 hne]
      | cons line' l =>
          rw [List.intercalate_cons_cons, List.append_assoc, List.singleton_append,
            lines_append_newline hline, ih fun line h' => h line (List.mem_cons_of_mem _ h')]

theorem lines_replicate_newline (k : Nat) (cs : List Char) :
    lines (List.replicate k '\n' ++ cs) = List.replicate k [] ++ lines cs := by
  induction k with
  | zero => rfl
  | succ k ih =>
      rw [List.replicate_succ, List.cons_append, lines, ih]
      rfl

end Text

namespace Reader

/-- Line number `n` of the text, counted from 1, is `line`, and it is not blank. -/
def Stands (cs : List Char) (n : Nat) (line : List Char) : Prop :=
  ∃ k, n = k + 1 ∧ (Text.lines cs)[k]? = some line ∧ line.all Text.isBlank = false

/-- The numbered lines are those that stand in the text. -/
theorem mem_numberedLines {cs : List Char} {n : Nat} {line : List Char} :
    (n, line) ∈ numberedLines cs ↔ Stands cs n line := by
  rw [numberedLines, List.mem_filterMap]
  constructor
  · rintro ⟨⟨line, n⟩, hmem, hline⟩
    rw [List.mem_zipIdx_iff_le_and_getElem?_sub] at hmem
    dsimp only at hmem hline
    split at hline
    · cases hline
    · next hblank =>
        cases hline
        exact ⟨n - 1, by omega, hmem.2, Bool.eq_false_iff.mpr hblank⟩
  · rintro ⟨k, rfl, hline, hblank⟩
    refine ⟨(line, k + 1), List.mem_zipIdx_iff_le_and_getElem?_sub.mpr ⟨by omega, hline⟩, ?_⟩
    simp [hblank]

theorem pairwise_numberedLines (cs : List Char) :
    (numberedLines cs).Pairwise fun a b => a.1 < b.1 := by
  have hnumbers : ((Text.lines cs).zipIdx 1).Pairwise fun a b => a.2 < b.2 := by
    rw [← List.pairwise_map (f := Prod.snd) (R := (· < ·)), List.zipIdx_map_snd]
    exact List.pairwise_lt_range'
  refine List.pairwise_filterMap.mpr (hnumbers.imp ?_)
  rintro ⟨line, n⟩ ⟨line', n'⟩ hlt a ha b hb
  simp only [Option.ite_none_left_eq_some, Option.some.injEq] at ha hb
  rw [← ha.2, ← hb.2]
  exact hlt

/-- Where no line is blank, all of them are numbered. -/
theorem map_snd_numberedLines {cs : List Char}
    (h : ∀ line ∈ Text.lines cs, line.all Text.isBlank = false) :
    (numberedLines cs).map Prod.snd = Text.lines cs := by
  have hall : numberedLines cs = ((Text.lines cs).zipIdx 1).map fun p => (p.2, p.1) := by
    rw [numberedLines, ← List.filterMap_eq_map]
    refine List.filterMap_congr ?_
    rintro ⟨line, n⟩ hmem
    simp [h line (List.fst_mem_of_mem_zipIdx hmem)]
  rw [hall, List.map_map]
  exact List.zipIdx_map_fst 1 _

def IsFirst (cs : List Char) (n : Nat) : Prop := ∀ m line, Stands cs m line → n ≤ m

theorem mem_before_iff {cs line line' : List Char} {before after : List (Nat × List Char)} {m n : Nat}
    (h : numberedLines cs = before ++ (n, line) :: after) :
    (m, line') ∈ before ↔ Stands cs m line' ∧ m < n := by
  have hsorted := pairwise_numberedLines cs
  rw [h, List.pairwise_append, List.pairwise_cons] at hsorted
  obtain ⟨-, ⟨hafter, -⟩, hbefore⟩ := hsorted
  rw [← mem_numberedLines, h, List.mem_append, List.mem_cons]
  constructor
  · exact fun hmem => ⟨.inl hmem, hbefore _ hmem _ List.mem_cons_self⟩
  · rintro ⟨hmem | heq | hmem, hlt⟩
    · exact hmem
    · exact absurd (congrArg Prod.fst heq) hlt.ne
    · exact absurd hlt (Nat.lt_asymm (hafter _ hmem))

theorem isFirst_iff {cs line : List Char} {before after : List (Nat × List Char)} {n : Nat}
    (h : numberedLines cs = before ++ (n, line) :: after) : IsFirst cs n ↔ before = [] := by
  rw [List.eq_nil_iff_forall_not_mem]
  constructor
  · rintro hfirst ⟨m, line'⟩ hmem
    obtain ⟨hstands, hlt⟩ := (mem_before_iff h).mp hmem
    exact absurd (hfirst m line' hstands) (Nat.not_le_of_lt hlt)
  · intro hnil m line' hstands
    by_contra hlt
    exact hnil _ ((mem_before_iff h).mpr ⟨hstands, Nat.lt_of_not_le hlt⟩)

/-- Lines at their numbers, where the next line to be written is number `next`. -/
def layOut (next : Nat) : List (Nat × List Char) → List Char
  | [] => []
  | (n, line) :: rest => List.replicate (n - next) '\n' ++ (line ++ '\n' :: layOut (n + 1) rest)

/-- Lines that are laid out at their numbers are found at these numbers. -/
theorem numberedLines_layOut {l : List (Nat × List Char)}
    (hsorted : l.Pairwise fun a b => a.1 < b.1)
    (hline : ∀ a ∈ l, 0 < a.1 ∧ Text.IsLine a.2 ∧ a.2.all Text.isBlank = false) :
    numberedLines (layOut 1 l) = l := by
  -- the lines are numbered from `next` on, which is below every number that is still to come
  suffices hfrom : ∀ next, (∀ a ∈ l, next ≤ a.1) →
      ((Text.lines (layOut next l)).zipIdx next).filterMap (fun a =>
        if a.1.all Text.isBlank then none else some (a.2, a.1)) = l from
    hfrom 1 fun a ha => (hline a ha).1
  induction l with
  | nil => simp [layOut, Text.lines]
  | cons a l ih =>
      intro next hnext
      obtain ⟨n, line⟩ := a
      obtain ⟨hfirst, hsorted⟩ := List.pairwise_cons.mp hsorted
      obtain ⟨-, hisLine, hblank⟩ := hline (n, line) (by simp)
      have hle : next ≤ n := hnext (n, line) (by simp)
      have hrest := ih hsorted (fun a ha => hline a (List.mem_cons_of_mem _ ha)) (n + 1) hfirst
      have hskip : ((List.replicate (n - next) ([] : List Char)).zipIdx next).filterMap
          (fun a => if a.1.all Text.isBlank then none else some (a.2, a.1)) = [] := by
        rw [List.filterMap_eq_nil_iff]
        rintro ⟨line, k⟩ hmem
        have hnil : line = [] := List.eq_of_mem_replicate (List.fst_mem_of_mem_zipIdx hmem)
        simp [hnil]
      rw [layOut, Text.lines_replicate_newline, Text.lines_append_newline hisLine,
        List.zipIdx_append, List.filterMap_append, hskip, List.length_replicate,
        Nat.add_sub_cancel' hle, List.zipIdx_cons, List.filterMap_cons]
      simp only [hblank, Bool.false_eq_true, ↓reduceIte, List.nil_append]
      rw [hrest]

end Reader
end Lookahead
