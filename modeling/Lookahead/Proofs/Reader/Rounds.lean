import Lookahead.Proofs.Fallible
import Lookahead.Proofs.Grammar.WellFormed
import Lookahead.Proofs.Text.Pieces
import Lookahead.Reader

/-!
The two rounds of a reader. The first one adds nonterminals to the grammar, which left sides name, and
the second one adds terminals and alternatives. Both readers cut all their names out of the text, at its
blanks or character by character, so that these are words. A property of grammars that lasts through the
three kinds of addition holds of whatever is read, if it holds of the grammar without rules.
-/

namespace Lookahead.Reader

open Grammar

variable {g g' : Grammar} {named : String → Prop} {P : Grammar → Prop}

/-! What a reader does to the grammar with one left side, one name and one line. -/

/-- A left side is a word. It becomes a new nonterminal, or it stands for one. -/
theorem declare_inversion {line i : Nat} {left : List Char} (hd : declare g line left = .ok (g', i)) :
    Text.IsWord (Text.trim left) ∧
      (g.index? (String.ofList (Text.trim left)) = none ∧
          g' = g.addNonterminal (String.ofList (Text.trim left)) ∧ i = g.size ∨
        g' = g ∧ g.isNonterminal i = true) := by
  unfold declare at hd
  simp only at hd
  split at hd
  · cases hd
  next hne =>
  split at hd
  · cases hd
  next hblank =>
  have hword : Text.IsWord (Text.trim left) := ⟨by simpa using hne, fun c hc =>
    Bool.eq_false_iff.mpr fun hc' => hblank (List.any_eq_true.mpr ⟨c, hc, hc'⟩)⟩
  split at hd
  · next hfresh =>
      cases hd
      exact ⟨hword, .inl ⟨hfresh, rfl, rfl⟩⟩
  · split at hd
    · next hi =>
        cases hd
        exact ⟨hword, .inr ⟨rfl, hi⟩⟩
    · cases hd

/-- A name on a right side stands for a symbol, or it becomes a new terminal. -/
theorem resolve_inversion {line i : Nat} {name : String} (hr : resolve g line name = .ok (g', i)) :
    name ≠ endMarkName ∧ (g' = g ∧ g.index? name = some i ∨
      g.index? name = none ∧ g' = g.addTerminal name ∧ i = g.size) := by
  unfold resolve at hr
  split at hr
  · cases hr
  next hname =>
  split at hr
  · next hi =>
      cases hr
      exact ⟨hname, .inl ⟨rfl, hi⟩⟩
  · next hfresh =>
      cases hr
      exact ⟨hname, .inr ⟨hfresh, rfl, rfl⟩⟩

/-- A line declares a left side, or it goes on with the one before. -/
theorem Spaced.readLine_inversion {previous : Option Nat} {n i : Nat} {line right : List Char}
    (hr : Spaced.readLine g previous n line = .ok (g', i, right)) :
    (∃ left, declare g n left = .ok (g', i)) ∨ g' = g ∧ previous = some i := by
  unfold Spaced.readLine at hr
  split at hr
  · simp only [bind_eq_ok, pure_eq_ok, Prod.mk.injEq] at hr
    obtain ⟨⟨g₁, j⟩, hd, rfl, rfl, -⟩ := hr
    exact .inl ⟨_, hd⟩
  · split at hr
    · cases hr
    · cases hr
      exact .inr ⟨rfl, rfl⟩
    · cases hr
  · cases hr

theorem Compact.readLine_inversion {n i : Nat} {line right : List Char}
    (hr : Compact.readLine g n line = .ok (g', i, right)) :
    ∃ left, declare g n left = .ok (g', i) := by
  unfold Compact.readLine at hr
  split at hr
  · simp only [bind_eq_ok, pure_eq_ok, Prod.mk.injEq] at hr
    obtain ⟨⟨g₁, j⟩, hd, rfl, rfl, -⟩ := hr
    exact ⟨_, hd⟩
  all_goals cases hr

/-! The names on right sides. -/

def IsName (name : String) : Prop := Text.IsWord name.toList

def Rule.Spelled (named : String → Prop) (rule : Rule) : Prop :=
  ∀ name ∈ rule.alternatives.flatten, named name

theorem Spaced.isName_of_mem_alternatives {right : List Char} {name : String}
    (h : name ∈ (Spaced.alternatives right).flatten) : IsName name := by
  obtain ⟨alternative, halternative, hname⟩ := List.mem_flatten.mp h
  obtain ⟨piece, -, rfl⟩ := List.mem_map.mp halternative
  obtain ⟨word, hword, rfl⟩ := List.mem_map.mp hname
  rw [IsName, String.toList_ofList]
  exact Text.isWord_of_mem_words hword

theorem Compact.isName_of_mem_alternatives {right : List Char} {name : String}
    (h : name ∈ (Compact.alternatives right).flatten) : IsName name := by
  obtain ⟨alternative, halternative, hname⟩ := List.mem_flatten.mp h
  obtain ⟨piece, -, rfl⟩ := List.mem_map.mp halternative
  dsimp only at hname
  split at hname
  · cases hname
  · obtain ⟨c, hc, rfl⟩ := List.mem_map.mp hname
    rw [IsName, String.toList_ofList]
    refine ⟨by simp, fun d hd => ?_⟩
    rw [List.mem_singleton.mp hd]
    exact Text.isBlank_of_mem_squeeze hc

/-! Properties that last. -/

/-- A property of well-formed grammars that lasts while a reader adds symbols to them, if their names are
of this kind, and alternatives whose symbols they have. -/
structure Kept (named : String → Prop) (P : Grammar → Prop) : Prop where
  wellFormed : ∀ {g : Grammar}, P g → g.WellFormed
  addNonterminal : ∀ {g : Grammar} {name : String}, P g → g.index? name = none → named name →
    P (g.addNonterminal name)
  addTerminal : ∀ {g : Grammar} {name : String}, P g → g.index? name = none → named name →
    P (g.addTerminal name)
  addBody : ∀ {g : Grammar} {body : Body} (left : Nat), P g → g.Covers body → P (g.addBody left body)

theorem kept_wellFormed (named : String → Prop) : Kept named WellFormed where
  wellFormed h := h
  addNonterminal h hfresh _ := h.addNonterminal hfresh
  addTerminal h hfresh _ := h.addTerminal hfresh
  addBody _ h hbody := h.addBody hbody

/-- Whatever lasts, lasts together with that a number stands for a nonterminal. -/
theorem Kept.and_isNonterminal (hP : Kept named P) (i : Nat) :
    Kept named fun g => P g ∧ g.isNonterminal i = true where
  wellFormed h := hP.wellFormed h.1
  addNonterminal h hfresh hname :=
    ⟨hP.addNonterminal h.1 hfresh hname, by simp [isNonterminal_addNonterminal, h.2]⟩
  addTerminal h hfresh hname := ⟨hP.addTerminal h.1 hfresh hname, by simpa using h.2⟩
  addBody left h hbody := ⟨hP.addBody left h.1 hbody, by simpa [Grammar.addBody] using h.2⟩

theorem Kept.and_covers (hP : Kept named P) (symbols : List Nat) :
    Kept named fun g => P g ∧ g.Covers symbols where
  wellFormed h := hP.wellFormed h.1
  addNonterminal h hfresh hname := ⟨hP.addNonterminal h.1 hfresh hname, h.2.mono (by simp)⟩
  addTerminal h hfresh hname := ⟨hP.addTerminal h.1 hfresh hname, h.2.mono (by simp)⟩
  addBody left h hbody := ⟨hP.addBody left h.1 hbody, h.2.mono (by simp [Grammar.addBody])⟩

/-! The second round. -/

/-- The symbol that a name stands for is one of the grammar, and not the end mark. -/
theorem resolve_keeps {line i : Nat} {name : String} (hP : Kept named P) (h : P g)
    (hname : named name) (hr : resolve g line name = .ok (g', i)) : P g' ∧ g'.Covers [i] := by
  have hg := hP.wellFormed h
  obtain ⟨hmark, ⟨rfl, hi⟩ | ⟨hfresh, rfl, rfl⟩⟩ := resolve_inversion hr
  · refine ⟨h, fun s hs hne => ?_⟩
    obtain rfl := List.mem_singleton.mp hs
    rcases hg.name_of_index hi with hs | ⟨_, hs⟩
    · have hlt := lt_size_of_name? hs
      have hother : s ≠ endMark := by
        rintro rfl
        simp only [name?, hg.endMark_symbol, Option.map_some, Option.some.injEq] at hs
        exact hmark hs.symm
      simp only [epsilon, endMark] at hne hother ⊢
      omega
    · exact absurd hs hne
  · refine ⟨hP.addTerminal h hfresh hname, fun s hs _ => ?_⟩
    obtain rfl := List.mem_singleton.mp hs
    exact ⟨hg.endMark_lt_size, by simp⟩

theorem resolveAll_keeps {line : Nat} {names : List String} {body : Body} (hP : Kept named P)
    (h : P g) (hnames : ∀ name ∈ names, named name) (hr : resolveAll g line names = .ok (g', body)) :
    P g' ∧ g'.Covers body := by
  induction names generalizing g body P with
  | nil =>
      cases hr
      exact ⟨h, by simp [Covers]⟩
  | cons name names ih =>
      obtain ⟨hname, hnames⟩ := List.forall_mem_cons.mp hnames
      simp only [resolveAll, bind_eq_ok, pure_eq_ok, Prod.mk.injEq] at hr
      obtain ⟨⟨g₁, i⟩, hfirst, ⟨g₂, tail⟩, hrest, rfl, rfl⟩ := hr
      have hone := resolve_keeps hP h hname hfirst
      -- The property that the other names keep says of the first symbol too that it is covered.
      obtain ⟨⟨hall, hi⟩, htail⟩ := ih (hP.and_covers [i]) hone hnames hrest
      exact ⟨hall, hi.append htail⟩

theorem addAlternative_keeps {line left : Nat} {alternative : List String} (hP : Kept named P)
    (h : P g) (hnames : ∀ name ∈ alternative, named name)
    (hr : addAlternative g line left alternative = .ok g') : P g' := by
  simp only [addAlternative, bind_eq_ok, pure_eq_ok] at hr
  obtain ⟨⟨g₁, body⟩, hall, rfl⟩ := hr
  obtain ⟨h₁, hbody⟩ := resolveAll_keeps hP h hnames hall
  exact hP.addBody left h₁ hbody

theorem addRules_keeps {rules : List Rule} (hP : Kept named P) (h : P g)
    (hrules : ∀ rule ∈ rules, rule.Spelled named) (hr : addRules g rules = .ok g') : P g' := by
  refine holds_of_foldlM_eq_ok P (fun g₁ g₂ rule hrule h₁ hr => ?_) h hr
  refine holds_of_foldlM_eq_ok P (fun g₃ g₄ alternative halternative h₃ hr => ?_) h₁ hr
  exact addAlternative_keeps hP h₃ (fun name hname =>
    hrules rule hrule name (List.mem_flatten.mpr ⟨alternative, halternative, hname⟩)) hr

/-! The first round. -/

theorem declare_keeps {line i : Nat} {left : List Char} (hP : Kept IsName P) (h : P g)
    (hd : declare g line left = .ok (g', i)) : P g' ∧ g'.isNonterminal i = true := by
  obtain ⟨hword, ⟨hfresh, rfl, rfl⟩ | ⟨rfl, hi⟩⟩ := declare_inversion hd
  · refine ⟨hP.addNonterminal h hfresh (by rwa [IsName, String.toList_ofList]), ?_⟩
    simp [isNonterminal_addNonterminal, (hP.wellFormed h).size_ne_epsilon]
  · exact ⟨h, hi⟩

theorem Spaced.readLine_keeps {previous : Option Nat} {n i : Nat} {line right : List Char}
    (hP : Kept IsName P) (h : P g) (hprevious : ∀ j ∈ previous, g.isNonterminal j = true)
    (hr : Spaced.readLine g previous n line = .ok (g', i, right)) :
    P g' ∧ g'.isNonterminal i = true := by
  rcases Spaced.readLine_inversion hr with ⟨left, hd⟩ | ⟨rfl, rfl⟩
  · exact declare_keeps hP h hd
  · exact ⟨h, hprevious i rfl⟩

/-- After the first round every rule has a nonterminal on its left and words on its right. -/
theorem Spaced.declareAll_keeps {previous : Option Nat} {lines : List (Nat × List Char)}
    {rules : List Rule} (hP : Kept IsName P) (h : P g)
    (hprevious : ∀ j ∈ previous, g.isNonterminal j = true)
    (hr : Spaced.declareAll g previous lines = .ok (g', rules)) :
    P g' ∧ ∀ rule ∈ rules, g'.isNonterminal rule.left = true ∧ rule.Spelled IsName := by
  induction lines generalizing g previous rules P with
  | nil =>
      cases hr
      exact ⟨h, by simp⟩
  | cons line lines ih =>
      obtain ⟨n, line⟩ := line
      simp only [Spaced.declareAll, bind_eq_ok, pure_eq_ok, Prod.mk.injEq] at hr
      obtain ⟨⟨g₁, left, right⟩, hline, ⟨g₂, tail⟩, hrest, rfl, rfl⟩ := hr
      have hone := Spaced.readLine_keeps hP h hprevious hline
      obtain ⟨⟨hall, hleft⟩, htail⟩ := ih (hP.and_isNonterminal left) hone
        (fun j hj => Option.some.inj hj ▸ hone.2) hrest
      exact ⟨hall, List.forall_mem_cons.mpr
        ⟨⟨hleft, fun _ => Spaced.isName_of_mem_alternatives⟩, htail⟩⟩

theorem Compact.declareAll_keeps {lines : List (Nat × List Char)} {rules : List Rule}
    (hP : Kept IsName P) (h : P g) (hr : Compact.declareAll g lines = .ok (g', rules)) :
    P g' ∧ ∀ rule ∈ rules, rule.Spelled IsName := by
  induction lines generalizing g rules with
  | nil =>
      cases hr
      exact ⟨h, by simp⟩
  | cons line lines ih =>
      obtain ⟨n, line⟩ := line
      simp only [Compact.declareAll, bind_eq_ok, pure_eq_ok, Prod.mk.injEq] at hr
      obtain ⟨⟨g₁, left, right⟩, hline, ⟨g₂, tail⟩, hrest, rfl, rfl⟩ := hr
      obtain ⟨_, hd⟩ := Compact.readLine_inversion hline
      obtain ⟨hall, htail⟩ := ih (declare_keeps hP h hd).1 hrest
      exact ⟨hall, List.forall_mem_cons.mpr ⟨fun _ => Compact.isName_of_mem_alternatives, htail⟩⟩

/-! Both rounds. -/

/-- The first left side makes the start symbol of a spaced text a nonterminal. -/
theorem Spaced.read_keeps {cs : List Char} (hP : Kept IsName P) (h : P ∅)
    (hr : Spaced.read cs = .ok g) : P g ∧ g.isNonterminal g.start = true := by
  simp only [Spaced.read, bind_eq_ok] at hr
  obtain ⟨⟨g₁, rules⟩, hall, hr⟩ := hr
  obtain ⟨h₁, hrules⟩ := Spaced.declareAll_keeps hP h (by simp) hall
  cases rules with
  | nil => cases hr
  | cons rule rules =>
      obtain ⟨hleft, -⟩ := hrules rule List.mem_cons_self
      obtain ⟨hg, hleft⟩ := addRules_keeps (hP.and_isNonterminal rule.left) ⟨h₁, hleft⟩
        (fun rule hrule => (hrules rule hrule).2) hr
      exact ⟨hg, (hP.wellFormed hg).isNonterminal_start hleft⟩

theorem Compact.read_keeps {cs : List Char} (hP : Kept IsName P) (h : P ∅)
    (hr : Compact.read cs = .ok g) :
    ∃ g₁ i, P g₁ ∧ g₁.isNonterminal i = true ∧ g = { g₁ with start := i } := by
  simp only [Compact.read, bind_eq_ok] at hr
  obtain ⟨lines, -, ⟨g₁, rules⟩, hall, g₂, hadd, hr⟩ := hr
  obtain ⟨h₁, hrules⟩ := Compact.declareAll_keeps hP h hall
  have h₂ := addRules_keeps hP h₁ hrules hadd
  split at hr
  · split at hr
    · next i _ hi =>
        cases hr
        exact ⟨g₂, i, h₂, hi, rfl⟩
    · cases hr
  · cases hr

/-- Such a property holds of what is read, up to the start symbol, which the compact notation sets once
all rules are there. -/
theorem read_keeps {form : Format} {text : String} (hP : Kept IsName P) (h : P ∅)
    (hr : Grammar.read form text = .ok g) :
    ∃ g₁ i, P g₁ ∧ g₁.isNonterminal i = true ∧ g = { g₁ with start := i } := by
  cases form with
  | spaced =>
      obtain ⟨hg, hstart⟩ := Spaced.read_keeps hP h hr
      exact ⟨g, g.start, hg, hstart, rfl⟩
  | compact => exact Compact.read_keeps hP h hr

end Lookahead.Reader
