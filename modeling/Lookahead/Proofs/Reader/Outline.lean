import Lookahead.Proofs.Fallible
import Lookahead.Proofs.Grammar.WellFormed
import Lookahead.Proofs.Text.Pieces
import Lookahead.Reader.Rule
import Lookahead.Report.Name

/-!
The grammar that a list of spelled rules stands for. Its nonterminals are the distinct left sides and
its terminals the other names on right sides, both numbered in the order in which they come first.
Declaring all left sides and then resolving all alternatives makes exactly this grammar, or fails at
the first rule that names the end of the input.
-/

namespace Lookahead

def reservedNames : List String := [epsilonName, epsilonAlias, endMarkName]

def namesOf (lefts terminals : List String) : List String :=
  [epsilonName, endMarkName] ++ lefts ++ terminals

def numberIn (names : List String) (name : String) : Nat :=
  if name = epsilonAlias then epsilon else names.idxOf name

/-- The symbols in the order of their numbers: the two that every grammar has, the nonterminals, and
the terminals. -/
def symbolsOf (lefts terminals : List String) (bodies : String → List Body) : List Symbol :=
  [.nonterminal ⟨epsilon, epsilonName, []⟩, .terminal endMarkName] ++
    lefts.mapIdx (fun i name => .nonterminal ⟨i + 2, name, bodies name⟩) ++ terminals.map .terminal

/-- The names that are used on right sides and stand on no left side, in the order of first use. -/
def terminalsOf (lefts uses : List String) : List String :=
  (uses.filter fun name => name ∉ reservedNames ++ lefts).eraseDups

/-- An alternative without the empty string, unless nothing else is there. -/
def shown (alternative : List String) : List String :=
  let names := alternative.filter fun name => name ≠ epsilonName ∧ name ≠ epsilonAlias
  if names.isEmpty then [epsilonName] else names

/-- The rules of a text in order, each with the alternatives that stand on one line. -/
abbrev Outline := List NamedRule

namespace Outline

variable (o : Outline)

def lefts : List String := (o.map NamedRule.left).eraseDups

def uses : List String := (o.flatMap NamedRule.rights).flatten

def terminals : List String := terminalsOf o.lefts o.uses

def names : List String := namesOf o.lefts o.terminals

def alternatives (left : String) : List (List String) :=
  (o.filter fun rule => rule.left = left).flatMap NamedRule.rights

def bodies (left : String) : List Body :=
  (o.alternatives left).map fun alternative => (shown alternative).map (numberIn o.names)

theorem uses_cons (rule : NamedRule) (o : Outline) :
    Outline.uses (rule :: o) = rule.rights.flatten ++ o.uses := by
  simp [uses]

end Outline

namespace Grammar

/-- The grammar has these nonterminals with these alternatives, and these terminals beside the end
mark; it finds every symbol by its name and starts with the first nonterminal. -/
structure Lists (g : Grammar) (lefts terminals : List String) (bodies : String → List Body) :
    Prop where
  symbols_eq : g.symbols.toList = symbolsOf lefts terminals bodies
  index?_eq : ∀ name, g.index? name =
    if name ∈ epsilonAlias :: namesOf lefts terminals then
      some (numberIn (namesOf lefts terminals) name)
    else none
  start_eq : g.start = if lefts = [] then epsilon else 2
  nodup : (epsilonAlias :: namesOf lefts terminals).Nodup

end Grammar

def Outline.Describes (o : Outline) (g : Grammar) : Prop := g.Lists o.lefts o.terminals o.bodies

/-! Numbers of names. -/

theorem numberIn_of_getElem? {names : List String} {i : Nat} {name : String}
    (hnodup : (epsilonAlias :: names).Nodup) (h : names[i]? = some name) :
    numberIn names name = i := by
  obtain ⟨halias, hnodup⟩ := List.nodup_cons.mp hnodup
  obtain ⟨hlt, rfl⟩ := List.getElem?_eq_some_iff.mp h
  have hne : names[i] ≠ epsilonAlias := by
    intro heq
    exact halias (heq ▸ List.getElem_mem hlt)
  rw [numberIn, if_neg hne, hnodup.idxOf_getElem]

theorem numberIn_append {names more : List String} {name : String}
    (h : name ∈ epsilonAlias :: names) :
    numberIn (names ++ more) name = numberIn names name := by
  unfold numberIn
  split
  · rfl
  · next hne => rw [List.idxOf_append, if_pos ((List.mem_cons.mp h).resolve_left hne)]

/-- A name keeps its number when more names come behind it. -/
theorem numberIn_stable {names final : List String} (hfinal : names <+: final) {name : String}
    (h : name ∈ epsilonAlias :: names) : numberIn final name = numberIn names name := by
  obtain ⟨more, rfl⟩ := hfinal
  exact numberIn_append h

theorem numberIn_concat {names : List String} {name : String}
    (h : name ∉ epsilonAlias :: names) : numberIn (names ++ [name]) name = names.length := by
  simp only [List.mem_cons, not_or] at h
  rw [numberIn, if_neg h.1, List.idxOf_append, if_neg h.2]
  simp

/-- The two spellings of the empty string have its number, and no other name has. -/
theorem numberIn_eq_epsilon_iff {lefts terminals : List String} {name : String} :
    numberIn (namesOf lefts terminals) name = epsilon ↔ name = epsilonName ∨ name = epsilonAlias := by
  unfold numberIn namesOf
  split
  · next h => simp [h]
  · next h =>
      simp only [List.cons_append, List.idxOf_cons, h, or_false, epsilon, eq_comm (a := name)]
      by_cases hname : epsilonName = name
      · simp [hname]
      · simp only [hname, iff_false, beq_eq_false_iff_ne.mpr hname, cond_false]
        exact Nat.succ_ne_zero _

/-- The body of an alternative, with the empty string left out by name or by number. -/
theorem normalize_map_numberIn (lefts terminals alternative : List String) :
    Body.normalize (alternative.map (numberIn (namesOf lefts terminals))) =
      (shown alternative).map (numberIn (namesOf lefts terminals)) := by
  set number := numberIn (namesOf lefts terminals) with hnumber
  have hvisible : Body.visible (alternative.map number) =
      (alternative.filter fun name => name ≠ epsilonName ∧ name ≠ epsilonAlias).map number := by
    rw [Body.visible, List.filter_map]
    congr 1
    apply List.filter_congr
    intro name _
    simp [hnumber, numberIn_eq_epsilon_iff]
  rw [Body.normalize, hvisible, shown]
  simp only [List.isEmpty_map]
  split
  · have hzero : number epsilonName = epsilon := numberIn_eq_epsilon_iff.mpr (.inl rfl)
    rw [List.map_singleton, hzero]
  · rfl

/-- The names that stand for something: the reserved ones and those of the symbols added since. -/
theorem mem_namesOf_iff {lefts terminals : List String} {name : String} :
    name ∈ epsilonAlias :: namesOf lefts terminals ↔
      name ∈ reservedNames ∨ name ∈ lefts ∨ name ∈ terminals := by
  simp only [namesOf, reservedNames, List.mem_cons, List.mem_append, List.not_mem_nil, or_false]
  tauto

theorem namesOf_concat_left (lefts : List String) (name : String) :
    namesOf (lefts ++ [name]) [] = namesOf lefts [] ++ [name] := by simp [namesOf]

theorem namesOf_concat_terminal (lefts terminals : List String) (name : String) :
    namesOf lefts (terminals ++ [name]) = namesOf lefts terminals ++ [name] := by simp [namesOf]

theorem eraseDups_concat (l : List String) (name : String) :
    (l ++ [name]).eraseDups = if name ∈ l then l.eraseDups else l.eraseDups ++ [name] := by
  rw [List.eraseDups_append, List.cons_removeAll, List.nil_removeAll]
  by_cases h : name ∈ l <;> simp [h, List.eraseDups_cons]

/-- A name in use is a new terminal, unless it is known already. -/
theorem terminalsOf_concat (lefts uses : List String) (name : String) :
    terminalsOf lefts (uses ++ [name]) =
      if name ∈ epsilonAlias :: namesOf lefts (terminalsOf lefts uses) then terminalsOf lefts uses
      else terminalsOf lefts uses ++ [name] := by
  simp only [mem_namesOf_iff]
  unfold terminalsOf
  rw [List.filter_append]
  by_cases hname : name ∈ reservedNames ++ lefts
  · rw [List.filter_cons_of_neg (by simp only [hname, not_true_eq_false, decide_false]; simp),
      List.filter_nil, List.append_nil, if_pos]
    exact (List.mem_append.mp hname).imp_right .inl
  · rw [List.filter_cons_of_pos (by simpa using hname), List.filter_nil, eraseDups_concat]
    simp only [List.mem_append, not_or] at hname
    simp [hname]

theorem prefix_eraseDups (l more : List String) : l.eraseDups <+: (l ++ more).eraseDups := by
  rw [List.eraseDups_append]
  exact List.prefix_append _ _

theorem prefix_terminalsOf (lefts uses more : List String) :
    terminalsOf lefts uses <+: terminalsOf lefts (uses ++ more) := by
  rw [terminalsOf, terminalsOf, List.filter_append]
  exact prefix_eraseDups _ _

theorem prefix_namesOf (lefts : List String) {terminals terminals' : List String}
    (h : terminals <+: terminals') : namesOf lefts terminals <+: namesOf lefts terminals' :=
  (List.prefix_append_right_inj _).mpr h

theorem prefix_namesOf_lefts {lefts lefts' : List String} (h : lefts <+: lefts')
    (terminals : List String) : namesOf lefts [] <+: namesOf lefts' terminals := by
  rw [namesOf, namesOf, List.append_nil]
  exact ((List.prefix_append_right_inj _).mpr h).trans (List.prefix_append _ _)

/-! How the grammar grows. -/

namespace Grammar.Lists

variable {g : Grammar} {lefts terminals : List String} {bodies : String → List Body}

theorem empty : (∅ : Grammar).Lists [] [] fun _ => [] where
  symbols_eq := rfl
  index?_eq name := by
    change (SortedMap.ofList _).find? name = _
    simp only [SortedMap.ofList, List.foldl_cons, List.foldl_nil, SortedMap.find?_insert,
      SortedMap.find?_empty, numberIn, namesOf, List.mem_cons, List.mem_append]
    by_cases hend : name = endMarkName
    · subst hend
      rfl
    by_cases halias : name = epsilonAlias
    · subst halias
      rfl
    by_cases heps : name = epsilonName
    · subst heps
      rfl
    · simp [Ne.symm hend, Ne.symm halias, Ne.symm heps, hend, halias, heps]
  start_eq := rfl
  nodup := by decide

theorem size_eq (h : g.Lists lefts terminals bodies) : g.size = (namesOf lefts terminals).length := by
  rw [size, ← Array.length_toList, h.symbols_eq]
  simp [symbolsOf, namesOf]

theorem index?_eq_none_iff (h : g.Lists lefts terminals bodies) {name : String} :
    g.index? name = none ↔ name ∉ epsilonAlias :: namesOf lefts terminals := by
  rw [h.index?_eq]
  simp

theorem nodup_concat {names : List String} {name : String}
    (hnodup : (epsilonAlias :: names).Nodup) (hname : name ∉ epsilonAlias :: names) :
    (epsilonAlias :: (names ++ [name])).Nodup := by
  rw [← List.cons_append]
  exact List.nodup_append_comm.mp (List.nodup_cons.mpr ⟨hname, hnodup⟩)

/-- A name that was added, or any other one. -/
private theorem index?_concat {g' : Grammar} {names : List String} {name : String}
    (hindex : ∀ x, g.index? x =
      if x ∈ epsilonAlias :: names then some (numberIn names x) else none)
    (hname : name ∉ epsilonAlias :: names) (hsize : g.size = names.length)
    (hg' : ∀ x, g'.index? x = if name = x then some g.size else g.index? x) (x : String) :
    g'.index? x = if x ∈ epsilonAlias :: (names ++ [name]) then
      some (numberIn (names ++ [name]) x) else none := by
  rw [hg', hindex]
  by_cases hx : name = x
  · subst hx
    rw [if_pos rfl, if_pos (by simp), numberIn_concat hname, hsize]
  · rw [if_neg hx, ← List.cons_append]
    by_cases hmem : x ∈ epsilonAlias :: names
    · rw [if_pos hmem, numberIn_append hmem, if_pos (List.mem_append_left _ hmem)]
    · rw [if_neg hmem, if_neg]
      rw [List.mem_append, List.mem_singleton, not_or]
      exact ⟨hmem, fun heq => hx heq.symm⟩

/-- A left side that is new is listed behind the others. -/
theorem addNonterminal (h : g.Lists lefts [] bodies) {name : String}
    (hname : g.index? name = none) (hbodies : bodies name = []) :
    (g.addNonterminal name).Lists (lefts ++ [name]) [] bodies where
  symbols_eq := by
    have hsize := h.size_eq
    simp only [namesOf, List.append_nil, List.length_append, List.length_cons, List.length_nil] at hsize
    simp [Grammar.addNonterminal, h.symbols_eq, symbolsOf, hsize, hbodies, Nat.add_comm]
  index?_eq := by
    rw [namesOf_concat_left]
    exact index?_concat h.index?_eq (h.index?_eq_none_iff.mp hname) h.size_eq (index?_addNonterminal name)
  start_eq := by
    have hsize : g.size = lefts.length + 2 := by simp [h.size_eq, namesOf]
    simp only [Grammar.addNonterminal, h.start_eq, hsize]
    cases lefts <;> simp [epsilon]
  nodup := by
    rw [namesOf_concat_left]
    exact nodup_concat h.nodup (h.index?_eq_none_iff.mp hname)

/-- A name that is new on a right side is listed behind the other terminals. -/
theorem addTerminal (h : g.Lists lefts terminals bodies) {name : String}
    (hname : g.index? name = none) :
    (g.addTerminal name).Lists lefts (terminals ++ [name]) bodies where
  symbols_eq := by simp [Grammar.addTerminal, h.symbols_eq, symbolsOf]
  index?_eq := by
    rw [namesOf_concat_terminal]
    exact index?_concat h.index?_eq (h.index?_eq_none_iff.mp hname) h.size_eq (index?_addTerminal name)
  start_eq := h.start_eq
  nodup := by
    rw [namesOf_concat_terminal]
    exact nodup_concat h.nodup (h.index?_eq_none_iff.mp hname)

theorem exists_left (h : g.Lists lefts terminals bodies) {left : String} (hleft : left ∈ lefts) :
    ∃ k, lefts[k]? = some left ∧ numberIn (namesOf lefts terminals) left = k + 2 := by
  obtain ⟨k, hk⟩ := List.mem_iff_getElem?.mp hleft
  refine ⟨k, hk, numberIn_of_getElem? h.nodup ?_⟩
  have hlt := (List.getElem?_eq_some_iff.mp hk).1
  simp [namesOf, List.getElem?_append_left hlt, hk]

/-- To change the symbol of a left side is to change the alternatives of this left side only. -/
theorem modify_symbolsOf (hnodup : lefts.Nodup) {k : Nat} {left : String} (hk : lefts[k]? = some left)
    (f : List Body → List Body) :
    (symbolsOf lefts terminals bodies).modify (k + 2) (Symbol.mapBodies f) =
      symbolsOf lefts terminals (Function.update bodies left (f (bodies left))) := by
  obtain ⟨hlt, rfl⟩ := List.getElem?_eq_some_iff.mp hk
  simp only [symbolsOf, List.cons_append, List.nil_append, List.modify_succ_cons]
  congr 2
  apply List.ext_getElem?
  intro j
  rw [List.getElem?_modify]
  by_cases hj : j < lefts.length
  · rw [List.getElem?_append_left (by simpa using hj), List.getElem?_append_left (by simpa using hj),
      List.getElem?_mapIdx, List.getElem?_mapIdx, List.getElem?_eq_getElem hj]
    by_cases hjk : k = j
    · subst hjk
      simp [Symbol.mapBodies]
    · have hne : lefts[j] ≠ lefts[k] := fun heq => hjk (hnodup.getElem_inj_iff.mp heq).symm
      simp [hjk, hne]
  · have hjk : k ≠ j := by omega
    rw [List.getElem?_append_right (by simpa using hj),
      List.getElem?_append_right (by simpa using hj)]
    simp [hjk]

theorem addBody (h : g.Lists lefts terminals bodies) {left : String} (hleft : left ∈ lefts)
    (body : Body) :
    (g.addBody (numberIn (namesOf lefts terminals) left) body).Lists lefts terminals
      (Function.update bodies left (bodies left ++ [body.normalize])) where
  symbols_eq := by
    obtain ⟨k, hk, hnumber⟩ := h.exists_left hleft
    have hnodup : lefts.Nodup := by
      have := h.nodup
      simp only [namesOf, List.nodup_cons, List.cons_append, List.nil_append, List.nodup_append] at this
      exact this.2.2.2.1
    rw [hnumber, Grammar.addBody, updateBodies, if_neg (by simp [epsilon])]
    simp only [Array.toList_modify, h.symbols_eq]
    exact modify_symbolsOf hnodup hk _
  index?_eq name := by
    rw [Grammar.addBody, index?_updateBodies]
    exact h.index?_eq name
  start_eq := by
    rw [Grammar.addBody, start_updateBodies]
    exact h.start_eq
  nodup := h.nodup

theorem isNonterminal_left (h : g.Lists lefts terminals bodies) {left : String}
    (hleft : left ∈ lefts) :
    g.isNonterminal (numberIn (namesOf lefts terminals) left) = true := by
  obtain ⟨k, hk, hnumber⟩ := h.exists_left hleft
  obtain ⟨hlt, rfl⟩ := List.getElem?_eq_some_iff.mp hk
  refine isNonterminal_iff.mpr
    ⟨by simp [hnumber, epsilon], ⟨k + 2, lefts[k], bodies lefts[k]⟩, ?_⟩
  rw [← Array.getElem?_toList, h.symbols_eq, hnumber, symbolsOf]
  simp [List.getElem?_append_left, hlt]

theorem index?_reserved (h : g.Lists lefts terminals bodies) {name : String}
    (hname : name ∈ reservedNames) :
    ∃ i, g.index? name = some i ∧ g.isNonterminal i = false := by
  have hmem : name ∈ epsilonAlias :: namesOf lefts terminals := by
    simp only [reservedNames, List.mem_cons, List.not_mem_nil, or_false] at hname
    rcases hname with rfl | rfl | rfl <;> simp [namesOf]
  refine ⟨_, (h.index?_eq name).trans (if_pos hmem), ?_⟩
  by_cases hend : name = endMarkName
  · have hone : numberIn (namesOf lefts terminals) name = 1 :=
      numberIn_of_getElem? h.nodup (by simp [hend, namesOf])
    have hsymbol : g.symbols[1]? = some (.terminal endMarkName) := by
      rw [← Array.getElem?_toList, h.symbols_eq]
      rfl
    rw [hone]
    exact not_isNonterminal_of_isTerminal (isTerminal_iff.mpr ⟨_, hsymbol⟩)
  · have hzero : numberIn (namesOf lefts terminals) name = epsilon := by
      simp only [reservedNames, List.mem_cons, List.not_mem_nil, hend, or_false] at hname
      exact numberIn_eq_epsilon_iff.mpr hname
    rw [hzero]
    rfl

end Grammar.Lists

/-! The two rounds. -/

namespace Reader

open Grammar

variable {g : Grammar} {lefts : List String} {bodies : String → List Body}

/-- A new left side becomes the next nonterminal, and one that was there is found. -/
theorem declare_eq_ok {declared : List String} (h : g.Lists declared.eraseDups [] fun _ => [])
    (line : Nat) {left : List Char} (hleft : Text.IsWord (Text.trim left)) {name : String}
    (hname : String.ofList (Text.trim left) = name) (hfree : name ∉ reservedNames) :
    ∃ g', declare g line left =
        .ok (g', numberIn (namesOf (declared ++ [name]).eraseDups []) name) ∧
      g'.Lists (declared ++ [name]).eraseDups [] fun _ => [] := by
  unfold declare
  simp only [List.isEmpty_iff, hleft.1, hname, ↓reduceIte]
  rw [if_neg (by simpa using hleft.2)]
  rw [eraseDups_concat]
  by_cases hmem : name ∈ declared
  · have hleft : name ∈ declared.eraseDups := List.mem_eraseDups.mpr hmem
    have hindex := (h.index?_eq name).trans
      (if_pos (mem_namesOf_iff.mpr (.inr (.inl hleft))))
    refine ⟨g, ?_, by rwa [if_pos hmem]⟩
    simp only [hindex, h.isNonterminal_left hleft, hmem, ↓reduceIte]
  · have hfresh : g.index? name = none := by
      rw [h.index?_eq_none_iff, mem_namesOf_iff]
      simpa [hmem] using hfree
    refine ⟨g.addNonterminal name, ?_, ?_⟩
    · simp only [hfresh, if_neg hmem, namesOf_concat_left,
        numberIn_concat (h.index?_eq_none_iff.mp hfresh), h.size_eq]
    · rw [if_neg hmem]
      exact h.addNonterminal hfresh rfl

theorem declare_of_empty (g : Grammar) (line : Nat) {left : List Char} (hleft : Text.trim left = []) :
    declare g line left = .error (.malformed line .emptyLeftSide) := by
  simp [declare, hleft]

theorem declare_of_blank (g : Grammar) (line : Nat) {left : List Char} {b : Char}
    (hmem : b ∈ Text.trim left) (hb : Text.isBlank b = true) :
    declare g line left = .error (.malformed line .blankInLeftSide) := by
  have hany : (Text.trim left).any Text.isBlank = true := List.any_eq_true.mpr ⟨b, hmem, hb⟩
  simp [declare, List.ne_nil_of_mem hmem, hany]

theorem declare_of_reserved {terminals : List String} (h : g.Lists lefts terminals bodies)
    (line : Nat) {left : List Char} (hleft : Text.IsWord (Text.trim left)) {name : String}
    (hname : String.ofList (Text.trim left) = name) (hreserved : name ∈ reservedNames) :
    declare g line left = .error (.malformed line (.reservedLeftSide name)) := by
  obtain ⟨i, hindex, hkind⟩ := h.index?_reserved hreserved
  have hany : (Text.trim left).any Text.isBlank = false := by simpa using hleft.2
  simp [declare, hleft.1, hany, hname, hindex, hkind]

/-- A name other than the end mark gets the number that it has among all names in the end. -/
theorem resolve_eq_ok {used final : List String}
    (h : g.Lists lefts (terminalsOf lefts used) bodies) (line : Nat) {name : String}
    (hname : name ≠ endMarkName)
    (hfinal : namesOf lefts (terminalsOf lefts (used ++ [name])) <+: final) :
    ∃ g', resolve g line name = .ok (g', numberIn final name) ∧
      g'.Lists lefts (terminalsOf lefts (used ++ [name])) bodies := by
  rw [resolve, if_neg hname]
  rw [terminalsOf_concat] at hfinal ⊢
  cases hindex : g.index? name with
  | some i =>
      have hmem : name ∈ epsilonAlias :: namesOf lefts (terminalsOf lefts used) := by
        by_contra hmem
        simp [h.index?_eq_none_iff.mpr hmem] at hindex
      rw [h.index?_eq, if_pos hmem] at hindex
      rw [if_pos hmem] at hfinal ⊢
      exact ⟨g, by rw [numberIn_stable hfinal hmem, Option.some.inj hindex], h⟩
  | none =>
      have hmem := h.index?_eq_none_iff.mp hindex
      rw [if_neg hmem] at hfinal ⊢
      rw [namesOf_concat_terminal] at hfinal
      refine ⟨g.addTerminal name, ?_, h.addTerminal hindex⟩
      rw [numberIn_stable hfinal (by simp), numberIn_concat hmem, h.size_eq]

theorem resolveAll_eq_ok {used final : List String}
    (h : g.Lists lefts (terminalsOf lefts used) bodies) (line : Nat) {alternative : List String}
    (hmark : endMarkName ∉ alternative)
    (hfinal : namesOf lefts (terminalsOf lefts (used ++ alternative)) <+: final) :
    ∃ g', resolveAll g line alternative = .ok (g', alternative.map (numberIn final)) ∧
      g'.Lists lefts (terminalsOf lefts (used ++ alternative)) bodies := by
  induction alternative generalizing g used with
  | nil => exact ⟨g, rfl, by simpa using h⟩
  | cons name names ih =>
      simp only [List.mem_cons, not_or] at hmark
      have hsplit : used ++ name :: names = used ++ [name] ++ names := by simp
      rw [hsplit] at hfinal ⊢
      have hbefore := prefix_namesOf lefts (prefix_terminalsOf lefts (used ++ [name]) names)
      obtain ⟨g₁, hresolve, h₁⟩ :=
        resolve_eq_ok h line (Ne.symm hmark.1) (hbefore.trans hfinal)
      obtain ⟨g₂, hrest, h₂⟩ := ih h₁ hmark.2 hfinal
      refine ⟨g₂, ?_, h₂⟩
      simp only [resolveAll, bind_eq_ok, pure_eq_ok]
      exact ⟨_, hresolve, _, hrest, rfl⟩

theorem addAlternative_eq_ok {used final : List String}
    (h : g.Lists lefts (terminalsOf lefts used) bodies) (line : Nat) {left : String}
    (hleft : left ∈ lefts) {alternative : List String} (hmark : endMarkName ∉ alternative)
    (hfinal : namesOf lefts (terminalsOf lefts (used ++ alternative)) <+: final) :
    ∃ g', addAlternative g line (numberIn final left) alternative = .ok g' ∧
      g'.Lists lefts (terminalsOf lefts (used ++ alternative)) (Function.update bodies left
        (bodies left ++ [Body.normalize (alternative.map (numberIn final))])) := by
  obtain ⟨g₁, hresolve, h₁⟩ := resolveAll_eq_ok h line hmark hfinal
  have hknown : left ∈ epsilonAlias :: namesOf lefts (terminalsOf lefts (used ++ alternative)) :=
    mem_namesOf_iff.mpr (.inr (.inl hleft))
  refine ⟨_, ?_, h₁.addBody hleft (alternative.map (numberIn final))⟩
  rw [addAlternative, hresolve, numberIn_stable hfinal hknown]
  rfl

theorem addAlternatives_eq_ok {used final : List String}
    (h : g.Lists lefts (terminalsOf lefts used) bodies) (line : Nat) {left : String}
    (hleft : left ∈ lefts) {alternatives : List (List String)}
    (hmark : endMarkName ∉ alternatives.flatten)
    (hfinal : namesOf lefts (terminalsOf lefts (used ++ alternatives.flatten)) <+: final) :
    ∃ g', alternatives.foldlM (fun g alternative =>
        addAlternative g line (numberIn final left) alternative) g = .ok g' ∧
      g'.Lists lefts (terminalsOf lefts (used ++ alternatives.flatten)) (Function.update bodies left
        (bodies left ++ alternatives.map fun a => Body.normalize (a.map (numberIn final)))) := by
  induction alternatives generalizing g used bodies with
  | nil => exact ⟨g, rfl, by simpa using h⟩
  | cons alternative alternatives ih =>
      rw [List.flatten_cons, List.mem_append, not_or] at hmark
      rw [List.flatten_cons, ← List.append_assoc] at hfinal ⊢
      have hbefore := prefix_namesOf lefts
        (prefix_terminalsOf lefts (used ++ alternative) alternatives.flatten)
      obtain ⟨g₁, hfirst, h₁⟩ :=
        addAlternative_eq_ok h line hleft hmark.1 (hbefore.trans hfinal)
      obtain ⟨g₂, hrest, h₂⟩ := ih h₁ hmark.2 hfinal
      refine ⟨g₂, ?_, by simpa using h₂⟩
      rw [List.foldlM_cons, hfirst]
      exact hrest

/-- The declared rules go by the numbers of the names on their left sides. -/
def Numbers (final : List String) (rules : List Rule) (o : Outline) : Prop :=
  List.Forall₂ (fun rule spelled => rule.left = numberIn final spelled.left ∧
    rule.alternatives = spelled.rights) rules o

theorem Numbers.uses_eq {final : List String} {rules : List Rule} {o : Outline}
    (h : Numbers final rules o) : o.uses = (rules.flatMap Rule.alternatives).flatten := by
  have hrights : o.map NamedRule.rights = rules.map Rule.alternatives := by
    induction h with
    | nil => rfl
    | cons hrule _ ih => rw [List.map_cons, List.map_cons, hrule.2, ih]
  rw [Outline.uses, List.flatMap_def, List.flatMap_def, hrights]

/-- The second round gives every left side its alternatives, and lists the terminals in the order of
their first use. -/
theorem addRules_eq_ok {used final : List String}
    (h : g.Lists lefts (terminalsOf lefts used) bodies) {rules : List Rule} {o : Outline}
    (hrules : Numbers final rules o) (hlefts : ∀ rule ∈ o, rule.left ∈ lefts)
    (hmark : endMarkName ∉ o.uses)
    (hfinal : namesOf lefts (terminalsOf lefts (used ++ o.uses)) <+: final) :
    ∃ g', addRules g rules = .ok g' ∧ g'.Lists lefts (terminalsOf lefts (used ++ o.uses))
      fun left => bodies left ++
        (o.alternatives left).map fun a => Body.normalize (a.map (numberIn final)) := by
  -- all numbers are those among the names in the end, of which the names at hand are a prefix
  induction hrules generalizing g used bodies with
  | nil => exact ⟨g, rfl, by simpa [Outline.uses, Outline.alternatives] using h⟩
  | @cons rule spelled rules o hrule hrules ih =>
      obtain ⟨hleft, halternatives⟩ := hrule
      rw [Outline.uses_cons, List.mem_append, not_or] at hmark
      rw [Outline.uses_cons, ← List.append_assoc] at hfinal ⊢
      have hbefore := prefix_namesOf lefts
        (prefix_terminalsOf lefts (used ++ spelled.rights.flatten) (Outline.uses o))
      obtain ⟨g₁, hfirst, h₁⟩ := addAlternatives_eq_ok h rule.line (hlefts spelled (by simp))
        hmark.1 (hbefore.trans hfinal)
      obtain ⟨g₂, hrest, h₂⟩ :=
        ih h₁ (fun rule hr => hlefts rule (by simp [hr])) hmark.2 hfinal
      refine ⟨g₂, ?_, ?_⟩
      · rw [addRules, List.foldlM_cons, hleft, halternatives, hfirst]
        exact hrest
      · convert h₂ using 2 with name
        by_cases hname : spelled.left = name
        · subst hname
          simp [Outline.alternatives]
        · simp [Outline.alternatives, hname, Ne.symm hname]

/-- The second round makes the grammar that the rules stand for. -/
theorem addRules_describes {o : Outline} (h : g.Lists o.lefts [] fun _ => []) {rules : List Rule}
    (hrules : Numbers o.names rules o) (hmark : endMarkName ∉ o.uses) :
    ∃ g', addRules g rules = .ok g' ∧ o.Describes g' := by
  have hstart : g.Lists o.lefts (terminalsOf o.lefts []) fun _ => [] := h
  obtain ⟨g', hread, hg'⟩ := addRules_eq_ok hstart hrules
    (fun rule hrule => List.mem_eraseDups.mpr (List.mem_map_of_mem hrule)) hmark (List.prefix_refl _)
  refine ⟨g', hread, ?_⟩
  have hbodies : o.bodies = fun left =>
      [] ++ (o.alternatives left).map fun a => Body.normalize (a.map (numberIn o.names)) := by
    funext left
    rw [List.nil_append, Outline.bodies]
    exact List.map_congr_left fun a _ => (normalize_map_numberIn _ _ a).symm
  rw [Outline.Describes, hbodies]
  exact hg'

/-! Where the second round stops. -/

/-- The end mark is the only name that is refused on a right side. -/
theorem resolve_eq_error_iff {line : Nat} {name : String} {e : ReadError} :
    resolve g line name = .error e ↔ name = endMarkName ∧ e = .malformed line .endMarkInBody := by
  unfold resolve
  by_cases hname : name = endMarkName
  · simp [hname, eq_comm]
  · rw [if_neg hname]
    cases g.index? name <;> simp [hname]

theorem resolveAll_eq_error_iff {line : Nat} {alternative : List String} {e : ReadError} :
    resolveAll g line alternative = .error e ↔
      endMarkName ∈ alternative ∧ e = .malformed line .endMarkInBody := by
  induction alternative generalizing g with
  | nil => simp [resolveAll]
  | cons name names ih =>
      have hrest : ∀ g' i, (do let read ← resolveAll g' line names; pure (read.1, i :: read.2)) =
          .error e ↔ endMarkName ∈ names ∧ e = .malformed line .endMarkInBody := by
        intro g' i
        rw [bind_eq_error, ih]
        simp [pure, Except.pure]
      rw [resolveAll, bind_eq_error_of_iff (fun _ => resolve_eq_error_iff) fun a => hrest a.1 a.2,
        List.mem_cons]
      tauto

theorem addAlternatives_eq_error_iff {line left : Nat} {alternatives : List (List String)}
    {e : ReadError} :
    alternatives.foldlM (fun g alternative => addAlternative g line left alternative) g = .error e ↔
      endMarkName ∈ alternatives.flatten ∧ e = .malformed line .endMarkInBody := by
  have hstep : ∀ g alternative e, addAlternative g line left alternative = .error e ↔
      endMarkName ∈ alternative ∧ e = .malformed line .endMarkInBody := by
    intro g alternative e
    rw [addAlternative, bind_eq_error, resolveAll_eq_error_iff]
    simp [pure, Except.pure]
  rw [foldlM_eq_error_iff hstep, exists_and_right, ← Option.isSome_iff_exists, List.find?_isSome]
  simp [List.mem_flatten]

/-- The second round stops at the first rule that names the end of the input. -/
theorem addRules_eq_error_iff {rules : List Rule} {e : ReadError} :
    addRules g rules = .error e ↔ ∃ rule,
      rules.find? (fun rule => endMarkName ∈ rule.alternatives.flatten) = some rule ∧
        e = .malformed rule.line .endMarkInBody := by
  have hstep : ∀ g (rule : Rule) e, rule.alternatives.foldlM (fun g alternative =>
      addAlternative g rule.line rule.left alternative) g = .error e ↔
        endMarkName ∈ rule.alternatives.flatten ∧ e = .malformed rule.line .endMarkInBody :=
    fun _ _ _ => addAlternatives_eq_error_iff
  exact foldlM_eq_error_iff hstep

end Reader
end Lookahead
