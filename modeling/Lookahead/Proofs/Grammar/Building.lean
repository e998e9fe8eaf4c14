import Lookahead.Proofs.Grammar.LeftRecursion

/-!
What a grammar keeps that is built step by step, whatever the steps are. A name may be given to many
symbols, of which the last one is found under it, names that are reserved may be given away, and bodies
may hold numbers of no symbol. Removing left recursion is made of the other steps and keeps what they
keep.
-/

namespace Lookahead

/-- A step of building. Nothing about its arguments is checked. -/
inductive BuildStep where
  | addNonterminal (name : String)
  | addTerminal (name : String)
  | addBody (left : Nat) (body : Body)
  | clearBodies (left : Nat)
  | withoutLeftRecursion

def Body.IsNormal (body : Body) : Prop := body = [epsilon] ∨ body ≠ [] ∧ epsilon ∉ body

theorem Body.isNormal_normalize (body : Body) : body.normalize.IsNormal := by
  unfold Body.normalize
  split
  · exact .inl rfl
  · next hne => exact .inr ⟨by simpa using hne, fun hmem => (Body.mem_visible.mp hmem).2 rfl⟩

namespace Grammar

variable {g : Grammar}

def afterStep (g : Grammar) : BuildStep → Grammar
  | .addNonterminal name => g.addNonterminal name
  | .addTerminal name => g.addTerminal name
  | .addBody left body => g.addBody left body
  | .clearBodies left => g.clearBodies left
  | .withoutLeftRecursion => g.withoutLeftRecursion

def ofSteps (steps : List BuildStep) : Grammar := steps.foldl afterStep ∅

/-- Symbol 0 is the empty string and has no alternatives, nonterminals know their numbers, and bodies
are in their one form. Under a name stands a symbol that goes by it, or the empty string under its second
spelling for as long as no symbol goes by that, and under the name of every symbol something stands. -/
structure Consistent (g : Grammar) : Prop where
  epsilon_symbol : g.symbols[epsilon]? = some (.nonterminal ⟨epsilon, epsilonName, []⟩)
  index_eq : ∀ {i : Nat} {n : Nonterminal}, g.symbols[i]? = some (Symbol.nonterminal n) → n.index = i
  isNormal : ∀ {left : Nat} {body : Body}, body ∈ g.bodies left → body.IsNormal
  name_of_index : ∀ {name : String} {i : Nat}, g.index? name = some i →
    g.name? i = some name ∨
      name = epsilonAlias ∧ i = epsilon ∧ ∀ j, g.name? j ≠ some epsilonAlias
  index_of_name : ∀ {name : String} {i : Nat}, g.name? i = some name → ∃ j, g.index? name = some j

namespace Consistent

theorem epsilon_lt_size (h : g.Consistent) : epsilon < g.size := lt_size_of_getElem? h.epsilon_symbol

theorem index_lt_size (h : g.Consistent) {name : String} {i : Nat} (hi : g.index? name = some i) :
    i < g.size := by
  rcases h.name_of_index hi with hname | ⟨-, rfl, -⟩
  · exact lt_size_of_name? hname
  · exact h.epsilon_lt_size

theorem of_wellFormed (h : g.WellFormed) (halias : ∀ i, g.name? i ≠ some epsilonAlias) :
    g.Consistent where
  epsilon_symbol := h.epsilon_symbol
  index_eq := h.index_eq
  isNormal hbody := by
    refine (h.fits hbody).imp_right fun ⟨hne, hsymbols⟩ => ⟨hne, fun hmem => ?_⟩
    exact ne_epsilon_of_lt (hsymbols epsilon hmem).1 rfl
  name_of_index hi := (h.name_of_index hi).imp_right fun ⟨hname, hi⟩ => ⟨hname, hi, halias⟩
  index_of_name hi := ⟨_, h.index_of_name hi⟩

theorem empty : (∅ : Grammar).Consistent := by
  refine of_wellFormed .empty fun i hi => ?_
  obtain ⟨s, hs, hname⟩ := Option.map_eq_some_iff.mp hi
  rcases symbols_empty hs with ⟨-, rfl⟩ | ⟨-, rfl⟩
  · exact absurd hname (by decide)
  · exact absurd hname (by decide)

/-- A new symbol at the end takes its name away from the symbol that had it. -/
theorem push (h : g.Consistent) {g' : Grammar} {s : Symbol}
    (hsymbols : ∀ i, g'.symbols[i]? = if i = g.size then some s else g.symbols[i]?)
    (hindex : ∀ x, g'.index? x = if s.name = x then some g.size else g.index? x)
    (hs : ∀ n, s = .nonterminal n → n.index = g.size ∧ n.bodies = []) : g'.Consistent := by
  have hname (i : Nat) : g'.name? i = if i = g.size then some s.name else g.name? i := by
    unfold name?
    rw [hsymbols]
    split <;> rfl
  constructor
  · rw [hsymbols, if_neg h.epsilon_lt_size.ne, h.epsilon_symbol]
  · intro i n hn
    rw [hsymbols] at hn
    split at hn
    · next hi => exact (hs n (Option.some.inj hn)).1.trans hi.symm
    · exact h.index_eq hn
  · intro left body hbody
    obtain ⟨n, hn, hmem⟩ := mem_bodies_iff.mp hbody
    rw [hsymbols] at hn
    split at hn
    · simp [(hs n (Option.some.inj hn)).2] at hmem
    · exact h.isNormal (mem_bodies_iff.mpr ⟨n, hn, hmem⟩)
  · intro x i hi
    rw [hindex] at hi
    split at hi
    · next hx =>
        cases hi
        exact .inl (by rw [hname, if_pos rfl, hx])
    · next hx =>
        rw [hname, if_neg (h.index_lt_size hi).ne]
        refine (h.name_of_index hi).imp_right fun ⟨halias, hi, hnone⟩ => ⟨halias, hi, fun j => ?_⟩
        rw [hname]
        split
        · exact fun hsame => hx ((Option.some.inj hsame).trans halias.symm)
        · exact hnone j
  · intro x i hi
    rw [hindex]
    rw [hname] at hi
    split
    · exact ⟨_, rfl⟩
    · next hx =>
        split at hi
        · exact absurd (Option.some.inj hi) hx
        · exact h.index_of_name hi

theorem addNonterminal (h : g.Consistent) (name : String) : (g.addNonterminal name).Consistent := by
  refine h.push (symbols_addNonterminal name) (index?_addNonterminal name) ?_
  rintro n ⟨⟩
  exact ⟨rfl, rfl⟩

theorem addTerminal (h : g.Consistent) (name : String) : (g.addTerminal name).Consistent :=
  h.push (symbols_addTerminal name) (index?_addTerminal name) (by simp)

/-- Alternatives may be changed in any way that leaves them in their one form. -/
theorem updateBodies (h : g.Consistent) {left : Nat} {f : List Body → List Body}
    (hf : ∀ body ∈ f (g.bodies left), body.IsNormal) : (g.updateBodies left f).Consistent where
  epsilon_symbol := by
    rw [symbols_updateBodies, if_neg (by simp only [ne_eq]; tauto), h.epsilon_symbol]
  index_eq := by
    intro i n hn
    rw [symbols_updateBodies] at hn
    split at hn
    · obtain ⟨s, hs, hn⟩ := Option.map_eq_some_iff.mp hn
      cases s with
      | nonterminal m =>
          have hm := h.index_eq hs
          cases hn
          exact hm
      | terminal name => cases hn
    · exact h.index_eq hn
  isNormal := by
    intro i body hbody
    rw [bodies_updateBodies] at hbody
    split at hbody
    · next hi => exact hf body (hi.1 ▸ hbody)
    · exact h.isNormal hbody
  name_of_index := by
    intro x i hi
    rw [index?_updateBodies] at hi
    simp only [name?_updateBodies]
    exact h.name_of_index hi
  index_of_name := by
    intro x i hi
    rw [name?_updateBodies] at hi
    obtain ⟨j, hj⟩ := h.index_of_name hi
    exact ⟨j, by rw [index?_updateBodies, hj]⟩

theorem clearBodies (h : g.Consistent) (left : Nat) : (g.clearBodies left).Consistent :=
  h.updateBodies (by simp)

theorem addBodies (h : g.Consistent) (left : Nat) (bodies : List Body) :
    (g.addBodies left bodies).Consistent := by
  rw [addBodies_eq]
  apply h.updateBodies
  intro body hbody
  rcases List.mem_append.mp hbody with hbody | hbody
  · exact h.isNormal hbody
  · obtain ⟨b, -, rfl⟩ := List.mem_map.mp hbody
    exact b.isNormal_normalize

theorem addBody (h : g.Consistent) (left : Nat) (body : Body) : (g.addBody left body).Consistent :=
  h.addBodies left [body]

/-! The removal of left recursion, step by step. -/

/-- A step of the removal keeps a grammar consistent, whatever the left side and the earlier
nonterminals are. -/
theorem removeRecursionOf (h : g.Consistent) (earlier : List Nat) (left : Nonterminal) :
    (g.removeRecursionOf earlier left).1.Consistent := by
  by_cases htails : recursiveTails left.index (g.expanded earlier left.index) = []
  · rw [removeRecursionOf_of_nil htails]
    exact (h.clearBodies _).addBodies _ _
  · rw [removeRecursionOf_of_ne_nil htails]
    exact (((h.clearBodies _).addNonterminal _).addBodies _ _).addBodies _ _

theorem removeRecursionFrom (h : g.Consistent) (earlier : List Nat) (lefts : List Nonterminal) :
    (g.removeRecursionFrom earlier lefts).1.Consistent := by
  induction lefts generalizing g earlier with
  | nil => exact h
  | cons left lefts ih =>
      rw [removeRecursionFrom_cons]
      exact ih (h.removeRecursionOf earlier left) _

/-- A step of building keeps a grammar consistent, on any arguments. -/
theorem afterStep (h : g.Consistent) (step : BuildStep) : (g.afterStep step).Consistent := by
  cases step with
  | addNonterminal name => exact h.addNonterminal name
  | addTerminal name => exact h.addTerminal name
  | addBody left body => exact h.addBody left body
  | clearBodies left => exact h.clearBodies left
  | withoutLeftRecursion => exact h.removeRecursionFrom [] g.nonterminals

theorem foldl_afterStep (h : g.Consistent) (steps : List BuildStep) :
    (steps.foldl Grammar.afterStep g).Consistent := by
  induction steps generalizing g with
  | nil => exact h
  | cons step steps ih => exact ih (h.afterStep step)

end Consistent

/-- Whatever the steps and their arguments are, what they build is consistent, and every number under a
name is that of a symbol. -/
theorem built_grammar_consistent (steps : List BuildStep) :
    (ofSteps steps).Consistent ∧
      ∀ name i, (ofSteps steps).index? name = some i → i < (ofSteps steps).size := by
  have h : (ofSteps steps).Consistent := Consistent.empty.foldl_afterStep steps
  exact ⟨h, fun _ _ => h.index_lt_size⟩

/-! Names given twice: the empty string loses its second spelling to a terminal, `S` is the second one,
and a body has a number that no symbol has. -/

example : (ofSteps [.addNonterminal "S", .addTerminal "ε", .addNonterminal "S",
      .addBody 2 [2, 0, 9], .addBody 2 [0], .withoutLeftRecursion]).index? "ε" = some 3 ∧
    (ofSteps [.addNonterminal "S", .addTerminal "ε", .addNonterminal "S",
      .addBody 2 [2, 0, 9], .addBody 2 [0], .withoutLeftRecursion]).index? "S" = some 4 ∧
    (ofSteps [.addNonterminal "S", .addTerminal "ε", .addNonterminal "S",
      .addBody 2 [2, 0, 9], .addBody 2 [0], .withoutLeftRecursion]).bodies 5 = [[9, 5], [0]] := by
  decide +kernel

end Grammar
end Lookahead
