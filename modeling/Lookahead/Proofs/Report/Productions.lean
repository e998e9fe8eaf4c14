import Lookahead.Proofs.Reader.Outline
import Lookahead.Report.Productions

/-!
The printed rules of a grammar that stands for an outline: one rule for every left side, with all its
alternatives. These rules are an outline again, and so are they with one alternative a line; both
stand for the same alternatives by name.
-/

namespace Lookahead

/-- What does not depend on the places is mapped as it is without them. -/
theorem map_mapIdx {α β γ : Type} {l : List α} {f : Nat → α → β} {g : β → γ} {k : α → γ}
    (h : ∀ i a, g (f i a) = k a) : (l.mapIdx f).map g = l.map k := by
  apply List.ext_getElem?
  intro i
  simp [Function.comp_def, h]

namespace Grammar.Lists

variable {g : Grammar} {lefts terminals : List String} {bodies : String → List Body}

theorem nonterminals_eq (h : g.Lists lefts terminals bodies) :
    g.nonterminals = lefts.mapIdx fun i name => ⟨i + 2, name, bodies name⟩ := by
  have hterminals : (terminals.map Symbol.terminal).filterMap Symbol.nonterminal? = [] := by
    simp [List.filterMap_eq_nil_iff, Symbol.nonterminal?]
  have hlefts : (lefts.mapIdx fun i name => Symbol.nonterminal ⟨i + 2, name, bodies name⟩).filterMap
      Symbol.nonterminal? = lefts.mapIdx fun i name => ⟨i + 2, name, bodies name⟩ := by
    simp [List.mapIdx_eq_zipIdx_map, List.filterMap_map, Function.comp_def, Symbol.nonterminal?]
  rw [nonterminals, h.symbols_eq, symbolsOf, List.filterMap_append, List.filterMap_append, hlefts,
    hterminals, List.append_nil]
  rfl

theorem names_eq (h : g.Lists lefts terminals bodies) :
    g.symbols.toList.map Symbol.name = namesOf lefts terminals := by
  have hlefts : (lefts.mapIdx fun i name => Symbol.nonterminal ⟨i + 2, name, bodies name⟩).map
      Symbol.name = lefts.map id := map_mapIdx fun _ _ => rfl
  simp [h.symbols_eq, symbolsOf, namesOf, hlefts, Symbol.name, Function.comp_def]

/-- The symbol with the number of a name goes by this name. -/
theorem name?_numberIn (h : g.Lists lefts terminals bodies) {name : String}
    (hname : name ∈ namesOf lefts terminals) :
    g.name? (numberIn (namesOf lefts terminals) name) = some name := by
  have hne : name ≠ epsilonAlias := by
    rintro rfl
    exact (List.nodup_cons.mp h.nodup).1 hname
  rw [name?, ← Array.getElem?_toList, ← List.getElem?_map, h.names_eq, numberIn, if_neg hne,
    List.getElem?_idxOf hname]

theorem name?_start (h : g.Lists lefts terminals bodies) :
    g.name? g.start = some (lefts.headD epsilonName) := by
  rw [name?, ← Array.getElem?_toList, ← List.getElem?_map, h.names_eq, h.start_eq, namesOf]
  cases lefts <;> rfl

end Grammar.Lists

theorem eraseDups_append_replicate (l : List String) (name : String) (k : Nat) :
    (l ++ List.replicate (k + 1) name).eraseDups = (l ++ [name]).eraseDups := by
  induction k with
  | zero => rfl
  | succ k ih =>
      rw [List.replicate_succ', ← List.append_assoc, eraseDups_concat, if_pos (by simp), ih]

theorem nodup_eraseDups (l : List String) : l.eraseDups.Nodup := by
  induction l using List.reverseRecOn with
  | nil => simp
  | append_singleton l name ih =>
      rw [eraseDups_concat]
      split
      · exact ih
      · next hname =>
          rw [List.nodup_append_comm]
          exact List.nodup_cons.mpr ⟨mt List.mem_eraseDups.mp hname, ih⟩

theorem eraseDups_of_nodup {l : List String} (h : l.Nodup) : l.eraseDups = l := by
  induction l using List.reverseRecOn with
  | nil => rfl
  | append_singleton l name ih =>
      have hcons : (name :: l).Nodup := List.nodup_append_comm.mp h
      obtain ⟨hname, hl⟩ := List.nodup_cons.mp hcons
      rw [eraseDups_concat, if_neg hname, ih hl]

namespace Outline

variable {o : Outline}

def productions (o : Outline) : Outline :=
  o.lefts.map fun left => ⟨left, (o.alternatives left).map shown⟩

def apart (o : Outline) : Outline :=
  o.flatMap fun rule => rule.rights.map fun right => ⟨rule.left, [right]⟩

theorem mem_uses_of_mem_alternatives {left name : String} {alternative : List String}
    (halternative : alternative ∈ o.alternatives left) (hname : name ∈ alternative) :
    name ∈ o.uses := by
  obtain ⟨rule, hrule, hright⟩ := List.mem_flatMap.mp halternative
  exact List.mem_flatten.mpr
    ⟨alternative, List.mem_flatMap.mpr ⟨rule, List.mem_of_mem_filter hrule, hright⟩, hname⟩

theorem mem_names_of_mem_uses {name : String} (h : name ∈ o.uses) : name ∈ epsilonAlias :: o.names := by
  rw [names, mem_namesOf_iff]
  by_cases hknown : name ∈ reservedNames ++ o.lefts
  · exact (List.mem_append.mp hknown).imp_right .inl
  · have hfilter : name ∈ o.uses.filter fun name => name ∉ reservedNames ++ o.lefts :=
      List.mem_filter.mpr ⟨h, by simpa using hknown⟩
    exact .inr (.inr (List.mem_eraseDups.mpr hfilter))

end Outline

theorem mem_shown {alternative : List String} {name : String} (h : name ∈ shown alternative) :
    name = epsilonName ∨ name ∈ alternative ∧ name ≠ epsilonName ∧ name ≠ epsilonAlias := by
  unfold shown at h
  dsimp only at h
  split at h
  · exact .inl (List.mem_singleton.mp h)
  · exact .inr (by simpa using h)

theorem shown_shown (alternative : List String) : shown (shown alternative) = shown alternative := by
  set visible := alternative.filter fun name => name ≠ epsilonName ∧ name ≠ epsilonAlias with hvisible
  have hshown : shown alternative = if visible.isEmpty then [epsilonName] else visible := rfl
  rw [hshown]
  split
  · decide
  · next hne =>
      have htwice : (visible.filter fun name => name ≠ epsilonName ∧ name ≠ epsilonAlias) = visible := by
        simp [hvisible]
      simp only [shown, htwice, if_neg hne]

namespace Outline

variable {o : Outline}

/-- The names in a printed alternative are names of symbols. -/
theorem names?_body {g : Grammar} (h : o.Describes g) {left : String} {alternative : List String}
    (halternative : alternative ∈ o.alternatives left) :
    g.names? ((shown alternative).map (numberIn o.names)) = some (shown alternative) := by
  have hname : ∀ name ∈ shown alternative, g.name? (numberIn o.names name) = some name := by
    intro name hmem
    refine h.name?_numberIn ?_
    rcases mem_shown hmem with rfl | ⟨hmem, -, hne⟩
    · simp [namesOf]
    · have huses := mem_uses_of_mem_alternatives halternative hmem
      exact (List.mem_cons.mp (mem_names_of_mem_uses huses)).resolve_left hne
  rw [Grammar.names?, List.mapM_map]
  exact (mapM_eq_some_map hname).trans (congrArg some (List.map_id' _))

/-- The rules that are printed of a grammar are those of its outline, with the alternatives of each left
side put together. -/
theorem Describes.productions_eq {g : Grammar} (h : o.Describes g) :
    Report.Productions.of? g = some ⟨o.productions⟩ := by
  have hrule : ∀ n ∈ g.nonterminals,
      (do let rights ← n.bodies.mapM g.names?; return (⟨n.name, rights⟩ : NamedRule)) =
        some ⟨n.name, (o.alternatives n.name).map shown⟩ := by
    intro n hn
    rw [h.nonterminals_eq] at hn
    obtain ⟨i, hi, rfl⟩ := List.mem_mapIdx.mp hn
    have hbodies : (o.bodies o.lefts[i]).mapM g.names? = some ((o.alternatives o.lefts[i]).map shown) := by
      rw [bodies, List.mapM_map]
      exact mapM_eq_some_map fun alternative halternative => names?_body h halternative
    simp [hbodies]
  have hrules : (g.nonterminals.map fun n => (⟨n.name, (o.alternatives n.name).map shown⟩ : NamedRule)) =
      o.productions := by
    rw [h.nonterminals_eq]
    exact map_mapIdx fun _ _ => rfl
  rw [Report.Productions.of?, mapM_eq_some_map hrule, hrules]
  rfl

/-! Rules put together and set apart. -/

theorem alternatives_cons (rule : NamedRule) (o : Outline) (left : String) :
    Outline.alternatives (rule :: o) left =
      (if rule.left = left then rule.rights else []) ++ o.alternatives left := by
  by_cases h : rule.left = left <;> simp [alternatives, h]

theorem alternatives_append (o o' : Outline) (left : String) :
    Outline.alternatives (o ++ o') left = o.alternatives left ++ o'.alternatives left := by
  simp [alternatives]

theorem alternatives_apart (o : Outline) (left : String) :
    o.apart.alternatives left = o.alternatives left := by
  induction o with
  | nil => rfl
  | cons rule o ih =>
      have hrule : Outline.alternatives (rule.rights.map fun right => ⟨rule.left, [right]⟩) left =
          if rule.left = left then rule.rights else [] := by
        by_cases h : rule.left = left <;>
          simp [alternatives, List.filter_map, Function.comp_def, h, List.flatMap_map]
      rw [apart, List.flatMap_cons, alternatives_append, hrule, alternatives_cons]
      exact congrArg _ ih

theorem uses_apart (o : Outline) : o.apart.uses = o.uses := by
  simp [uses, apart, List.flatMap_assoc, List.flatMap_map]

theorem lefts_apart (h : ∀ rule ∈ o, rule.rights ≠ []) : o.apart.lefts = o.lefts := by
  have happart : o.apart.map NamedRule.left =
      o.flatMap fun rule => List.replicate rule.rights.length rule.left := by
    simp [apart, List.map_flatMap, Function.comp_def, List.map_const']
  rw [lefts, lefts, happart]
  clear happart
  -- from the right, for the last rule is the one whose left side may have been there before
  induction o using List.reverseRecOn with
  | nil => rfl
  | append_singleton o rule ih =>
      have hlefts := ih fun rule hrule => h rule (List.mem_append_left _ hrule)
      have hmem : rule.left ∈ (o.flatMap fun rule => List.replicate rule.rights.length rule.left) ↔
          rule.left ∈ o.map NamedRule.left := by
        rw [← List.mem_eraseDups, hlefts, List.mem_eraseDups]
      obtain ⟨k, hk⟩ := Nat.exists_eq_succ_of_ne_zero (mt List.length_eq_zero_iff.mp (h rule (by simp)))
      simp only [List.flatMap_append, List.map_append, List.flatMap_singleton, List.map_singleton, hk]
      rw [eraseDups_append_replicate, eraseDups_concat, eraseDups_concat, hlefts]
      simp only [hmem]

theorem nodup_lefts (o : Outline) : o.lefts.Nodup := nodup_eraseDups _

/-- The left sides keep their order when their alternatives are put together. -/
theorem lefts_productions (o : Outline) : o.productions.lefts = o.lefts := by
  have hlefts : o.productions.map NamedRule.left = o.lefts := by simp [productions, Function.comp_def]
  rw [lefts, hlefts, eraseDups_of_nodup o.nodup_lefts]

theorem alternatives_productions {left : String} (hleft : left ∈ o.lefts) :
    o.productions.alternatives left = (o.alternatives left).map shown := by
  have hone : o.lefts.filter (fun name => name = left) = [left] := by
    rw [List.filter_eq, List.count_eq_one_of_mem o.nodup_lefts hleft]
    rfl
  rw [alternatives, productions, List.filter_map]
  simp only [Function.comp_def, hone, List.map_singleton, List.flatMap_singleton]

theorem alternatives_ne_nil (h : ∀ rule ∈ o, rule.rights ≠ []) {left : String}
    (hleft : left ∈ o.lefts) : o.alternatives left ≠ [] := by
  obtain ⟨rule, hrule, rfl⟩ := List.mem_map.mp (List.mem_eraseDups.mp hleft)
  obtain ⟨right, hright⟩ := List.exists_mem_of_ne_nil _ (h rule hrule)
  have hmem : rule ∈ o.filter fun r => r.left = rule.left := List.mem_filter.mpr ⟨hrule, by simp⟩
  exact List.ne_nil_of_mem (List.mem_flatMap.mpr ⟨rule, hmem, hright⟩)

theorem rights_ne_nil_of_mem_productions (h : ∀ rule ∈ o, rule.rights ≠ []) :
    ∀ rule ∈ o.productions, rule.rights ≠ [] := by
  intro rule hrule
  obtain ⟨left, hleft, rfl⟩ := List.mem_map.mp hrule
  simpa using alternatives_ne_nil h hleft

/-- A printed alternative has no other names than the empty string. -/
theorem mem_uses_productions {name : String} (h : name ∈ o.productions.uses) :
    name = epsilonName ∨ name ∈ o.uses := by
  obtain ⟨alternative, halternative, hname⟩ := List.mem_flatten.mp h
  obtain ⟨rule, hrule, hright⟩ := List.mem_flatMap.mp halternative
  obtain ⟨left, -, rfl⟩ := List.mem_map.mp hrule
  obtain ⟨spelled, hspelled, rfl⟩ := List.mem_map.mp hright
  exact (mem_shown hname).imp_right fun h => mem_uses_of_mem_alternatives hspelled h.1

/-- The rules that are printed are those that are printed from them again. -/
theorem productions_apart_productions (h : ∀ rule ∈ o, rule.rights ≠ []) :
    o.productions.apart.productions = o.productions := by
  rw [productions, lefts_apart (rights_ne_nil_of_mem_productions h), lefts_productions]
  refine List.map_congr_left fun left hleft => ?_
  rw [alternatives_apart, alternatives_productions hleft, List.map_map]
  simp only [Function.comp_def, shown_shown]

end Outline

namespace Report.Productions

/-- The printed rules are those of the nonterminals in order. -/
theorem forall₂_of_eq_some {g : Grammar} {p : Productions} (h : of? g = some p) :
    List.Forall₂ (fun n rule => n.name = rule.left ∧ n.bodies.mapM g.names? = some rule.rights)
      g.nonterminals p.rules := by
  simp only [of?, Option.bind_eq_bind, Option.bind_eq_some_iff] at h
  obtain ⟨rules, hrules, h⟩ := h
  cases h
  refine (forall₂_of_mapM_eq_some hrules).imp fun n rule hrule => ?_
  obtain ⟨rights, hrights, h⟩ := Option.bind_eq_some_iff.mp hrule
  cases h
  exact ⟨rfl, hrights⟩

end Report.Productions

end Lookahead
