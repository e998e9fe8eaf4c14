import Lookahead.Proofs.Sets.Begins
import Lookahead.Proofs.Sets.Follow

/-!
The FOLLOW sets hold nothing but what the rules bear out. `Follows` says how a terminal comes to stand
after a nonterminal, rule by rule, and the sets say exactly that, so that an induction on `Follows`
leads from an entry of a set to the rules it stems from.
-/

namespace Lookahead

namespace Grammar

variable {g : Grammar}

/-- How a terminal can come right after a nonterminal. The end mark comes after the start symbol. -/
inductive Follows (g : Grammar) : Nat → Nat → Prop
  | start : Follows g g.start endMark
  | within {left s t : Nat} {body : Body} {u v : List Nat} (member : body ∈ g.bodies left)
      (split : body.visible = u ++ s :: v) (isNonterminal : g.isNonterminal s = true)
      (beginning : g.Begins v (some t)) : Follows g s t
  | behind {left s t : Nat} {body : Body} {u v : List Nat} (member : body ∈ g.bodies left)
      (split : body.visible = u ++ s :: v) (isNonterminal : g.isNonterminal s = true)
      (vanishing : g.Begins v none) (above : Follows g left t) : Follows g s t

/-- The sets know what can follow. -/
theorem Follows.mem_followers (hg : g.WellFormed) {s t : Nat} (h : g.Follows s t) :
    t ∈ g.followers s := by
  induction h with
  | start => exact hg.endMark_mem_followers_start
  | within hbody hsplit hs hbegins =>
      exact hg.mem_followers_of_body hbody hsplit hs (.inl (hbegins.first hg))
  | behind hbody hsplit hs hvanishes _ ih =>
      exact hg.mem_followers_of_body hbody hsplit hs (.inr ⟨hvanishes.first hg, ih⟩)

end Grammar

namespace FollowTable

open Grammar

variable {g : Grammar} {table : FollowTable}

def Sound (g : Grammar) (table : FollowTable) : Prop :=
  ∀ s t, t ∈ table.ofSymbol s → g.Follows s t

theorem sound_initialFollow : g.initialFollow.Sound g := by
  intro s t ht
  obtain ⟨rfl, -, rfl⟩ := mem_initialFollow.mp ht
  exact .start

/-- Stepping through an alternative adds nothing that is not so. -/
theorem Sound.followBody (hg : g.WellFormed) (h : table.Sound g) {left : Nat} {body : Body}
    (hbody : body ∈ g.bodies left) : (g.followBody g.firstSets left table body).Sound g := by
  intro s t ht
  rw [followBody_eq] at ht
  rcases mem_stepThrough_table.mp ht with ht | ⟨u, v, hsplit, hs, -, ht⟩
  · exact h s t ht
  · have hne : body ≠ [epsilon] := by
      rintro rfl
      have hmem : s ∈ [epsilon] := by simp [hsplit]
      exact (isNonterminal_iff.mp hs).1 (List.mem_singleton.mp hmem)
    have hvisible : body.visible = u ++ s :: v := by
      rw [(hg.fits hbody).visible_eq hne, hsplit]
    have hv : ∀ r ∈ v, r < g.size ∧ r ≠ epsilon := by
      intro r hr
      have hr : r ∈ body.visible := by simp [hvisible, hr]
      exact ⟨((hg.fits hbody).visible r hr).2, (Body.mem_visible.mp hr).2⟩
    rcases (mem_stepThrough_trailer hg fun r hr => (hv r hr).1).mp ht with ht | ⟨hnull, ht⟩
    · exact .within hbody hvisible hs ((hg.first_iff_begins hv).mp ht)
    · exact .behind hbody hvisible hs ((hg.first_iff_begins hv).mp hnull) (h left t ht)

/-- Sweeping adds only what is borne out. -/
theorem adds_followSound (hg : g.WellFormed) :
    Adds (Sound g) Knows (g.sweepFollow g.firstSets) := by
  apply Adds.foldl
  intro n hn
  apply Adds.foldl
  intro body hbody
  rw [← hg.bodies_index hn] at hbody
  constructor
  · intro table h
    exact h.followBody hg hbody
  · intro table fact _ hfact
    rw [followBody_eq]
    exact mem_stepThrough_table.mpr (.inl hfact)

end FollowTable

namespace Grammar

variable {g : Grammar}

/-- The set of a nonterminal says exactly what can follow it. -/
theorem WellFormed.mem_followers_iff (hg : g.WellFormed) {s t : Nat} :
    t ∈ g.followers s ↔ g.Follows s t := by
  have hsound : (g.followSets g.firstSets).table.Sound g :=
    (FollowTable.adds_followSound hg).settle_keeps g.sweepLimit FollowTable.sound_initialFollow
  exact ⟨hsound s t, Follows.mem_followers hg⟩

end Grammar
end Lookahead
