import Mathlib.Algebra.Order.Ring.Nat
import Mathlib.Tactic.Common
import Mathlib.Data.List.Chain
import Mathlib.Data.List.Perm.Subperm
import Mathlib.Logic.Relation

/-!
# Following links

Every node has at most one link, `next a`.  `follows` walks along the links until it comes to a link to the goal, to a node
without a link, or to a node that it has seen before.  With more steps than there are nodes with a link it decides whether
the goal is reached in one or more steps (`follows_iff`): a node that is seen twice lies on a cycle without the goal.
-/

namespace Rost.Lib

open Relation (ReflTransGen TransGen)

variable {α : Type} {next : α → Option α} {goal : α}

/-- `a` is linked to `b`. -/
def Linked (next : α → Option α) (a b : α) : Prop := next a = some b

/-- The walk from `a` with the nodes `visited` behind it. -/
def follows [DecidableEq α] (next : α → Option α) (goal : α) : Nat → List α → α → Bool
  | 0, _, _ => false
  | fuel + 1, visited, a =>
    match next a with
    | none => false
    | some b => if a ∈ visited then false else if b = goal then true else follows next goal fuel (a :: visited) b

/-- From a set of nodes whose links stay in the set and never lead to the goal, the goal is not reached. -/
theorem not_reached_of_closed {S : α → Prop} (hS : ∀ a b, S a → next a = some b → b ≠ goal ∧ S b) {a : α} (ha : S a) :
    ¬ TransGen (Linked next) a goal := by
  intro h
  induction h using TransGen.head_induction_on with
  | single hlink => exact (hS _ _ ha hlink).1 rfl
  | head hlink _ ih => exact ih (hS _ _ ha hlink).2

/-- The goal is reached from `a` by its link, or from the node that it is linked to. -/
theorem reached_iff {a b : α} (hlink : next a = some b) :
    TransGen (Linked next) a goal ↔ b = goal ∨ TransGen (Linked next) b goal := by
  constructor
  · intro h
    obtain ⟨c, hc, hrest⟩ := TransGen.head'_iff.1 h
    have hbc : b = c := Option.some.inj (hlink.symm.trans hc)
    subst hbc
    rcases Relation.reflTransGen_iff_eq_or_transGen.1 hrest with heq | hmore
    · exact Or.inl heq.symm
    · exact Or.inr hmore
  · rintro (rfl | h)
    · exact TransGen.single hlink
    · exact TransGen.head hlink h

/-- The walk finds the goal exactly when the goal is reached, if the steps left and the nodes behind exceed the number of
nodes with a link. -/
theorem follows_iff_of_visited [DecidableEq α] {nodes : List α} (hnodes : ∀ a b, next a = some b → a ∈ nodes) {fuel : Nat}
    {visited : List α} {a : α} (hfuel : nodes.length < fuel + visited.length) (hnodup : visited.Nodup)
    (hvisited : ∀ v ∈ visited, ∃ w, next v = some w ∧ w ≠ goal ∧ (w = a ∨ w ∈ visited)) :
    follows next goal fuel visited a = true ↔ TransGen (Linked next) a goal := by
  induction fuel generalizing visited a with
  | zero =>
    -- more different nodes with a link than there are
    have hsub : visited ⊆ nodes := by
      intro v hv
      obtain ⟨w, hw, -⟩ := hvisited v hv
      exact hnodes v w hw
    have := (hnodup.subperm hsub).length_le
    omega
  | succ fuel ih =>
    unfold follows
    cases hnext : next a with
    | none =>
      refine iff_of_false (by simp) fun h => ?_
      obtain ⟨b, hb, -⟩ := TransGen.head'_iff.1 h
      cases hnext.symm.trans hb
    | some b =>
      dsimp only
      by_cases hseen : a ∈ visited
      · rw [if_pos hseen]
        refine iff_of_false (by simp) ?_
        refine not_reached_of_closed (S := fun v => v ∈ visited) ?_ hseen
        intro v w hv hw
        obtain ⟨w', hw', hne, hin⟩ := hvisited v hv
        obtain rfl : w = w' := Option.some.inj (hw.symm.trans hw')
        refine ⟨hne, ?_⟩
        rcases hin with rfl | hin
        · exact hseen
        · exact hin
      · rw [if_neg hseen, reached_iff hnext]
        by_cases hgoal : b = goal
        · rw [if_pos hgoal]
          exact iff_of_true rfl (Or.inl hgoal)
        · rw [if_neg hgoal]
          have hrest := @ih (a :: visited) b (by rw [List.length_cons]; omega) (List.nodup_cons.2 ⟨hseen, hnodup⟩) (by
            intro v hv
            rcases List.mem_cons.1 hv with rfl | hv
            · exact ⟨b, hnext, hgoal, Or.inl rfl⟩
            · obtain ⟨w, hw, hne, hin⟩ := hvisited v hv
              refine ⟨w, hw, hne, Or.inr ?_⟩
              rcases hin with rfl | hin
              · exact List.mem_cons_self
              · exact List.mem_cons_of_mem a hin)
          rw [hrest]
          exact ⟨Or.inr, fun h => h.resolve_left hgoal⟩

/-- A walk that begins with more steps than there are nodes with a link decides whether the goal is reached. -/
theorem follows_iff [DecidableEq α] {nodes : List α} (hnodes : ∀ a b, next a = some b → a ∈ nodes) {fuel : Nat}
    (hfuel : nodes.length < fuel) (a : α) : follows next goal fuel [] a = true ↔ TransGen (Linked next) a goal :=
  follows_iff_of_visited hnodes hfuel List.nodup_nil fun v hv => by cases hv

/-- Links that differ at the goal only reach it from the same other nodes. -/
theorem reached_congr {next' : α → Option α} (hsame : ∀ a, a ≠ goal → next' a = next a) {a : α} (hne : a ≠ goal) :
    TransGen (Linked next') a goal ↔ TransGen (Linked next) a goal := by
  have himp : ∀ {m m' : α → Option α}, (∀ a, a ≠ goal → m' a = m a) → TransGen (Linked m) a goal →
      TransGen (Linked m') a goal := by
    intro m m' hm h
    induction h using TransGen.head_induction_on with
    | single hlink => exact TransGen.single ((hm _ hne).trans hlink)
    | @head b c hlink _ ih =>
      have hfirst : Linked m' b c := (hm b hne).trans hlink
      by_cases hc : c = goal
      · rw [hc] at hfirst
        exact TransGen.single hfirst
      · exact TransGen.head hfirst (ih hc)
  exact ⟨himp fun b hb => (hsame b hb).symm, himp hsame⟩

/-! ### Chains of links -/

/-- Every node of a chain is reached from its first. -/
theorem reached_of_mem_chain {r : α → α → Prop} {a x : α} {l : List α} (h : (a :: l).IsChain r) (hx : x ∈ a :: l) :
    ReflTransGen r a x := by
  induction l generalizing a with
  | nil =>
    rw [List.mem_singleton] at hx
    rw [hx]
  | cons b l ih =>
    obtain ⟨hab, hrest⟩ := List.isChain_cons_cons.1 h
    rcases List.mem_cons.1 hx with rfl | hx
    · exact .refl
    · exact .head hab (ih hrest hx)

/-- Every node of a chain but the last has a link. -/
theorem linked_of_mem_dropLast {r : α → α → Prop} {a x : α} {l : List α} (h : (a :: l).IsChain r)
    (hx : x ∈ (a :: l).dropLast) : ∃ y, r x y := by
  induction l generalizing a with
  | nil => cases hx
  | cons b l ih =>
    obtain ⟨hab, hrest⟩ := List.isChain_cons_cons.1 h
    rw [List.dropLast_cons_cons] at hx
    rcases List.mem_cons.1 hx with rfl | hx
    · exact ⟨b, hab⟩
    · exact ih hrest hx

/-- A chain of links that is longer than the list of the nodes with a link comes back to one of them. -/
theorem cycle_of_long_chain {r : α → α → Prop} (nodes : List α) (hnodes : ∀ a b, r a b → a ∈ nodes) {a : α} {l : List α}
    (h : (a :: l).IsChain r) (hlong : nodes.length < l.length) : ∃ x, ReflTransGen r a x ∧ TransGen r x x := by
  by_contra hnone
  -- otherwise the nodes of the chain would all be different
  have hpairs : (a :: l).Pairwise (TransGen r) := (h.imp fun _ _ => TransGen.single).pairwise
  have hnodup : (a :: l).Nodup := by
    refine hpairs.imp_of_mem fun {x y} hx _ hxy heq => ?_
    rw [← heq] at hxy
    exact hnone ⟨x, reached_of_mem_chain h hx, hxy⟩
  have hsub : (a :: l).dropLast ⊆ nodes := by
    intro x hx
    obtain ⟨y, hlink⟩ := linked_of_mem_dropLast h hx
    exact hnodes x y hlink
  have hle := (List.Nodup.subperm (hnodup.sublist (List.dropLast_sublist _)) hsub).length_le
  rw [List.length_dropLast, List.length_cons] at hle
  omega

end Rost.Lib
