import Mathlib.Tactic.Common
import Mathlib.Data.List.Basic
import Mathlib.Data.List.Induction

/-!
# Paths

A path is a list of names, each written behind a separator; the root is a separator alone.  Any text has a normal form:
its components are taken in order, empty ones and `here` are left out, and `up` takes the name before it away, if there is
one.  The normal form is the text itself exactly if the text is a path (`normalise_eq_self_iff`), and it depends on the
components only, so a separator at the end does not matter (`normalise_append_sep`).
-/

namespace Rost.Lib

variable {α : Type} [DecidableEq α] (sep : α) (here up : List α)

/-- What a component of a path can be. -/
structure IsName (c : List α) : Prop where
  ne_nil : c ≠ []
  sep_notMem : sep ∉ c
  ne_here : c ≠ here
  ne_up : c ≠ up

/-- The path of names. -/
def pathOf (cs : List (List α)) : List α := if cs = [] then [sep] else cs.flatMap fun c => sep :: c

/-- The names that are left after components have been read behind those of `stack`. -/
def reduce (stack : List (List α)) : List (List α) → List (List α)
  | [] => stack
  | c :: cs =>
    if c = [] ∨ c = here then reduce stack cs
    else if c = up then reduce stack.dropLast cs
    else reduce (stack ++ [c]) cs

/-- The normal form of a text. -/
def normalise (path : List α) : List α := pathOf sep (reduce here up [] (path.splitOn sep))

/-- A text that is the path of names. -/
def Canonical (path : List α) : Prop := ∃ cs, (∀ c ∈ cs, IsName sep here up c) ∧ path = pathOf sep cs

variable {sep here up}

/-! ### Components -/

omit [DecidableEq α] in
theorem pathOf_of_ne_nil {cs : List (List α)} (h : cs ≠ []) : pathOf sep cs = cs.flatMap fun c => sep :: c := by
  cases cs with
  | nil => exact absurd rfl h
  | cons c cs => rfl

theorem splitOn_append_flatMap (a : List α) {cs : List (List α)} (h : ∀ c ∈ cs, sep ∉ c) :
    (a ++ cs.flatMap fun c => sep :: c).splitOn sep = a.splitOn sep ++ cs := by
  induction cs generalizing a with
  | nil => simp
  | cons c cs ih =>
    obtain ⟨hc, hcs⟩ := List.forall_mem_cons.1 h
    rw [List.flatMap_cons, List.cons_append, List.splitOn_append_cons_self, ih c hcs, List.splitOn_eq_singleton hc,
      List.singleton_append]

theorem splitOn_pathOf {cs : List (List α)} (h : ∀ c ∈ cs, IsName sep here up c) :
    (pathOf sep cs).splitOn sep = if cs = [] then [[], []] else [] :: cs := by
  by_cases hcs : cs = []
  · subst hcs
    rw [if_pos rfl, pathOf, if_pos rfl]
    exact List.splitOn_append_cons_self [] []
  · rw [if_neg hcs, pathOf_of_ne_nil hcs]
    exact splitOn_append_flatMap [] fun c hc => (h c hc).sep_notMem

theorem sep_notMem_of_mem_splitOn {path c : List α} (hc : c ∈ path.splitOn sep) : sep ∉ c := by
  induction path generalizing c with
  | nil =>
    rw [List.splitOn_nil, List.mem_singleton] at hc
    rw [hc]
    exact List.not_mem_nil
  | cons x path ih =>
    rw [List.splitOn_cons_eq_if_modifyHead] at hc
    split at hc
    · rcases List.mem_cons.1 hc with rfl | hc
      · exact List.not_mem_nil
      · exact ih hc
    · next hx =>
      obtain ⟨d, ds, hds⟩ := List.exists_cons_of_ne_nil (List.splitOn_ne_nil sep path)
      rw [hds, List.modifyHead_cons] at hc
      rcases List.mem_cons.1 hc with rfl | hc
      · rw [List.mem_cons, not_or]
        exact ⟨fun heq => hx (by rw [heq]; exact beq_self_eq_true x), ih (by rw [hds]; exact List.mem_cons_self)⟩
      · exact ih (by rw [hds]; exact List.mem_cons_of_mem _ hc)

/-- A text behind a separator is its components, each behind one. -/
theorem cons_eq_flatMap (path : List α) : sep :: path = (path.splitOn sep).flatMap fun c => sep :: c := by
  induction path with
  | nil => rfl
  | cons x path ih =>
    rw [List.splitOn_cons_eq_if_modifyHead]
    split
    · next hx =>
      rw [List.flatMap_cons, ← ih, eq_of_beq hx]
      rfl
    · obtain ⟨d, ds, hds⟩ := List.exists_cons_of_ne_nil (List.splitOn_ne_nil sep path)
      rw [hds] at ih ⊢
      rw [List.modifyHead_cons, List.flatMap_cons]
      rw [List.flatMap_cons, List.cons_append, List.cons.injEq] at ih
      rw [List.cons_append, List.cons_append, ← ih.2]

/-! ### The normal form -/

theorem reduce_append (stack cs ds : List (List α)) :
    reduce here up stack (cs ++ ds) = reduce here up (reduce here up stack cs) ds := by
  induction cs generalizing stack with
  | nil => rfl
  | cons c cs ih =>
    rw [List.cons_append, reduce, reduce]
    split_ifs
    · exact ih _
    · exact ih _
    · exact ih _

/-- Names stay as they are. -/
theorem reduce_of_names (stack : List (List α)) {cs : List (List α)} (h : ∀ c ∈ cs, IsName sep here up c) :
    reduce here up stack cs = stack ++ cs := by
  induction cs generalizing stack with
  | nil => rw [reduce, List.append_nil]
  | cons c cs ih =>
    obtain ⟨hc, hcs⟩ := List.forall_mem_cons.1 h
    rw [reduce, if_neg (not_or.2 ⟨hc.ne_nil, hc.ne_here⟩), if_neg hc.ne_up, ih _ hcs, List.append_assoc,
      List.singleton_append]

/-- Only names are left. -/
theorem reduce_names {stack cs : List (List α)} (hstack : ∀ c ∈ stack, IsName sep here up c) (hcs : ∀ c ∈ cs, sep ∉ c) :
    ∀ c ∈ reduce here up stack cs, IsName sep here up c := by
  induction cs generalizing stack with
  | nil => exact hstack
  | cons c cs ih =>
    obtain ⟨hc, hcs⟩ := List.forall_mem_cons.1 hcs
    rw [reduce]
    split_ifs with hskip hup
    · exact ih hstack hcs
    · exact ih (fun d hd => hstack d (List.dropLast_subset stack hd)) hcs
    · rw [not_or] at hskip
      refine ih (fun d hd => ?_) hcs
      rcases List.mem_append.1 hd with hd | hd
      · exact hstack d hd
      · rw [List.mem_singleton.1 hd]
        exact ⟨hskip.1, hc, hskip.2, hup⟩

/-- The components of a path are read as its names. -/
theorem reduce_splitOn_pathOf {cs : List (List α)} (h : ∀ c ∈ cs, IsName sep here up c) :
    reduce here up [] ((pathOf sep cs).splitOn sep) = cs := by
  rw [splitOn_pathOf h]
  split
  · next hcs =>
    rw [hcs]
    simp [reduce]
  · rw [reduce, if_pos (.inl rfl), reduce_of_names [] h, List.nil_append]

theorem canonical_normalise (path : List α) : Canonical sep here up (normalise sep here up path) :=
  ⟨_, reduce_names (by simp) fun _ => sep_notMem_of_mem_splitOn, rfl⟩

theorem normalise_pathOf {cs : List (List α)} (h : ∀ c ∈ cs, IsName sep here up c) :
    normalise sep here up (pathOf sep cs) = pathOf sep cs := by
  rw [normalise, reduce_splitOn_pathOf h]

theorem normalise_eq_self_iff {path : List α} : normalise sep here up path = path ↔ Canonical sep here up path := by
  constructor
  · intro h
    rw [← h]
    exact canonical_normalise path
  · rintro ⟨cs, hcs, rfl⟩
    exact normalise_pathOf hcs

/-- Components behind a path are read on from its names. -/
theorem normalise_pathOf_append {cs : List (List α)} (h : ∀ c ∈ cs, IsName sep here up c) (path : List α) :
    normalise sep here up (pathOf sep cs ++ sep :: path) = pathOf sep (reduce here up cs (path.splitOn sep)) := by
  rw [normalise, List.splitOn_append_cons_self, reduce_append, reduce_splitOn_pathOf h]

theorem normalise_append_sep (path : List α) : normalise sep here up (path ++ [sep]) = normalise sep here up path := by
  rw [normalise, List.splitOn_append_cons_self, reduce_append, List.splitOn_nil, normalise]
  simp [reduce]

/-- A text behind a separator is a path exactly if it is empty or all its components are names. -/
theorem canonical_cons_iff {path : List α} : Canonical sep here up (sep :: path) ↔
    path = [] ∨ ∀ c ∈ path.splitOn sep, IsName sep here up c := by
  constructor
  · rintro ⟨cs, hcs, heq⟩
    by_cases hnil : cs = []
    · rw [hnil, pathOf, if_pos rfl, List.cons.injEq] at heq
      exact .inl heq.2
    · right
      have hsplit := splitOn_pathOf hcs
      rw [← heq, if_neg hnil] at hsplit
      rw [show sep :: path = [] ++ sep :: path from rfl, List.splitOn_append_cons_self, List.splitOn_nil,
        List.singleton_append, List.cons.injEq] at hsplit
      rw [hsplit.2]
      exact hcs
  · rintro (rfl | h)
    · exact ⟨[], by simp, rfl⟩
    · exact ⟨path.splitOn sep, h, by rw [pathOf_of_ne_nil (List.splitOn_ne_nil _ _), ← cons_eq_flatMap]⟩

/-- A text behind a path other than the root is one with it exactly if all its components are names. -/
theorem canonical_pathOf_append_iff {cs : List (List α)} (hne : cs ≠ []) (h : ∀ c ∈ cs, IsName sep here up c)
    {path : List α} : Canonical sep here up (pathOf sep cs ++ sep :: path) ↔
      ∀ c ∈ path.splitOn sep, IsName sep here up c := by
  constructor
  · rintro ⟨es, hes, heq⟩
    have hsplit := splitOn_pathOf hes
    rw [← heq, List.splitOn_append_cons_self, splitOn_pathOf h, if_neg hne] at hsplit
    by_cases hnil : es = []
    · -- the root has one component, the text has more
      rw [if_pos hnil, List.cons_append, List.cons.injEq] at hsplit
      have hlen := congrArg List.length hsplit.2
      have hpos := List.length_pos_of_ne_nil hne
      have hpos' := List.length_pos_of_ne_nil (List.splitOn_ne_nil sep path)
      rw [List.length_append, List.length_singleton] at hlen
      omega
    · rw [if_neg hnil, List.cons_append, List.cons.injEq] at hsplit
      exact fun c hc => hes c (by rw [← hsplit.2]; exact List.mem_append_right _ hc)
  · intro hpath
    refine ⟨cs ++ path.splitOn sep, fun c hc => ?_, ?_⟩
    · rcases List.mem_append.1 hc with hc | hc
      · exact h c hc
      · exact hpath c hc
    · rw [pathOf_of_ne_nil hne, pathOf_of_ne_nil (by simp [hne]), List.flatMap_append, ← cons_eq_flatMap]

omit [DecidableEq α] in
/-- Only the root ends with a separator. -/
theorem pathOf_getLast {cs : List (List α)} (hne : cs ≠ []) (h : ∀ c ∈ cs, IsName sep here up c) :
    (pathOf sep cs).getLast? ≠ some sep := by
  obtain ⟨ds, d, rfl⟩ := (List.eq_nil_or_concat' cs).resolve_left hne
  have hd := h d (by simp)
  rw [pathOf_of_ne_nil hne, List.flatMap_append, List.flatMap_singleton, List.getLast?_append_of_ne_nil _ (by simp),
    List.getLast?_cons_of_ne_nil hd.ne_nil]
  intro hlast
  exact hd.sep_notMem (List.mem_of_getLast? hlast)

end Rost.Lib
