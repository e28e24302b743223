import Rost.Vfs.Agreement
import Rost.Vfs.Overlay

/-!
# Repeated and trailing slashes

The three layers split a path each in their own way.  The walk down the static tree takes an empty component for a trailing
slash and stays in the directory it has reached; the walk through the volume finds nothing there; and the writable layer
compares paths as they are, up to one trailing slash.  So paths with the same components resolve equally only when there is
nothing to be found (`equivalent_paths_iff`).
-/

namespace Rost.Vfs

open Overlay (key At)

/-! ### Components -/

/-- The components that are not empty. -/
def named (q : Bytes) : List Bytes := (q.splitOn slash).filter fun c => decide (c ≠ [])

/-- The components in front of the first empty one. -/
def ahead (q : Bytes) : List Bytes := (q.splitOn slash).takeWhile fun c => decide (c ≠ [])

/-- Some component is empty that is not the last. -/
def Doubled (q : Bytes) : Prop := [] ∈ (q.splitOn slash).dropLast

instance (q : Bytes) : Decidable (Doubled q) := inferInstanceAs (Decidable (_ ∈ _))

/-- The path as it is walked down, without a slash in front. -/
def body (path : Bytes) : Bytes :=
  let p := trimNull path
  if p.head? = some slash then p.tail else p

/-- The sequence of the non-empty components of a path. -/
def components (path : Bytes) : List Bytes := named (trimNull path)

/-- The first path is walked down to an empty component, and the other one further than that. -/
def Sooner (p q : Bytes) : Prop :=
  Doubled (body p) ∧ ahead (body p) <+: ahead (body q) ∧ (Doubled (body q) → ahead (body p) ≠ ahead (body q))

instance (p q : Bytes) : Decidable (Sooner p q) := inferInstanceAs (Decidable (_ ∧ _ ∧ _))

variable {p q : Bytes}

/-- A component in front of the rest. -/
private theorem splitOn_cases (q : Bytes) :
    (q.splitOn slash = [(splitFirst q).1] ∧ (splitFirst q).2 = []) ∨
      q.splitOn slash = (splitFirst q).1 :: (splitFirst q).2.splitOn slash := by
  have hno := slash_not_mem_splitFirst q
  obtain ⟨hq, hrest⟩ | hq := splitFirst_cases q
  · left
    refine ⟨?_, hrest⟩
    conv_lhs => rw [hq]
    exact List.splitOn_eq_singleton hno
  · right
    conv_lhs => rw [hq]
    exact List.splitOn_append_cons_self_of_not_mem hno _

private theorem splitOn_of_nil (hq : q ≠ []) (hnil : (splitFirst q).1 = []) :
    q.splitOn slash = [] :: (splitFirst q).2.splitOn slash := by
  obtain ⟨heq, -⟩ | heq := splitFirst_cases q
  · exact absurd (heq.trans hnil) hq
  · conv_lhs => rw [heq, hnil]
    exact List.splitOn_append_cons_self_of_not_mem List.not_mem_nil _

@[simp] theorem named_nil : named [] = [] := by decide

@[simp] theorem ahead_nil : ahead [] = [] := by decide

theorem not_doubled_nil : ¬ Doubled [] := by decide

theorem named_of_ne (hne : (splitFirst q).1 ≠ []) : named q = (splitFirst q).1 :: named (splitFirst q).2 := by
  unfold named
  obtain ⟨hsplit, hrest⟩ | hsplit := splitOn_cases q
  · rw [hsplit, hrest]
    simp [hne]
  · rw [hsplit, List.filter_cons_of_pos (by simpa using hne)]

theorem ahead_of_ne (hne : (splitFirst q).1 ≠ []) : ahead q = (splitFirst q).1 :: ahead (splitFirst q).2 := by
  unfold ahead
  obtain ⟨hsplit, hrest⟩ | hsplit := splitOn_cases q
  · rw [hsplit, hrest]
    simp [hne]
  · rw [hsplit, List.takeWhile_cons_of_pos (by simpa using hne)]

theorem doubled_of_ne (hne : (splitFirst q).1 ≠ []) : Doubled q ↔ Doubled (splitFirst q).2 := by
  unfold Doubled
  obtain ⟨hsplit, hrest⟩ | hsplit := splitOn_cases q
  · rw [hsplit, hrest]
    exact Iff.rfl
  · rw [hsplit, List.dropLast_cons_of_ne_nil (List.splitOn_ne_nil _ _), List.mem_cons]
    exact or_iff_right (Ne.symm hne)

theorem ahead_of_nil (hnil : (splitFirst q).1 = []) : ahead q = [] := by
  by_cases hq : q = []
  · rw [hq, ahead_nil]
  · unfold ahead
    rw [splitOn_of_nil hq hnil]
    rfl

theorem doubled_of_nil (hq : q ≠ []) (hnil : (splitFirst q).1 = []) : Doubled q := by
  unfold Doubled
  rw [splitOn_of_nil hq hnil, List.dropLast_cons_of_ne_nil (List.splitOn_ne_nil _ _)]
  exact List.mem_cons_self

/-- Without an empty component in between, the walk goes through all of them. -/
theorem ahead_eq_named (h : ¬ Doubled q) : ahead q = named q := by
  generalize hlen : q.length = len
  induction len using Nat.strong_induction_on generalizing q with
  | _ len ih =>
    by_cases hnil : (splitFirst q).1 = []
    · have hq : q = [] := by
        by_contra hq
        exact h (doubled_of_nil hq hnil)
      rw [hq, ahead_nil, named_nil]
    · have hlt := length_splitFirst_lt hnil
      rw [ahead_of_ne hnil, named_of_ne hnil, ih _ (by omega) (fun hd => h ((doubled_of_ne hnil).2 hd)) rfl]

theorem ahead_prefix_named (q : Bytes) : ahead q <+: named q := by
  generalize hlen : q.length = len
  induction len using Nat.strong_induction_on generalizing q with
  | _ len ih =>
    by_cases hnil : (splitFirst q).1 = []
    · rw [ahead_of_nil hnil]
      exact List.nil_prefix
    · have hlt := length_splitFirst_lt hnil
      rw [ahead_of_ne hnil, named_of_ne hnil, List.cons_prefix_cons]
      exact ⟨rfl, ih _ (by omega) _ rfl⟩

/-- The slash in front of a path stands behind an empty component. -/
theorem named_body (path : Bytes) : named (body path) = components path := by
  unfold components body
  dsimp only
  generalize trimNull path = r
  by_cases hhead : r.head? = some slash
  · obtain ⟨t, rfl⟩ := List.head?_eq_some_iff.1 hhead
    have hsplit : List.splitOn slash ([] ++ slash :: t) = [] :: List.splitOn slash t :=
      List.splitOn_append_cons_self_of_not_mem List.not_mem_nil t
    rw [List.nil_append] at hsplit
    rw [if_pos hhead, List.tail_cons]
    unfold named
    rw [hsplit, List.filter_cons_of_neg (by simp)]
  · rw [if_neg hhead]

/-- Of two paths with the same components, one is walked down further, if they are not walked down alike. -/
theorem sooner_cases (h : components p = components q) :
    (ahead (body p) = ahead (body q) ∧ (Doubled (body p) ↔ Doubled (body q))) ∨ Sooner p q ∨ Sooner q p := by
  rw [← named_body p, ← named_body q] at h
  have hp := ahead_prefix_named (body p)
  have hq := ahead_prefix_named (body q)
  by_cases heq : ahead (body p) = ahead (body q)
  · by_cases hdp : Doubled (body p)
    · by_cases hdq : Doubled (body q)
      · exact .inl ⟨heq, iff_of_true hdp hdq⟩
      · exact .inr (.inl ⟨hdp, heq ▸ List.prefix_rfl, fun hd => absurd hd hdq⟩)
    · by_cases hdq : Doubled (body q)
      · exact .inr (.inr ⟨hdq, heq ▸ List.prefix_rfl, fun hd => absurd hd hdp⟩)
      · exact .inl ⟨heq, iff_of_false hdp hdq⟩
  · rw [h] at hp
    obtain hpre | hpre := List.prefix_or_prefix_of_prefix hp hq
    · have hdp : Doubled (body p) := by
        by_contra hd
        rw [ahead_eq_named hd, h] at hpre heq
        exact heq (hpre.eq_of_length_le hq.length_le)
      exact .inr (.inl ⟨hdp, hpre, fun _ => heq⟩)
    · have hdq : Doubled (body q) := by
        by_contra hd
        rw [ahead_eq_named hd] at hpre heq
        exact heq (hp.eq_of_length_le hpre.length_le)
      exact .inr (.inr ⟨hdq, hpre, fun _ heq' => heq heq'.symm⟩)

theorem Sooner.asymm (h : Sooner p q) : ¬ Sooner q p := by
  rintro ⟨hdq, hpre, -⟩
  exact h.2.2 hdq (h.2.1.eq_of_length_le hpre.length_le)

theorem not_sooner_of_alike (heq : ahead (body p) = ahead (body q)) (hd : Doubled (body p) ↔ Doubled (body q)) :
    ¬ Sooner p q := fun h => h.2.2 (hd.1 h.1) heq

/-- A function of the way a path is walked down, when `H` tells whether it is the same for a path that ends sooner. -/
private theorem eq_iff_of_sooner {α : Type} {f : Bytes → α} {H : Bytes → Bytes → Prop} (h : components p = components q)
    (halike : ahead (body p) = ahead (body q) → (Doubled (body p) ↔ Doubled (body q)) → f p = f q)
    (hsooner : ∀ {p q : Bytes}, Sooner p q → (f p = f q ↔ H p q)) :
    f p = f q ↔ (Sooner p q → H p q) ∧ (Sooner q p → H q p) := by
  obtain ⟨heq, hd⟩ | hpq | hqp := sooner_cases h
  · exact iff_of_true (halike heq hd) ⟨fun hs => absurd hs (not_sooner_of_alike heq hd),
      fun hs => absurd hs (not_sooner_of_alike heq.symm hd.symm)⟩
  · rw [hsooner hpq]
    exact ⟨fun hh => ⟨fun _ => hh, fun hs => absurd hs hpq.asymm⟩, fun hh => hh.1 hpq⟩
  · rw [eq_comm, hsooner hqp]
    exact ⟨fun hh => ⟨fun hs => absurd hs hqp.asymm, fun _ => hh⟩, fun hh => hh.2 hqp⟩

/-! ### The static tree -/

namespace Static

/-- The node that the names lead to. -/
def resolve : Node → List Bytes → Option Node
  | node, [] => some node
  | .file _ _, _ :: _ => none
  | .dir children, c :: cs =>
    match children.find? fun entry => decide (trimNull entry.1 = c) with
    | some entry => resolve entry.2 cs
    | none => none

theorem resolve_dir (children : List (Bytes × Node)) (c : Bytes) (cs : List Bytes) :
    resolve (.dir children) (c :: cs) =
      (children.find? fun entry => decide (trimNull entry.1 = c)).bind fun entry => resolve entry.2 cs := by
  rw [resolve]
  cases children.find? fun entry => decide (trimNull entry.1 = c) <;> rfl

theorem resolve_append (node : Node) (cs ds : List Bytes) :
    resolve node (cs ++ ds) = (resolve node cs).bind fun n => resolve n ds := by
  induction cs generalizing node with
  | nil => cases node <;> rfl
  | cons c cs ih =>
    cases node with
    | file data flags => rfl
    | dir children =>
      rw [List.cons_append, resolve_dir, resolve_dir, Option.bind_assoc]
      congr 1
      funext entry
      exact ih entry.2

/-- What stands further down in the tree is smaller. -/
theorem sizeOf_resolve_le {node n : Node} {cs : List Bytes} (h : resolve node cs = some n) :
    sizeOf n + cs.length ≤ sizeOf node := by
  induction cs generalizing node with
  | nil =>
    cases node <;> cases h <;> exact Nat.le_refl _
  | cons c cs ih =>
    cases node with
    | file data flags => cases h
    | dir children =>
      rw [resolve_dir] at h
      obtain ⟨entry, hfind, hrest⟩ := Option.bind_eq_some_iff.1 h
      have hsub := ih hrest
      have hentry := List.sizeOf_lt_of_mem (List.mem_of_find?_eq_some hfind)
      have hpair : sizeOf entry = 1 + sizeOf entry.1 + sizeOf entry.2 := rfl
      have hdir : sizeOf (Node.dir children) = 1 + sizeOf children := Node.dir.sizeOf_spec children
      rw [List.length_cons]
      omega

/-- The walk leads to what the components in front of the first empty one lead to, and has to stay in a directory there. -/
theorem walk_eq (node : Node) (q : Bytes) :
    walk node q = if Doubled q then (resolve node (ahead q)).filter Node.isDir else resolve node (ahead q) := by
  generalize hlen : q.length = len
  induction len using Nat.strong_induction_on generalizing node q with
  | _ len ih =>
    by_cases hq : q = []
    · rw [hq, if_neg not_doubled_nil, ahead_nil]
      cases node <;> rfl
    by_cases hnil : (splitFirst q).1 = []
    · rw [if_pos (doubled_of_nil hq hnil), ahead_of_nil hnil]
      cases node with
      | file data flags => exact walk_file hq
      | dir children =>
        unfold walk walkFrom
        rw [if_neg hq]
        dsimp only
        rw [if_pos hnil]
        rfl
    · have hlt := length_splitFirst_lt hnil
      rw [ahead_of_ne hnil, if_congr (doubled_of_ne hnil) rfl rfl]
      cases node with
      | file data flags =>
        rw [walk_file hq]
        split <;> rfl
      | dir children =>
        rw [walk_dir hq hnil, resolve_dir]
        cases children.find? fun entry => decide (trimNull entry.1 = (splitFirst q).1) with
        | none => split <;> rfl
        | some entry => exact ih _ (by omega) entry.2 _ rfl

theorem lookup_eq (progs : Programs) (path : Bytes) :
    lookup progs path =
      if Doubled (body path) then (resolve (root progs) (ahead (body path))).filter Node.isDir
      else resolve (root progs) (ahead (body path)) := walk_eq (root progs) (body path)

/-- There is a directory at the names. -/
def IsDir (progs : Programs) (cs : List Bytes) : Prop := ∃ children, resolve (root progs) cs = some (.dir children)

/-- There is a file at the names. -/
def IsFile (progs : Programs) (cs : List Bytes) : Prop := ∃ data flags, resolve (root progs) cs = some (.file data flags)

/-- The empty component makes no difference: there is no directory in front of it, and no file if nothing follows. -/
def Harmless (progs : Programs) (p q : Bytes) : Prop :=
  if ahead (body p) = ahead (body q) then ¬ IsFile progs (ahead (body p)) else ¬ IsDir progs (ahead (body p))

theorem lookup_eq_iff_of_sooner {progs : Programs} {p q : Bytes} (h : Sooner p q) :
    lookup progs p = lookup progs q ↔ Harmless progs p q := by
  obtain ⟨hdp, hpre, hstrict⟩ := h
  rw [lookup_eq, lookup_eq, if_pos hdp]
  unfold Harmless IsFile IsDir
  by_cases heq : ahead (body p) = ahead (body q)
  · rw [if_pos heq, if_neg fun hdq => hstrict hdq heq, ← heq]
    obtain _ | ⟨data, flags⟩ | children := resolve (root progs) (ahead (body p))
    · exact iff_of_true rfl (by rintro ⟨_, _, h⟩; cases h)
    · exact iff_of_false (fun h => by cases h) (not_not.2 ⟨data, flags, rfl⟩)
    · exact iff_of_true rfl (by rintro ⟨_, _, h⟩; cases h)
  · rw [if_neg heq]
    obtain ⟨ds, hds⟩ := hpre
    have hne : ds ≠ [] := by
      rintro rfl
      exact heq ((List.append_nil _).symm.trans hds)
    rw [← hds, resolve_append]
    obtain _ | ⟨data, flags⟩ | children := resolve (root progs) (ahead (body p))
    · refine iff_of_true ?_ (by rintro ⟨_, h⟩; cases h)
      split <;> rfl
    · obtain ⟨d, ds, rfl⟩ := List.exists_cons_of_ne_nil hne
      refine iff_of_true ?_ (by rintro ⟨_, h⟩; cases h)
      split <;> rfl
    · refine iff_of_false (fun h => ?_) (not_not.2 ⟨children, rfl⟩)
      -- a directory does not stand further down in itself
      have hdeep : resolve (.dir children) ds = some (.dir children) := by
        split at h
        · exact (Option.filter_eq_some_iff.1 h.symm).1
        · exact h.symm
      have hsize := sizeOf_resolve_le hdeep
      have hpos := List.length_pos_iff.2 hne
      omega

end Static

/-! ### The volume -/

namespace Fat32

variable {disk : Disk} {v : Volume}

/-- What the names lead to from a file or directory; `none` if a directory on the way cannot be read to its end. -/
def resolve (disk : Disk) (v : Volume) : FileInfo → List Bytes → Option (Option FileInfo)
  | fi, [] => some (some fi)
  | fi, c :: cs =>
    if fi.isDir then
      (scanDir disk v fi.firstCluster).bind fun records =>
        match records.find? fun r => eqCi r.name c with
        | none => some none
        | some r => resolve disk v r.info cs
    else some none

def rootInfo (v : Volume) : FileInfo := ⟨v.rootClus, 0, true⟩

theorem resolve_append (fi : FileInfo) (cs ds : List Bytes) :
    resolve disk v fi (cs ++ ds) = (resolve disk v fi cs).bind fun found =>
      match found with
      | none => some none
      | some fi => resolve disk v fi ds := by
  induction cs generalizing fi with
  | nil => rfl
  | cons c cs ih =>
    rw [List.cons_append, resolve, resolve]
    by_cases hdir : fi.isDir = true
    · rw [if_pos hdir, if_pos hdir, Option.bind_assoc]
      congr 1
      funext records
      cases records.find? fun r => eqCi r.name c with
      | none => rfl
      | some r => exact ih r.info
    · rw [if_neg hdir, if_neg hdir]
      rfl

/-- What the walk finds: nothing at an empty component, but the directories in front of it are read. -/
private def outcome (q : Bytes) (found : Option (Option FileInfo)) : Option (Option FileInfo) :=
  if Doubled q then found.map fun _ => none else found

private theorem outcome_none (q : Bytes) : outcome q none = none := by
  unfold outcome
  split <;> rfl

private theorem outcome_some_none (q : Bytes) : outcome q (some none) = some none := by
  unfold outcome
  split <;> rfl

private theorem lookupAt_eq (fi : FileInfo) (hdir : fi.isDir = true) (hq : q ≠ []) :
    lookupAt disk v fi.firstCluster q = outcome q (resolve disk v fi (ahead q)) := by
  generalize hlen : q.length = len
  induction len using Nat.strong_induction_on generalizing fi q with
  | _ len ih =>
    by_cases hnil : (splitFirst q).1 = []
    · rw [lookupAt_of_nil hnil, ahead_of_nil hnil]
      unfold outcome
      rw [if_pos (doubled_of_nil hq hnil)]
      rfl
    · have hlt := length_splitFirst_lt hnil
      have hsame : ∀ found, outcome q found = outcome (splitFirst q).2 found := fun found =>
        if_congr (doubled_of_ne hnil) rfl rfl
      rw [lookupAt_step hnil, ahead_of_ne hnil, resolve, if_pos hdir]
      cases scanDir disk v fi.firstCluster with
      | none => rw [Option.bind_none, Option.bind_none, outcome_none]
      | some records =>
        rw [Option.bind_some, Option.bind_some]
        cases records.find? fun r => eqCi r.name (splitFirst q).1 with
        | none => exact (outcome_some_none q).symm
        | some r =>
          dsimp only
          rw [hsame]
          by_cases hrest : (splitFirst q).2 = []
          · rw [if_pos hrest, hrest, ahead_nil]
            exact (if_neg not_doubled_nil).symm
          rw [if_neg hrest]
          by_cases hsub : r.isDir = true
          · rw [if_pos hsub]
            exact ih _ (by omega) r.info hsub hrest rfl
          · rw [if_neg hsub]
            -- a file is not searched, and an empty component finds nothing
            by_cases hempty : (splitFirst (splitFirst q).2).1 = []
            · unfold outcome
              rw [if_pos (doubled_of_nil hrest hempty), ahead_of_nil hempty]
              rfl
            · rw [ahead_of_ne hempty, resolve, if_neg (show ¬ r.info.isDir = true from hsub), outcome_some_none]

private theorem trimPath_eq (path : Bytes) : trimPath path = body path := by
  unfold trimPath body
  cases path with
  | nil => rfl
  | cons b path =>
    by_cases hb : b = slash
    · subst hb
      have hnull : trimNull (slash :: path) = slash :: trimNull path := List.takeWhile_cons_of_pos (by decide)
      rw [hnull]
      rfl
    · have hhead : (b :: path).head? ≠ some slash := by simpa using hb
      rw [if_neg hhead]
      dsimp only
      rw [if_neg]
      intro h
      by_cases hz : b = 0
      · subst hz
        cases h
      · have hnull : trimNull (b :: path) = b :: trimNull path := List.takeWhile_cons_of_pos (by simpa using hz)
        rw [hnull] at h
        exact hhead h

private theorem lookupIn_eq_outcome (path : Bytes) :
    lookupIn disk v path = outcome (body path) (resolve disk v (rootInfo v) (ahead (body path))) := by
  rw [lookupIn_eq, trimPath_eq]
  by_cases hq : body path = []
  · rw [if_pos hq, hq, ahead_nil]
    exact (if_neg not_doubled_nil).symm
  · rw [if_neg hq]
    exact lookupAt_eq (rootInfo v) rfl hq

/-- The empty component makes no difference: a directory in front of it cannot be read; or all directories can, and the
other path finds nothing either. -/
def Harmless (disk : Disk) (v : Volume) (p q : Bytes) : Prop :=
  resolve disk v (rootInfo v) (ahead (body p)) = none ∨
    resolve disk v (rootInfo v) (ahead (body q)) = some none ∨
    Doubled (body q) ∧ resolve disk v (rootInfo v) (ahead (body q)) ≠ none

theorem lookupIn_congr {p q : Bytes} (heq : ahead (body p) = ahead (body q)) (hd : Doubled (body p) ↔ Doubled (body q)) :
    lookupIn disk v p = lookupIn disk v q := by
  rw [lookupIn_eq_outcome, lookupIn_eq_outcome, heq]
  exact if_congr hd rfl rfl

theorem lookupIn_eq_iff_of_sooner {p q : Bytes} (h : Sooner p q) :
    lookupIn disk v p = lookupIn disk v q ↔ Harmless disk v p q := by
  obtain ⟨hdp, ⟨ds, hds⟩, -⟩ := h
  rw [lookupIn_eq_outcome, lookupIn_eq_outcome]
  unfold Harmless
  rw [← hds, resolve_append]
  cases resolve disk v (rootInfo v) (ahead (body p)) with
  | none =>
    refine iff_of_true ?_ (.inl rfl)
    rw [Option.bind_none, outcome_none, outcome_none]
  | some found =>
    rw [Option.bind_some]
    have hleft : outcome (body p) (some found) = some none := if_pos hdp
    rw [hleft]
    generalize (match found with
      | none => some none
      | some fi => resolve disk v fi ds) = other
    unfold outcome
    by_cases hdq : Doubled (body q)
    · rw [if_pos hdq]
      cases other with
      | none => exact iff_of_false (fun h => by cases h) (by rintro (h | h | h); cases h; cases h; exact h.2 rfl)
      | some other => exact iff_of_true rfl (.inr (.inr ⟨hdq, fun h => by cases h⟩))
    · rw [if_neg hdq]
      constructor
      · exact fun h => .inr (.inl h.symm)
      · rintro (h | h | h)
        · cases h
        · exact h.symm
        · exact absurd h.1 hdq

end Fat32

/-! ### The writable layer -/

theorem Mutable.find_eq_iff (nodes : Nodes) (p q : Bytes) :
    find nodes p = find nodes q ↔ key p = key q ∨ ∀ i, ¬ At nodes (key p) i ∧ ¬ At nodes (key q) i := by
  have hat : ∀ path i, isAt (key path) (nodes.get i) = true ↔ At nodes (key path) i := by
    intro path i
    unfold isAt At
    rw [Bool.and_eq_true, decide_eq_true_eq]
  have hnone : ∀ path, find nodes path = none ↔ ∀ i, ¬ At nodes (key path) i := by
    intro path
    unfold find
    rw [Lib.Slots.first_eq_none_iff]
    exact forall_congr' fun i => by rw [← hat path i, Bool.not_eq_true]; rfl
  constructor
  · intro h
    cases hp : find nodes p with
    | none =>
      rw [hp] at h
      exact .inr fun i => ⟨(hnone p).1 hp i, (hnone q).1 h.symm i⟩
    | some i =>
      rw [hp] at h
      have hpi := (hat p i).1 (Lib.Slots.first_spec hp)
      have hqi := (hat q i).1 (Lib.Slots.first_spec h.symm)
      exact .inl (hpi.2.symm.trans hqi.2)
  · rintro (h | h)
    · unfold find
      exact congrArg (fun k => nodes.first (isAt k)) h
    · rw [(hnone p).2 fun i => (h i).1, (hnone q).2 fun i => (h i).2]

/-! ### The three layers -/

/-- Two paths with the same components resolve equally in the static tree and on the volume exactly if the empty component
at which one of them ends before the other makes no difference; and in the writable layer if they have the same canonical
form, or no node has the form of either.  A path with further components behind an empty one leads to the enclosing
directory whenever there is one. -/
theorem equivalent_paths_iff (progs : Static.Programs) (nodes : Nodes) (disk : Disk) {p q : Bytes}
    (h : components p = components q) :
    (Static.lookup progs p = Static.lookup progs q ↔
      (Sooner p q → Static.Harmless progs p q) ∧ (Sooner q p → Static.Harmless progs q p)) ∧
    (Mutable.find nodes p = Mutable.find nodes q ↔
      key p = key q ∨ ∀ i, ¬ At nodes (key p) i ∧ ¬ At nodes (key q) i) ∧
    (Fat32.lookup disk p = Fat32.lookup disk q ↔ ∀ v, Fat32.available disk = some (some v) →
      (Sooner p q → Fat32.Harmless disk v p q) ∧ (Sooner q p → Fat32.Harmless disk v q p)) ∧
    (ahead (body p) ≠ components p →
      ((∀ children, Static.resolve (Static.root progs) (ahead (body p)) = some (.dir children) →
        Static.lookup progs p ≠ some (.dir children)) ↔ ¬ Static.IsDir progs (ahead (body p)))) := by
  refine ⟨?_, Mutable.find_eq_iff nodes p q, ?_, fun hmore => ⟨?_, ?_⟩⟩
  · refine eq_iff_of_sooner h (fun heq hd => ?_) fun hsooner => Static.lookup_eq_iff_of_sooner hsooner
    rw [Static.lookup_eq, Static.lookup_eq, heq, if_congr hd rfl rfl]
  · have hvolume : Fat32.lookup disk p = Fat32.lookup disk q ↔
        ∀ v, Fat32.available disk = some (some v) → Fat32.lookupIn disk v p = Fat32.lookupIn disk v q := by
      unfold Fat32.lookup
      obtain _ | _ | v := Fat32.available disk
      · exact iff_of_true rfl fun v hv => by cases hv
      · exact iff_of_true rfl fun v hv => by cases hv
      · exact ⟨fun heq w hw => by cases hw; exact heq, fun hall => hall v rfl⟩
    rw [hvolume]
    refine forall₂_congr fun v _ => ?_
    exact eq_iff_of_sooner h Fat32.lookupIn_congr Fat32.lookupIn_eq_iff_of_sooner
  · rintro hnever ⟨children, hdir⟩
    have hdoubled : Doubled (body p) := by
      by_contra hd
      exact hmore ((ahead_eq_named hd).trans (named_body p))
    refine hnever children hdir ?_
    rw [Static.lookup_eq, if_pos hdoubled, hdir]
    rfl
  · exact fun hnone children hdir _ => hnone ⟨children, hdir⟩

/-- A slash behind the last component makes no difference. -/
theorem equivalent_paths_trailing :
    components (ascii "/hi") = components (ascii "/hi/") ∧
    Static.lookup ⟨[], []⟩ (ascii "/hi") = Static.lookup ⟨[], []⟩ (ascii "/hi/") ∧
    Mutable.find Overlay.start (ascii "/hi") = Mutable.find Overlay.start (ascii "/hi/") ∧
    Fat32.lookup Server.oneFileDisk (ascii "/hi") = Fat32.lookup Server.oneFileDisk (ascii "/hi/") := by
  have hsame : components (ascii "/hi") = components (ascii "/hi/") := by decide
  have hpq : ¬ Sooner (ascii "/hi") (ascii "/hi/") := by decide
  have hqp : ¬ Sooner (ascii "/hi/") (ascii "/hi") := by decide
  obtain ⟨hstatic, hfind, hfat, -⟩ := equivalent_paths_iff ⟨[], []⟩ Overlay.start Server.oneFileDisk hsame
  refine ⟨hsame, hstatic.2 ⟨fun hs => absurd hs hpq, fun hs => absurd hs hqp⟩, hfind.2 (.inl (by decide)), hfat.2 fun v _ => ?_⟩
  exact ⟨fun hs => absurd hs hpq, fun hs => absurd hs hqp⟩

/-- With two slashes in front, a file on the volume is not found, nor a node of the writable layer, and the static tree
gives its root. -/
theorem doubled_slash_differs :
    components (ascii "//hi") = components (ascii "/hi") ∧
    (Static.lookup ⟨[], []⟩ (ascii "//hi") = some (Static.root ⟨[], []⟩) ∧ Static.lookup ⟨[], []⟩ (ascii "/hi") = none) ∧
    ((Mutable.alloc Overlay.start (ascii "/hi") 0).map fun r =>
      (Mutable.find r.1 (ascii "//hi"), Mutable.find r.1 (ascii "/hi"))) = some (none, some 0) ∧
    (Fat32.lookup Server.oneFileDisk (ascii "//hi") = some none ∧
      Fat32.lookup Server.oneFileDisk (ascii "/hi") = some (some ⟨3, 2, false⟩)) := by
  refine ⟨by decide, ⟨rfl, rfl⟩, by decide, by decide, by decide⟩

end Rost.Vfs
