import Rost.Vfs.Mutable
import Rost.Lib.Run

/-!
# The writable layer as a map

`alloc` stores the canonical form of a path, and `find` compares the canonical form of what is stored.  So the nodes are
a map from canonical paths if the canonical form of every path that a node is created for is its own canonical form.  A
path that ends with two slashes loses one of them when it is stored and the other one when it is compared
(`nodes_map_iff`).
-/

namespace Rost.Vfs.Overlay

open Lib (Run exec run_of_exec Slots)

/-- The form under which a path is looked up. -/
def key (path : Bytes) : Bytes := canon (trimNull path)

inductive Call
  | alloc (path : Bytes) (flags : Byte)
  | remove (path : Bytes)

/-- What a call returns: the index of a node, or whether one has been removed. -/
inductive Result
  | node (i : Option (Fin maxNodes))
  | removed (found : Bool)

def step (nodes : Nodes) : Call → Option (Nodes × Result)
  | .alloc path flags =>
    match Mutable.alloc nodes path flags with
    | some (nodes, i) => some (nodes, .node (some i))
    | none => some (nodes, .node none)
  | .remove path =>
    match Mutable.remove nodes path with
    | some nodes => some (nodes, .removed true)
    | none => some (nodes, .removed false)

/-- No node is in use. -/
def start : Nodes := .replicate _ .empty

/-! ### What the calls describe -/

/-- Among the calls, one has returned the node `i` for a path of the form `k`, and no path of that form has been removed
since. -/
def Allocated (calls : List (Call × Result)) (k : Bytes) (i : Fin maxNodes) : Prop :=
  ∃ before after path flags, calls = before ++ (.alloc path flags, .node (some i)) :: after ∧ key path = k ∧
    ∀ q r, (.remove q, r) ∈ after → key q ≠ k

/-- The nodes are the map that the calls describe. -/
structure MapKept (calls : List (Call × Result)) (nodes : Nodes) : Prop where
  find_iff : ∀ path i, Mutable.find nodes path = some i ↔ Allocated calls (key path) i
  unique : ∀ i j, (nodes.get i).used = true → (nodes.get j).used = true →
    canon (nodes.get i).path = canon (nodes.get j).path → i = j
  alloc_eq : ∀ path flags i, Allocated calls (key path) i → Mutable.alloc nodes path flags = some (nodes, i)

/-- The path ends with two slashes, and is longer than these. -/
def EndsDouble (path : Bytes) : Prop := 2 < path.length ∧ [slash, slash] <:+ path

instance (path : Bytes) : Decidable (EndsDouble path) := inferInstanceAs (Decidable (_ ∧ _))

/-- A call that creates a node is not given a path that ends with two slashes. -/
def Settled (nodes : Nodes) : Call → Prop
  | .alloc path _ => (∀ i, (nodes.get i).used = true → canon (nodes.get i).path ≠ key path) →
      Mutable.CanCreate nodes path → ¬ EndsDouble (trimNull path)
  | .remove _ => True

/-! ### The canonical form -/

private theorem canon_eq_self_iff {q : Bytes} : canon q = q ↔ ¬ (1 < q.length ∧ q.getLast? = some slash) := by
  unfold canon
  split
  · rename_i hstrip
    refine iff_of_false (fun heq => ?_) (not_not_intro hstrip)
    have hlen := congrArg List.length heq
    rw [List.length_dropLast] at hlen
    omega
  · rename_i hkeep
    exact iff_of_true rfl hkeep

private theorem suffix_slash_iff {q : Bytes} : [slash, slash] <:+ q ++ [slash] ↔ q.getLast? = some slash := by
  constructor
  · rintro ⟨t, ht⟩
    rw [show [slash, slash] = [slash] ++ [slash] from rfl, ← List.append_assoc] at ht
    rw [← List.append_cancel_right ht]
    exact List.getLast?_concat
  · intro hlast
    refine ⟨q.dropLast, ?_⟩
    rw [show [slash, slash] = [slash] ++ [slash] from rfl, ← List.append_assoc, List.dropLast_append_getLast? slash hlast]

/-- The canonical form of a path is its own canonical form unless the path ends with two slashes. -/
theorem canon_canon_iff (path : Bytes) : canon (canon path) = canon path ↔ ¬ EndsDouble path := by
  unfold EndsDouble
  by_cases hstrip : 1 < path.length ∧ path.getLast? = some slash
  · have hcanon : canon path = path.dropLast := if_pos hstrip
    have hsplit := List.dropLast_append_getLast? slash hstrip.2
    rw [hcanon, canon_eq_self_iff, ← suffix_slash_iff, hsplit, List.length_dropLast]
    exact not_congr (and_congr_left fun _ => by omega)
  · have hcanon : canon path = path := if_neg hstrip
    rw [hcanon]
    refine iff_of_true hcanon fun hdouble => hstrip ⟨by omega, ?_⟩
    obtain ⟨t, rfl⟩ := hdouble.2
    exact List.getLast?_append_of_ne_nil t (by simp)

/-! ### What the calls do -/

/-- The node is in use and is found by the form `k`. -/
def At (nodes : Nodes) (k : Bytes) (i : Fin maxNodes) : Prop :=
  (nodes.get i).used = true ∧ canon (nodes.get i).path = k

section Step

variable {nodes nodes' : Nodes} {path k : Bytes} {flags : Byte} {i j : Fin maxNodes} {calls : List (Call × Result)}
  {call : Call} {r : Result}

private theorem isAt_iff : Mutable.isAt (key path) (nodes.get i) = true ↔ At nodes (key path) i := by
  unfold Mutable.isAt At
  rw [Bool.and_eq_true, decide_eq_true_eq]

theorem at_of_find (h : Mutable.find nodes path = some i) : At nodes (key path) i := isAt_iff.1 (Slots.first_spec h)

theorem find_eq_none_iff : Mutable.find nodes path = none ↔ ∀ i, ¬ At nodes (key path) i := by
  unfold Mutable.find
  rw [Slots.first_eq_none_iff]
  exact forall_congr' fun i => by rw [← isAt_iff]; exact (Bool.not_eq_true _).symm.to_iff

/-- Each form is that of one node at most. -/
def Unique (nodes : Nodes) : Prop := ∀ k i j, At nodes k i → At nodes k j → i = j

theorem Unique.find_eq_some_iff (h : Unique nodes) : Mutable.find nodes path = some i ↔ At nodes (key path) i := by
  refine ⟨at_of_find, fun hat => ?_⟩
  exact Slots.first_eq_some_of_unique (isAt_iff.2 hat) fun j hj => h _ _ _ (isAt_iff.1 hj) hat

theorem allocated_snoc : Allocated (calls ++ [(call, r)]) k i ↔
    (∃ path flags, call = .alloc path flags ∧ r = .node (some i) ∧ key path = k) ∨
      (Allocated calls k i ∧ ∀ path, call = .remove path → key path ≠ k) := by
  constructor
  · rintro ⟨before, after, path, flags, heq, hkey, hkept⟩
    rcases List.eq_nil_or_concat' after with rfl | ⟨init, last, rfl⟩
    · obtain ⟨rfl, hlast⟩ := List.append_inj' heq rfl
      cases (List.cons.inj hlast).1
      exact Or.inl ⟨path, flags, rfl, rfl, hkey⟩
    · rw [← List.cons_append, ← List.append_assoc] at heq
      obtain ⟨rfl, hlast⟩ := List.append_inj' heq rfl
      cases (List.cons.inj hlast).1
      refine Or.inr ⟨⟨before, init, path, flags, rfl, hkey, fun q r' hmem => ?_⟩, ?_⟩
      · exact hkept q r' (List.mem_append_left _ hmem)
      · rintro q rfl
        exact hkept q r (List.mem_append_right _ List.mem_cons_self)
  · rintro (⟨path, flags, rfl, rfl, hkey⟩ | ⟨⟨before, after, path, flags, rfl, hkey, hkept⟩, hlast⟩)
    · exact ⟨calls, [], path, flags, rfl, hkey, fun q r' hmem => by cases hmem⟩
    · refine ⟨before, after ++ [(call, r)], path, flags, by simp, hkey, fun q r' hmem => ?_⟩
      rcases List.mem_append.1 hmem with hmem | hmem
      · exact hkept q r' hmem
      · cases List.mem_singleton.1 hmem
        exact hlast q rfl

/-- What a call does to the nodes. -/
inductive Effect (nodes : Nodes) : Call → Nodes → Result → Prop
  | found (path : Bytes) (flags : Byte) (i : Fin maxNodes) (hat : At nodes (key path) i) :
      Effect nodes (.alloc path flags) nodes (.node (some i))
  | created (path : Bytes) (flags : Byte) (i : Fin maxNodes) (n : MutNode) (hnew : ∀ i, ¬ At nodes (key path) i)
      (hroom : Mutable.CanCreate nodes path) (hfree : (nodes.get i).used = false) (hpath : n.path = key path)
      (hused : n.used = true) : Effect nodes (.alloc path flags) (nodes.set i n) (.node (some i))
  | refused (path : Bytes) (flags : Byte) (hfull : ¬ Mutable.CanCreate nodes path) :
      Effect nodes (.alloc path flags) nodes (.node none)
  | removed (path : Bytes) (i : Fin maxNodes) (hat : At nodes (key path) i) :
      Effect nodes (.remove path) (nodes.set i { nodes.get i with used := false }) (.removed true)
  | absent (path : Bytes) (hnew : ∀ i, ¬ At nodes (key path) i) : Effect nodes (.remove path) nodes (.removed false)

theorem effect_of_step (h : step nodes call = some (nodes', r)) : Effect nodes call nodes' r := by
  cases call with
  | alloc path flags =>
    cases hfind : Mutable.find nodes path with
    | some i =>
      unfold step at h
      simp only [Mutable.alloc_of_find hfind] at h
      cases h
      exact .found path flags i (at_of_find hfind)
    | none =>
      unfold step at h
      cases halloc : Mutable.alloc nodes path flags with
      | none =>
        simp only [halloc] at h
        cases h
        refine .refused path flags fun hroom => ?_
        obtain ⟨nodes₁, i, hsome⟩ : ∃ nodes₁ i, Mutable.alloc nodes path flags = some (nodes₁, i) :=
          Mutable.alloc_isSome hfind hroom
        rw [halloc] at hsome
        cases hsome
      | some out =>
        obtain ⟨nodes₁, i⟩ := out
        simp only [halloc] at h
        cases h
        obtain ⟨hroom, hfree, n, rfl, hpath, -, -, hused, -⟩ := Mutable.alloc_of_find_none hfind halloc
        exact .created path flags i n (find_eq_none_iff.1 hfind) hroom hfree hpath hused
  | remove path =>
    unfold step Mutable.remove at h
    cases hfind : Mutable.find nodes path with
    | some i =>
      simp only [hfind, Option.map_some] at h
      cases h
      exact .removed path i (at_of_find hfind)
    | none =>
      simp only [hfind, Option.map_none] at h
      cases h
      exact .absent path (find_eq_none_iff.1 hfind)

/-! ### Settled calls keep the map -/

/-- The nodes and the calls agree on the forms. -/
structure Describes (calls : List (Call × Result)) (nodes : Nodes) : Prop where
  unique : Unique nodes
  at_iff : ∀ k i, At nodes k i ↔ Allocated calls k i

private theorem at_set {n : MutNode} : At (nodes.set j n) k i ↔
    if i = j then n.used = true ∧ canon n.path = k else At nodes k i := by
  unfold At
  rw [Slots.get_set]
  split <;> rfl

theorem describes_start : Describes [] start := by
  have hnone : ∀ k i, ¬ At start k i := fun k i hat => by cases hat.1
  refine ⟨fun k i j hat => absurd hat (hnone k i), fun k i => iff_of_false (hnone k i) ?_⟩
  rintro ⟨before, after, path, flags, heq, -⟩
  simp at heq

theorem Describes.step (h : Describes calls nodes) (hsettled : Settled nodes call)
    (hstep : step nodes call = some (nodes', r)) : Describes (calls ++ [(call, r)]) nodes' := by
  cases effect_of_step hstep with
  | found path flags i hat =>
    refine ⟨h.unique, fun k j => ?_⟩
    rw [allocated_snoc, h.at_iff]
    constructor
    · exact fun hold => Or.inr ⟨hold, fun q hq => by cases hq⟩
    · rintro (⟨q, f, hq, hr, hkey⟩ | ⟨hold, -⟩)
      · cases hq
        cases hr
        exact (h.at_iff k i).1 (hkey ▸ hat)
      · exact hold
  | created path flags i n hnew hroom hfree hpath hused =>
    have hkey : canon n.path = key path := by
      rw [hpath]
      refine (canon_canon_iff _).2 (hsettled (fun j hj heq => hnew j ⟨hj, heq⟩) hroom)
    have hat : ∀ k j, At (nodes.set i n) k j ↔ (j = i ∧ key path = k) ∨ At nodes k j := by
      intro k j
      rw [at_set]
      split
      · rename_i hji
        have hno : ¬ At nodes k j := by
          intro hold
          have hin := hold.1
          rw [hji, hfree] at hin
          cases hin
        rw [or_iff_left hno, hkey]
        exact and_congr_left fun _ => iff_of_true hused hji
      · rename_i hji
        rw [or_iff_right fun hat => hji hat.1]
    refine ⟨fun k a b ha hb => ?_, fun k j => ?_⟩
    · rcases (hat k a).1 ha with ⟨hai, hka⟩ | hold
      · rcases (hat k b).1 hb with ⟨hbi, -⟩ | hold
        · rw [hai, hbi]
        · exact absurd (hka ▸ hold) (hnew b)
      · rcases (hat k b).1 hb with ⟨-, hkb⟩ | hold'
        · exact absurd (hkb ▸ hold) (hnew a)
        · exact h.unique k a b hold hold'
    · rw [allocated_snoc, hat, h.at_iff]
      constructor
      · rintro (⟨rfl, hk⟩ | hold)
        · exact Or.inl ⟨path, flags, rfl, rfl, hk⟩
        · exact Or.inr ⟨hold, fun q hq => by cases hq⟩
      · rintro (⟨q, f, hq, hr, hk⟩ | ⟨hold, -⟩)
        · cases hq
          cases hr
          exact Or.inl ⟨rfl, hk⟩
        · exact Or.inr hold
  | refused path flags _ =>
    refine ⟨h.unique, fun k j => ?_⟩
    rw [allocated_snoc, h.at_iff]
    constructor
    · exact fun hold => Or.inr ⟨hold, fun q hq => by cases hq⟩
    · rintro (⟨q, f, -, hr, -⟩ | ⟨hold, -⟩)
      · cases hr
      · exact hold
  | removed path i hat =>
    have hat' : ∀ k j, At (nodes.set i { nodes.get i with used := false }) k j ↔ At nodes k j ∧ key path ≠ k := by
      intro k j
      rw [at_set]
      split
      · rename_i hji
        refine iff_of_false (fun hgone => by cases hgone.1) ?_
        rintro ⟨hold, hne⟩
        rw [hji] at hold
        exact hne (hat.2.symm.trans hold.2)
      · rename_i hji
        exact ⟨fun hold => ⟨hold, fun hk => hji (h.unique k j i hold (hk ▸ hat))⟩, fun hold => hold.1⟩
    refine ⟨fun k a b ha hb => h.unique k a b ((hat' k a).1 ha).1 ((hat' k b).1 hb).1, fun k j => ?_⟩
    rw [allocated_snoc, hat', h.at_iff]
    constructor
    · exact fun hold => Or.inr ⟨hold.1, fun q hq => by cases hq; exact hold.2⟩
    · rintro (⟨q, f, hq, -⟩ | ⟨hold, hne⟩)
      · cases hq
      · exact ⟨hold, hne path rfl⟩
  | absent path hnew =>
    refine ⟨h.unique, fun k j => ?_⟩
    rw [allocated_snoc, ← h.at_iff]
    constructor
    · refine fun hold => Or.inr ⟨hold, fun q hq hk => ?_⟩
      cases hq
      exact hnew j (hk ▸ hold)
    · rintro (⟨q, f, hq, -⟩ | ⟨hold, -⟩)
      · cases hq
      · exact hold

theorem Describes.mapKept (h : Describes calls nodes) : MapKept calls nodes := by
  have hfind : ∀ path i, Mutable.find nodes path = some i ↔ Allocated calls (key path) i := fun path i => by
    rw [h.unique.find_eq_some_iff, h.at_iff]
  refine ⟨hfind, fun i j hi hj heq => ?_, fun path flags i hold => Mutable.alloc_of_find ((hfind path i).2 hold)⟩
  exact h.unique _ i j ⟨hi, heq⟩ ⟨hj, rfl⟩

/-- A call that creates a node for another form than its own loses the map at once. -/
theorem settled_of_mapKept (hstep : step nodes call = some (nodes', r))
    (h : MapKept (calls ++ [(call, r)]) nodes') : Settled nodes call := by
  cases call with
  | remove path => exact trivial
  | alloc path flags =>
    intro hnew hroom
    have hnone : ∀ i, ¬ At nodes (key path) i := fun i hat => hnew i hat.1 hat.2
    cases effect_of_step hstep with
    | found _ _ i hat => exact absurd hat (hnone i)
    | refused _ _ hfull => exact absurd hroom hfull
    | created _ _ i n _ _ hfree hpath hused =>
      refine (canon_canon_iff _).1 ?_
      have hthis : Allocated (calls ++ [(.alloc path flags, .node (some i))]) (key path) i :=
        allocated_snoc.2 (Or.inl ⟨path, flags, rfl, rfl, rfl⟩)
      have hat := at_of_find ((h.find_iff path i).2 hthis)
      rw [at_set, if_pos rfl, hpath] at hat
      exact hat.2

end Step

/-- The nodes are a map from canonical paths in every state of a run if and only if none of its calls creates a node for
a path that ends with two slashes. -/
theorem nodes_map_iff {calls : List (Call × Result)} {nodes : Nodes}
    (hrun : Run step (fun _ _ => True) start calls nodes) :
    (∀ before after nodes', calls = before ++ after → Run step (fun _ _ => True) start before nodes' →
      MapKept before nodes') ↔ Run step Settled start calls nodes := by
  constructor
  · intro hall
    induction hrun with
    | nil => exact .nil _
    | @snoc t u calls call r hrun _ hstep ih =>
      refine .snoc (ih fun before after nodes' heq hbefore => ?_) ?_ hstep
      · exact hall before (after ++ [(call, r)]) nodes' (by rw [heq, List.append_assoc]) hbefore
      · exact settled_of_mapKept hstep (hall _ [] _ (List.append_nil _).symm (hrun.snoc trivial hstep))
  · rintro hsettled before after nodes' rfl hbefore
    obtain ⟨mid, hmid, -⟩ := hsettled.split
    rw [hbefore.det hmid]
    have hdescribes : Describes before mid := hmid.history (fun h hok hstep => h.step hok hstep) describes_start
    exact hdescribes.mapKept

instance (nodes : Nodes) (path : Bytes) : Decidable (Mutable.CanCreate nodes path) :=
  inferInstanceAs (Decidable (_ ∧ _ ∧ ∃ _, _))

instance (nodes : Nodes) (call : Call) : Decidable (Settled nodes call) :=
  match call with
  | .alloc path _ =>
    inferInstanceAs (Decidable ((∀ i, (nodes.get i).used = true → canon (nodes.get i).path ≠ key path) →
      Mutable.CanCreate nodes path → ¬ EndsDouble (trimNull path)))
  | .remove _ => isTrue trivial

/-- A directory that is created with a trailing slash and again without one, and removed. -/
theorem nodes_map_iff_tmp : ∃ calls nodes, Run step (fun _ _ => True) start calls nodes ∧ calls.length = 3 ∧
    ∀ before after nodes', calls = before ++ after → Run step (fun _ _ => True) start before nodes' →
      MapKept before nodes' := by
  have hexec : (exec step Settled start
      [.alloc (ascii "/tmp/") flagDir, .alloc (ascii "/tmp") 0, .remove (ascii "/tmp")]).any
        (fun out => decide (out.2.length = 3)) = true := by decide +kernel
  obtain ⟨⟨nodes, calls⟩, hout, hlen⟩ := (Option.any_eq_true _ _).1 hexec
  have hsettled := run_of_exec hout
  have hrun := hsettled.mono fun _ _ _ => trivial
  exact ⟨calls, nodes, hrun, of_decide_eq_true hlen, (nodes_map_iff hrun).2 hsettled⟩

/-- A node that has just been created for a path with two slashes at its end is not found. -/
theorem nodes_map_double : ∃ calls nodes, Run step (fun _ _ => True) start calls nodes ∧ ¬ MapKept calls nodes := by
  have hnot : ¬ Settled start (.alloc (ascii "/a//") 0) := by decide +kernel
  have hsome : (step start (.alloc (ascii "/a//") 0)).isSome = true := by decide +kernel
  obtain ⟨⟨nodes, r⟩, hstep⟩ := Option.isSome_iff_exists.1 hsome
  refine ⟨[] ++ [(_, r)], nodes, .snoc (.nil _) trivial hstep, fun h => hnot (settled_of_mapKept hstep h)⟩

end Rost.Vfs.Overlay
