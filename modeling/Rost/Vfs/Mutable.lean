import Rost.Vfs.Path
import Rost.Lib.Slots

/-!
# The writable layer

A table of 32 nodes, files of up to 4096 bytes and directories, that lies over the static tree.  A node is found by its
canonical path.
-/

namespace Rost.Vfs

open Lib (Slots)

def maxNodes : Nat := 32

instance neZero_maxNodes : NeZero maxNodes := ⟨by decide⟩

def maxData : Nat := 4096
def maxPath : Nat := 64

/-- The node is a directory. -/
def flagDir : Byte := 0x01

/-- A node of the writable layer.  The contents are the first `dlen` bytes of `data`; behind them stands what earlier
writes have left. -/
structure MutNode where
  path : Bytes
  flags : Byte
  dlen : Nat
  used : Bool
  data : Nat → Byte
  path_le : path.length ≤ maxPath
  dlen_le : dlen ≤ maxData

namespace MutNode

def empty : MutNode := ⟨[], 0, 0, false, fun _ => 0, Nat.zero_le _, Nat.zero_le _⟩

def isDir (n : MutNode) : Bool := decide (n.flags &&& flagDir ≠ 0)

/-- `&data[..dlen]`. -/
def contents (n : MutNode) : Bytes := (List.range n.dlen).map n.data

/-- Store `src` at `offset`. -/
def write (n : MutNode) (offset : Nat) (src : Bytes) (h : offset + src.length ≤ maxData) : MutNode :=
  { n with
    data := fun i => if offset ≤ i ∧ i < offset + src.length then src.getD (i - offset) 0 else n.data i
    dlen := if n.dlen < offset + src.length then offset + src.length else n.dlen
    dlen_le := by
      split
      · exact h
      · exact n.dlen_le }

def truncate (n : MutNode) : MutNode := { n with dlen := 0, dlen_le := Nat.zero_le _ }

@[simp] theorem dlen_truncate (n : MutNode) : n.truncate.dlen = 0 := rfl

@[simp] theorem dlen_write (n : MutNode) (offset : Nat) (src : Bytes) (h : offset + src.length ≤ maxData) :
    (n.write offset src h).dlen = if n.dlen < offset + src.length then offset + src.length else n.dlen := rfl

@[simp] theorem length_contents (n : MutNode) : n.contents.length = n.dlen := by simp [contents]

end MutNode

abbrev Nodes := Slots maxNodes MutNode

namespace Mutable

/-- The node is in use, and has the canonical path `p`. -/
def isAt (p : Bytes) (n : MutNode) : Bool := n.used && decide (canon n.path = p)

def find (nodes : Nodes) (path : Bytes) : Option (Fin maxNodes) := nodes.first (isAt (canon (trimNull path)))

/-- The node at the path; a new one if there is none. -/
def alloc (nodes : Nodes) (path : Bytes) (flags : Byte) : Option (Nodes × Fin maxNodes) :=
  match find nodes path with
  | some i => some (nodes, i)
  | none =>
    if h : (canon (trimNull path)).length ≤ maxPath ∧ canon (trimNull path) ≠ [] then
      (nodes.first fun n => !n.used).map fun i =>
        (nodes.set i ⟨canon (trimNull path), flags, 0, true, fun _ => 0, h.1, Nat.zero_le _⟩, i)
    else none

def remove (nodes : Nodes) (path : Bytes) : Option Nodes :=
  (find nodes path).map fun i => nodes.set i { nodes.get i with used := false }

/-- Nothing is written if the file would become too long. -/
def writeChunk (nodes : Nodes) (idx : Fin maxNodes) (offset : Nat) (src : Bytes) : Option Nodes :=
  if h : offset + src.length ≤ maxData then some (nodes.set idx ((nodes.get idx).write offset src h)) else none

def truncate (nodes : Nodes) (idx : Fin maxNodes) : Nodes := nodes.set idx (nodes.get idx).truncate

/-- The name of `path` in the directory `parent`, if it stands directly there. -/
def directChildName (path parent : Bytes) : Option Bytes :=
  if parent = [slash] then
    if 1 < path.length ∧ path.head? = some slash ∧ slash ∉ path.tail then some path.tail else none
  else if parent <+: path then
    let rest := path.drop parent.length
    if rest.head? = some slash ∧ rest.tail ≠ [] ∧ slash ∉ rest.tail then some rest.tail else none
  else none

/-- The names and the indices of the nodes directly in the directory. -/
def childrenOf (nodes : Nodes) (parent : Bytes) : List (Bytes × Fin maxNodes) :=
  (List.finRange maxNodes).filterMap fun i =>
    if (nodes.get i).used then
      (directChildName (canon (nodes.get i).path) (canon (trimNull parent))).map fun name => (name.take 48, i)
    else none

/-! ### What the operations do -/

variable {nodes nodes' : Nodes} {path : Bytes} {flags : Byte} {i : Fin maxNodes}

/-- There is room for a new node at the path. -/
def CanCreate (nodes : Nodes) (path : Bytes) : Prop :=
  canon (trimNull path) ≠ [] ∧ (canon (trimNull path)).length ≤ maxPath ∧ ∃ i, (nodes.get i).used = false

theorem alloc_of_find (h : find nodes path = some i) : alloc nodes path flags = some (nodes, i) := by
  unfold alloc
  rw [h]

theorem used_of_find (h : find nodes path = some i) : (nodes.get i).used = true := by
  have := Slots.first_spec h
  unfold isAt at this
  simp only [Bool.and_eq_true] at this
  exact this.1

/-- A new node goes to a free slot. -/
theorem alloc_of_find_none (h : find nodes path = none) (halloc : alloc nodes path flags = some (nodes', i)) :
    CanCreate nodes path ∧ (nodes.get i).used = false ∧
      ∃ n : MutNode, nodes' = nodes.set i n ∧ n.path = canon (trimNull path) ∧ n.flags = flags ∧ n.dlen = 0 ∧ n.used = true ∧
        n.data = fun _ => 0 := by
  unfold alloc at halloc
  rw [h] at halloc
  simp only at halloc
  split at halloc
  · rename_i hfits
    obtain ⟨j, hj, heq⟩ := Option.map_eq_some_iff.1 halloc
    simp only [Prod.mk.injEq] at heq
    obtain ⟨rfl, rfl⟩ := heq
    have hfree := Slots.first_spec hj
    simp only [Bool.not_eq_true'] at hfree
    exact ⟨⟨hfits.2, hfits.1, j, hfree⟩, hfree, _, rfl, rfl, rfl, rfl, rfl, rfl⟩
  · cases halloc

theorem alloc_isSome (h : find nodes path = none) (hroom : CanCreate nodes path) :
    ∃ nodes' i, alloc nodes path flags = some (nodes', i) := by
  obtain ⟨hne, hlen, j, hj⟩ := hroom
  have hfirst : (nodes.first fun n => !n.used).isSome = true := Slots.first_isSome_iff.2 ⟨j, by simp [hj]⟩
  obtain ⟨k, hk⟩ := Option.isSome_iff_exists.1 hfirst
  unfold alloc
  rw [h]
  simp only
  rw [dif_pos ⟨hlen, hne⟩, hk]
  exact ⟨_, _, rfl⟩

theorem truncate_eq_self (h : (nodes.get i).dlen = 0) : truncate nodes i = nodes := by
  have hsame : (nodes.get i).truncate = nodes.get i := by
    unfold MutNode.truncate
    cases hn : nodes.get i
    rw [hn] at h
    simp only at h
    simp [h]
  unfold truncate
  rw [hsame]
  simp

theorem used_truncate (j : Fin maxNodes) : ((truncate nodes i).get j).used = (nodes.get j).used := by
  unfold truncate
  rw [Slots.get_set]
  split
  · rename_i h
    rw [h]
    rfl
  · rfl

/-! ### The nodes in a directory -/

theorem directChildName_eq_some_iff {parent name : Bytes} :
    directChildName path parent = some name ↔
      path = (if parent = [slash] then slash :: name else parent ++ slash :: name) ∧ name ≠ [] ∧ slash ∉ name := by
  unfold directChildName
  by_cases hroot : parent = [slash]
  · rw [if_pos hroot, if_pos hroot]
    constructor
    · intro h
      split at h
      · rename_i hcond
        obtain ⟨hlen, hhead, hno⟩ := hcond
        obtain ⟨t, rfl⟩ := List.head?_eq_some_iff.1 hhead
        cases h
        refine ⟨rfl, fun hnil => ?_, hno⟩
        rw [List.tail_cons] at hnil
        rw [hnil] at hlen
        simp at hlen
      · cases h
    · rintro ⟨rfl, hne, hno⟩
      have hlen : 0 < name.length := List.length_pos_iff.2 hne
      rw [if_pos ⟨by simpa using hlen, rfl, hno⟩]
      rfl
  · rw [if_neg hroot, if_neg hroot]
    constructor
    · intro h
      split at h
      · rename_i hprefix
        obtain ⟨rest, rfl⟩ := hprefix
        simp only [List.drop_left] at h
        split at h
        · rename_i hcond
          obtain ⟨hhead, hne, hno⟩ := hcond
          obtain ⟨t, rfl⟩ := List.head?_eq_some_iff.1 hhead
          cases h
          exact ⟨rfl, hne, hno⟩
        · cases h
      · cases h
    · rintro ⟨rfl, hne, hno⟩
      rw [if_pos (List.prefix_append _ _)]
      simp only [List.drop_left]
      rw [if_pos ⟨rfl, hne, hno⟩]
      rfl

theorem mem_childrenOf_iff {parent name : Bytes} : (name, i) ∈ childrenOf nodes parent ↔
    (nodes.get i).used = true ∧ ∃ full, full.take 48 = name ∧
      directChildName (canon (nodes.get i).path) (canon (trimNull parent)) = some full := by
  unfold childrenOf
  rw [List.mem_filterMap]
  constructor
  · rintro ⟨j, -, hj⟩
    split at hj
    · rename_i hused
      obtain ⟨full, hfull, heq⟩ := Option.map_eq_some_iff.1 hj
      cases heq
      exact ⟨hused, full, rfl, hfull⟩
    · cases hj
  · rintro ⟨hused, full, rfl, hfull⟩
    refine ⟨i, List.mem_finRange i, ?_⟩
    rw [if_pos hused, hfull]
    rfl

/-- A node at a name in a directory is one of the children of the directory. -/
theorem mem_childrenOf_of_find {p name : Bytes} (hp : p ≠ [slash, slash]) (hnull : (0 : Byte) ∉ p) (hname : Plain name)
    (hfind : find nodes (joinPath p name) = some i) : (name.take 48, i) ∈ childrenOf nodes p := by
  have hjoin : (0 : Byte) ∉ joinPath p name := not_mem_joinPath (by decide) hnull hname.no_null
  have hat := Slots.first_spec hfind
  unfold isAt at hat
  rw [trimNull_of_not_mem hjoin, canon_joinPath hname, Bool.and_eq_true, decide_eq_true_eq] at hat
  refine mem_childrenOf_iff.2 ⟨hat.1, name, rfl, ?_⟩
  rw [trimNull_of_not_mem hnull, directChildName_eq_some_iff, hat.2, joinPath_eq_canon name hp]
  exact ⟨rfl, hname.ne_nil, hname.no_slash⟩

/-- The path of a child. -/
theorem canon_of_mem_childrenOf {p name : Bytes} (hp : p ≠ [slash, slash]) (hnull : (0 : Byte) ∉ p)
    (h : (name, i) ∈ childrenOf nodes p) :
    ∃ full, full.take 48 = name ∧ full ≠ [] ∧ slash ∉ full ∧ canon (nodes.get i).path = joinPath p full := by
  obtain ⟨-, full, hfull, hchild⟩ := mem_childrenOf_iff.1 h
  rw [trimNull_of_not_mem hnull] at hchild
  obtain ⟨hpath, hne, hno⟩ := directChildName_eq_some_iff.1 hchild
  refine ⟨full, hfull, hne, hno, ?_⟩
  rw [hpath, joinPath_eq_canon full hp]

end Mutable

end Rost.Vfs
