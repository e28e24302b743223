import Rost.Vfs.Path
import Rost.Lib.Slots

/-!
# File descriptors

One table for the descriptors of all processes.  Each process has up to eight of them, with the numbers 0 to 7.
-/

namespace Rost.Vfs

open Lib (Slots)

def maxFds : Nat := 256

instance neZero_maxFds : NeZero maxFds := ⟨by decide⟩

def fdsPerProc : Nat := 8

def oRdonly : Byte := 0x00
def oWronly : Byte := 0x01
def oRdwr : Byte := 0x02
/-- Create the file if it does not exist. -/
def oCreat : Byte := 0x04
/-- Truncate the file when it is opened. -/
def oTrunc : Byte := 0x08
/-- All writes go to the end of the file. -/
def oAppend : Byte := 0x10

structure FdEntry where
  pid : Nat
  fd : Nat
  oflags : Byte
  offset : Nat
  path : Bytes
  used : Bool

namespace FdEntry

def empty : FdEntry := ⟨0, 0, 0, 0, [], false⟩

def readable (e : FdEntry) : Bool := decide (e.oflags &&& 0x03 = oRdonly ∨ e.oflags &&& 0x03 = oRdwr)

def writable (e : FdEntry) : Bool := decide (e.oflags &&& 0x03 = oWronly ∨ e.oflags &&& 0x03 = oRdwr)

/-- The entry is in use as descriptor `fd` of the process. -/
def isFor (pid fd : Nat) (e : FdEntry) : Bool := e.used && decide (e.pid = pid) && decide (e.fd = fd)

theorem readable_of_rdonly {e : FdEntry} (h : e.oflags = oRdonly) : e.readable = true := by
  unfold readable
  rw [h]
  decide

end FdEntry

abbrev FdTable := Slots maxFds FdEntry

namespace Fd

/-- The slot of the descriptor. -/
def slot (table : FdTable) (pid fd : Nat) : Option (Fin maxFds) := table.first (FdEntry.isFor pid fd)

/-- The least number that the process does not use. -/
def freeNumber (table : FdTable) (pid : Nat) : Option Nat :=
  (List.range fdsPerProc).find? fun f => (slot table pid f).isNone

/-- Take a slot and a number for a new descriptor. -/
def alloc (table : FdTable) (pid : Nat) (path : Bytes) (oflags : Byte) : Option (FdTable × Nat) :=
  if path = [] ∨ 64 < path.length then none
  else
    (freeNumber table pid).bind fun fd =>
      (table.first fun e => !e.used).map fun i => (table.set i ⟨pid, fd, oflags, 0, path, true⟩, fd)

def get (table : FdTable) (pid fd : Nat) : Option FdEntry := (slot table pid fd).map table.get

/-- Change the entry of the descriptor. -/
def modify (table : FdTable) (pid fd : Nat) (f : FdEntry → FdEntry) : FdTable :=
  match slot table pid fd with
  | some i => table.set i (f (table.get i))
  | none => table

def advance (table : FdTable) (pid fd delta : Nat) : FdTable :=
  modify table pid fd fun e => { e with offset := min (e.offset + delta) (2 ^ 32 - 1) }

def seek (table : FdTable) (pid fd newOffset : Nat) : FdTable :=
  modify table pid fd fun e => { e with offset := newOffset }

def free (table : FdTable) (pid fd : Nat) : Option FdTable :=
  (slot table pid fd).map fun i => table.set i { table.get i with used := false }

/-- Close the descriptors of all processes that were opened under the path, as it is spelled. -/
def freeAllPath (table : FdTable) (path : Bytes) : FdTable :=
  table.update (fun e => e.used && decide (e.path = path)) fun e => { e with used := false }

/-! ### What the operations do -/

variable {table table' : FdTable} {pid fd n : Nat} {path : Bytes} {oflags : Byte}

/-- The process has less than eight descriptors, and the table has a free slot. -/
def Available (table : FdTable) (pid : Nat) : Prop :=
  freeNumber table pid ≠ none ∧ ∃ i, (table.get i).used = false

theorem isFor_iff {e : FdEntry} : FdEntry.isFor pid fd e = true ↔ e.used = true ∧ e.pid = pid ∧ e.fd = fd := by
  unfold FdEntry.isFor
  simp [and_assoc]

/-- A new descriptor has a number that the process does not use, and takes a free slot. -/
theorem alloc_spec (h : alloc table pid path oflags = some (table', n)) :
    n < fdsPerProc ∧ slot table pid n = none ∧
      ∃ i, (table.get i).used = false ∧ table' = table.set i ⟨pid, n, oflags, 0, path, true⟩ := by
  unfold alloc at h
  split at h
  · cases h
  · obtain ⟨m, hm, h⟩ := Option.bind_eq_some_iff.1 h
    obtain ⟨i, hi, heq⟩ := Option.map_eq_some_iff.1 h
    simp only [Prod.mk.injEq] at heq
    obtain ⟨rfl, rfl⟩ := heq
    have hfree := List.find?_some hm
    have hlt := List.mem_range.1 (List.mem_of_find?_eq_some hm)
    exact ⟨hlt, Option.isNone_iff_eq_none.1 hfree, i, by simpa using Slots.first_spec hi, rfl⟩

theorem alloc_isSome (h : Available table pid) (hne : path ≠ []) (hlen : path.length ≤ 64) :
    ∃ table' n, alloc table pid path oflags = some (table', n) := by
  obtain ⟨hnum, i, hi⟩ := h
  obtain ⟨m, hm⟩ := Option.ne_none_iff_exists'.1 hnum
  have hfirst : (table.first fun e => !e.used).isSome = true := Slots.first_isSome_iff.2 ⟨i, by simp [hi]⟩
  obtain ⟨j, hj⟩ := Option.isSome_iff_exists.1 hfirst
  unfold alloc
  rw [if_neg (by simp [hne, hlen]), hm, Option.bind_some, hj]
  exact ⟨_, _, rfl⟩

/-- The entry of a new descriptor. -/
theorem get_alloc (h : alloc table pid path oflags = some (table', n)) :
    get table' pid n = some ⟨pid, n, oflags, 0, path, true⟩ := by
  obtain ⟨-, hnone, i, -, rfl⟩ := alloc_spec h
  have hslot : slot (table.set i ⟨pid, n, oflags, 0, path, true⟩) pid n = some i := by
    refine Slots.first_eq_some_of_unique ?_ fun j hj => ?_
    · rw [Slots.get_set_self]
      exact isFor_iff.2 ⟨rfl, rfl, rfl⟩
    · by_contra hne
      rw [Slots.get_set_of_ne _ hne, Slots.first_eq_none_iff.1 hnone j] at hj
      cases hj
  unfold get
  rw [hslot, Option.map_some, Slots.get_set_self]

/-- Changing the offset of a descriptor leaves it where it is. -/
theorem get_modify {f : FdEntry → FdEntry} (hf : ∀ e, (f e).pid = e.pid ∧ (f e).fd = e.fd ∧ (f e).used = e.used) :
    get (modify table pid fd f) pid fd = (get table pid fd).map f := by
  have hsame : ∀ e, FdEntry.isFor pid fd (f e) = FdEntry.isFor pid fd e := by
    intro e
    unfold FdEntry.isFor
    rw [(hf e).1, (hf e).2.1, (hf e).2.2]
  unfold modify get
  cases hslot : slot table pid fd with
  | none => simp [hslot]
  | some i =>
    simp only [Option.map_some]
    have hkept : slot (table.set i (f (table.get i))) pid fd = slot table pid fd := by
      refine Slots.first_congr fun j => ?_
      rw [Slots.get_set]
      split
      · rename_i hj
        rw [hsame, hj]
      · rfl
    rw [hkept, hslot, Option.map_some, Slots.get_set_self]

theorem get_seek {e : FdEntry} (h : get table pid fd = some e) (newOffset : Nat) :
    get (seek table pid fd newOffset) pid fd = some { e with offset := newOffset } := by
  unfold seek
  rw [get_modify (f := fun e => { e with offset := newOffset }) fun e => ⟨rfl, rfl, rfl⟩, h, Option.map_some]

/-- There is no descriptor for the path. -/
def NoneLeft (table : FdTable) (pid : Nat) (path : Bytes) : Prop :=
  path = [] ∨ 64 < path.length ∨ freeNumber table pid = none ∨ ∀ i, (table.get i).used = true

theorem alloc_eq_none_iff {table : FdTable} {pid : Nat} {path : Bytes} {oflags : Byte} :
    alloc table pid path oflags = none ↔ NoneLeft table pid path := by
  have hfull : (table.first fun e => !e.used) = none ↔ ∀ i, (table.get i).used = true := by
    rw [Slots.first_eq_none_iff]
    simp
  unfold alloc NoneLeft
  by_cases hpath : path = [] ∨ 64 < path.length
  · rw [if_pos hpath]
    tauto
  · rw [if_neg hpath]
    rw [not_or] at hpath
    cases hnum : freeNumber table pid with
    | none => simp
    | some n =>
      rw [Option.bind_some, Option.map_eq_none_iff, hfull]
      simp [hpath.1, hpath.2]

theorem freeAllPath_eq_self_iff {table : FdTable} {path : Bytes} :
    freeAllPath table path = table ↔ ∀ i, ¬ ((table.get i).used = true ∧ (table.get i).path = path) := by
  constructor
  · rintro h i ⟨hused, hpath⟩
    have hi := congrArg (fun t => (Slots.get t i).used) h
    unfold freeAllPath at hi
    simp [Slots.get_update, hused, hpath] at hi
  · intro h
    ext i
    unfold freeAllPath
    rw [Slots.get_update]
    by_cases hi : ((table.get i).used && decide ((table.get i).path = path)) = true
    · simp only [Bool.and_eq_true, decide_eq_true_eq] at hi
      exact absurd hi (h i)
    · rw [if_neg hi]

end Fd

end Rost.Vfs
