import Rost.Process.Table
import Rost.Lib.Run

/-!
# Pids and kernel stacks are never shared

The runs of `create_process`, `create_ring3_process` and `terminate_process` on one table.  A kernel stack is either
owned by a live record, or in the reclaim pool, or has never been used: the ids below `NEXT_STACK` are exactly the
stacks of the live records and of the pool, each once (`Balanced`).  A table with a free slot has fewer than 32 records,
so the pool is not empty or a stack has never been used: a creation fails only when the table is full.

Every creation takes a record that some termination must give back, so fewer than `2 ^ 32` operations issue at most
`2 ^ 31 + 15` pids and the pid counter does not overflow (`Paid`).
-/

namespace Rost

open Lib (SlotTable Run exec)

/-! ### The stacks of the table -/

namespace ProcessTable

/-- The kernel stacks of the live records. -/
def stackIds (t : ProcessTable) : List Nat := t.live.map Pcb.kernelStackId

/-- The stacks used so far are those of the live records and of the reclaim pool, each once. -/
structure Balanced (t : ProcessTable) : Prop where
  perm : (t.stackIds ++ t.stackPool.reclaim).Perm (List.range t.stackPool.nextStack)
  next_le : t.stackPool.nextStack ≤ maxKernelStacks

namespace Balanced

variable {t : ProcessTable}

theorem new (b : Nat) : (ProcessTable.new b).Balanced where
  perm := by
    unfold stackIds live ProcessTable.new
    rw [SlotTable.entries_empty]
    exact List.Perm.refl _
  next_le := Nat.zero_le _

theorem nodup (h : t.Balanced) : (t.stackIds ++ t.stackPool.reclaim).Nodup := h.perm.nodup_iff.2 List.nodup_range

theorem mem_iff (h : t.Balanced) {i : Nat} :
    i ∈ t.stackIds ∨ i ∈ t.stackPool.reclaim ↔ i < t.stackPool.nextStack := by
  rw [← List.mem_append, h.perm.mem_iff, List.mem_range]

theorem stackId_lt (h : t.Balanced) {i : Nat} (hi : i ∈ t.stackIds) : i < maxKernelStacks :=
  Nat.lt_of_lt_of_le (h.mem_iff.1 (Or.inl hi)) h.next_le

/-- The pool never holds more ids than there are stacks beside those of the live records. -/
theorem length_add (h : t.Balanced) : t.live.length + t.stackPool.reclaim.length = t.stackPool.nextStack := by
  have := h.perm.length_eq
  rwa [List.length_append, stackIds, List.length_map, List.length_range] at this

/-- With a free slot there is a stack, and taking it keeps the balance of the ids. -/
theorem alloc (h : t.Balanced) (hfree : t.processes.HasFree) :
    ∃ stackPool id, t.stackPool.alloc = (stackPool, some id) ∧ stackPool.nextStack ≤ maxKernelStacks ∧
      (id :: t.stackIds ++ stackPool.reclaim).Perm (List.range stackPool.nextStack) := by
  unfold KernelStacks.alloc
  cases hrec : t.stackPool.reclaim with
  | cons id rest =>
    refine ⟨_, id, rfl, h.next_le, ?_⟩
    have hperm := h.perm
    rw [hrec] at hperm
    exact List.perm_middle.symm.trans hperm
  | nil =>
    have hlen := h.length_add
    have hfew : t.live.length < maxProcesses := t.processes.hasFree_iff_length.1 hfree
    have hnext : ¬ maxKernelStacks ≤ t.stackPool.nextStack := by
      rw [hrec, List.length_nil] at hlen
      unfold maxProcesses at hfew
      unfold maxKernelStacks
      omega
    refine ⟨_, t.stackPool.nextStack, by rw [if_neg hnext], ?_, ?_⟩
    · exact Nat.lt_of_not_le hnext
    · have hperm := h.perm
      rw [hrec] at hperm
      show (t.stackPool.nextStack :: t.stackIds ++ []).Perm (List.range (t.stackPool.nextStack + 1))
      rw [List.range_succ]
      exact (hperm.cons _).trans (List.perm_append_singleton _ _).symm

/-- The pool has room for the stack of a live record. -/
theorem free (h : t.Balanced) {pid : Nat} {p : Pcb} (hp : t.getProcess pid = some p) :
    t.stackPool.free p.kernelStackId = { t.stackPool with reclaim := p.kernelStackId :: t.stackPool.reclaim } := by
  have hmem := mem_live_of_getProcess hp
  have hid : p.kernelStackId < maxKernelStacks := h.stackId_lt (List.mem_map_of_mem hmem)
  have hroom : t.stackPool.reclaim.length < maxKernelStacks := by
    have := h.length_add
    have := h.next_le
    have := List.length_pos_of_mem hmem
    omega
  unfold KernelStacks.free
  rw [if_neg (by omega), if_pos hroom]

end Balanced

/-- A creation on a balanced table: with a free slot it adds a record with a stack of its own, else it does nothing. -/
theorem createWith_balanced {t : ProcessTable} (h : t.Balanced) (hpid : t.nextPid + 1 < 2 ^ 32)
    {mk : Nat → Nat → Nat → Pcb} {hmk : ∀ p i k, (mk p i k).pid = p} (hstack : ∀ p i k, (mk p i k).kernelStackId = i) :
    (¬ t.processes.HasFree ∧ t.createWith mk hmk = some (t, none)) ∨
    (t.processes.HasFree ∧ ∃ t', t.createWith mk hmk = some (t', some t.nextPid) ∧ t'.Balanced ∧
      t'.nextPid = t.nextPid + 1 ∧ t'.live.length = t.live.length + 1) := by
  unfold createWith
  by_cases hfree : t.processes.HasFree
  · obtain ⟨stackPool, id, halloc, hle, hperm⟩ := h.alloc hfree
    rw [dif_pos hfree, halloc]
    dsimp only
    rw [dif_pos hpid]
    have hfresh := t.pid_fresh (hmk t.nextPid id (stackPool.top id))
    have hentries : (t.processes.insert _ hfresh).entries.Perm _ := SlotTable.perm_entries_insert hfree
    refine Or.inr ⟨hfree, _, rfl, ⟨?_, hle⟩, rfl, ?_⟩
    · have hids := hentries.map Pcb.kernelStackId
      rw [List.map_cons, hstack] at hids
      exact (hids.append_right _).trans hperm
    · exact hentries.length_eq
  · rw [dif_neg hfree]
    exact Or.inl ⟨hfree, rfl⟩

/-- A termination takes at most one record from the table and gives its stack back. -/
theorem terminateProcess_balanced {t : ProcessTable} (h : t.Balanced) (pid : Nat) :
    (t.terminateProcess pid).1.Balanced ∧ t.live.length ≤ (t.terminateProcess pid).1.live.length + 1 := by
  unfold terminateProcess
  split
  · exact ⟨h, Nat.le_succ _⟩
  · rename_i p hp
    have hentries := SlotTable.perm_entries_erase hp
    refine ⟨⟨?_, ?_⟩, Nat.le_of_eq hentries.length_eq⟩
    · rw [h.free hp]
      have hids := hentries.map Pcb.kernelStackId
      rw [List.map_cons] at hids
      exact List.perm_middle.trans ((hids.append_right _).symm.trans h.perm)
    · rw [h.free hp]; exact h.next_le

end ProcessTable

/-! ### Runs of the table -/

/-- The operations that add and remove records. -/
inductive TableOp where
  | createProcess (pageTableBase : Word)
  | createRing3Process (pageTableBase : Word)
  | terminateProcess (pid : Nat)
deriving DecidableEq

/-- The operation creates a process. -/
def TableOp.creates : TableOp → Bool
  | .createProcess _ | .createRing3Process _ => true
  | .terminateProcess _ => false

namespace ProcessTable

/-- One operation; the result is the pid of the process created, if any. -/
def tableStep (t : ProcessTable) : TableOp → Option (ProcessTable × Option Nat)
  | .createProcess pageTableBase => t.createProcess pageTableBase
  | .createRing3Process pageTableBase => t.createRing3Process pageTableBase
  | .terminateProcess pid => some ((t.terminateProcess pid).1, none)

/-- The pids returned in a run, in order. -/
def issued (es : List (TableOp × Option Nat)) : List Nat := es.filterMap Prod.snd

/-- What the operations so far have to do with the pid counter: the pids issued are those below it, and every pid but
those of the live records is paid for by two operations. -/
structure Paid (es : List (TableOp × Option Nat)) (t : ProcessTable) : Prop where
  issued_eq : issued es = List.range' 1 (t.nextPid - 1)
  nextPid_pos : 0 < t.nextPid
  count_le : 2 * (t.nextPid - 1) ≤ es.length + t.live.length

theorem Paid.nextPid_lt {es : List (TableOp × Option Nat)} {t : ProcessTable} (h : Paid es t)
    (hlen : es.length < 2 ^ 32) : t.nextPid + 1 < 2 ^ 32 := by
  have hcount := h.count_le
  have hlive : t.live.length ≤ maxProcesses := t.processes.length_entries_le
  unfold maxProcesses at hlive
  omega

theorem Paid.new (b : Nat) : Paid [] (ProcessTable.new b) where
  issued_eq := rfl
  nextPid_pos := Nat.one_pos
  count_le := Nat.zero_le _

/-- A creation in a balanced table succeeds exactly when there is a free slot, and changes nothing when it fails. -/
theorem tableStep_creates {t : ProcessTable} (h : t.Balanced) (hpid : t.nextPid + 1 < 2 ^ 32) {op : TableOp}
    (hop : op.creates = true) :
    (¬ t.processes.HasFree ∧ t.tableStep op = some (t, none)) ∨
    (t.processes.HasFree ∧ ∃ t', t.tableStep op = some (t', some t.nextPid) ∧ t'.Balanced ∧
      t'.nextPid = t.nextPid + 1 ∧ t'.live.length = t.live.length + 1) := by
  cases op with
  | createProcess pageTableBase =>
    unfold tableStep createProcess
    exact createWith_balanced h hpid fun _ _ _ => rfl
  | createRing3Process pageTableBase =>
    unfold tableStep createRing3Process
    exact createWith_balanced h hpid fun _ _ _ => rfl
  | terminateProcess pid => cases hop

/-- Every operation runs, and keeps the stacks balanced and the pids paid for. -/
theorem tableStep_paid {es : List (TableOp × Option Nat)} {t : ProcessTable} (h : t.Balanced) (hes : Paid es t)
    (hlen : es.length < 2 ^ 32) (op : TableOp) :
    ∃ t' r, t.tableStep op = some (t', r) ∧ t'.Balanced ∧ Paid (es ++ [(op, r)]) t' := by
  have hcount := hes.count_le
  have hpos := hes.nextPid_pos
  by_cases hop : op.creates = true
  · rcases tableStep_creates h (hes.nextPid_lt hlen) hop with ⟨-, hstep⟩ | ⟨-, t', hstep, hbal, hnext, hlive⟩
    · refine ⟨t, none, hstep, h, ⟨?_, hpos, ?_⟩⟩
      · rw [issued, List.filterMap_append]
        simpa [issued] using hes.issued_eq
      · rw [List.length_append, List.length_singleton]
        omega
    · refine ⟨t', some t.nextPid, hstep, hbal, ⟨?_, by omega, ?_⟩⟩
      · rw [hnext, Nat.add_sub_cancel, issued, List.filterMap_append]
        obtain ⟨n, hn⟩ : ∃ n, t.nextPid = n + 1 := ⟨t.nextPid - 1, by omega⟩
        have hsofar := hes.issued_eq
        rw [hn, Nat.add_sub_cancel] at hsofar
        rw [hn, List.range'_1_concat, ← hsofar, Nat.add_comm 1 n]
        rfl
      · rw [List.length_append, List.length_singleton]
        omega
  · cases op with
    | createProcess pageTableBase => exact absurd rfl hop
    | createRing3Process pageTableBase => exact absurd rfl hop
    | terminateProcess pid =>
      obtain ⟨hbal, hlive⟩ := terminateProcess_balanced h pid
      refine ⟨_, none, rfl, hbal, ⟨?_, ?_, ?_⟩⟩
      · rw [nextPid_terminateProcess, issued, List.filterMap_append]
        simpa [issued] using hes.issued_eq
      · rw [nextPid_terminateProcess]; exact hpos
      · rw [nextPid_terminateProcess, List.length_append, List.length_singleton]
        omega

/-- The run of the operations from a state that is balanced and paid for. -/
theorem exec_tableStep {es : List (TableOp × Option Nat)} {t : ProcessTable} (ops : List TableOp) (h : t.Balanced)
    (hes : Paid es t) (hlen : es.length + ops.length < 2 ^ 32) :
    ∃ t' fs, exec tableStep (fun _ _ => True) t ops = some (t', fs) ∧ fs.map Prod.fst = ops ∧ t'.Balanced ∧
      Paid (es ++ fs) t' := by
  induction ops generalizing es t with
  | nil => exact ⟨t, [], rfl, rfl, h, by rwa [List.append_nil]⟩
  | cons op ops ih =>
    rw [List.length_cons] at hlen
    obtain ⟨u, r, hstep, hbal, hpaid⟩ := tableStep_paid h hes (by omega) op
    obtain ⟨t', fs, hrest, hops, hbal', hpaid'⟩ := ih hbal hpaid (by simp only [List.length_append]; simp; omega)
    refine ⟨t', (op, r) :: fs, ?_, by rw [List.map_cons, hops], hbal', ?_⟩
    · rw [exec, if_pos trivial, hstep]
      dsimp only
      rw [hrest]
      rfl
    · rwa [List.append_assoc] at hpaid'

/-- Fewer than `2 ^ 32` creations and terminations: the run does not panic; no pid is issued twice; live records have
distinct pids and distinct stacks, none of them in the reclaim pool; no used stack is lost; and a creation succeeds
exactly when the table has a free slot, else it changes nothing. -/
theorem resources_exclusive (base : Nat) (ops : List TableOp) (hlen : ops.length < 2 ^ 32) :
    ∃ t es, exec tableStep (fun _ _ => True) (ProcessTable.new base) ops = some (t, es) ∧ es.map Prod.fst = ops ∧
      (t.live.map Pcb.pid).Nodup ∧ (issued es).Nodup ∧
      t.stackIds.Nodup ∧ (∀ i ∈ t.stackIds, i < maxKernelStacks) ∧
      t.stackPool.reclaim.Nodup ∧ t.stackIds.Disjoint t.stackPool.reclaim ∧
      (∀ i < t.stackPool.nextStack, i ∈ t.stackIds ∨ i ∈ t.stackPool.reclaim) ∧
      ∀ op : TableOp, op.creates = true → ∃ t' r, t.tableStep op = some (t', r) ∧
        (r.isSome ↔ t.processes.HasFree) ∧ (r = none → t' = t) := by
  obtain ⟨t, es, hexec, hops, hbal, hpaid⟩ := exec_tableStep ops (Balanced.new base) (Paid.new base) (by simpa using hlen)
  rw [List.nil_append] at hpaid
  obtain ⟨hlive, hpool, hdisj⟩ := List.nodup_append'.1 hbal.nodup
  have hes : es.length < 2 ^ 32 := by
    have := congrArg List.length hops
    rw [List.length_map] at this
    omega
  refine ⟨t, es, hexec, hops, t.processes.distinct, ?_, hlive, fun i hi => hbal.stackId_lt hi, hpool, hdisj,
    fun i hi => hbal.mem_iff.2 hi, fun op hop => ?_⟩
  · rw [hpaid.issued_eq]; exact List.nodup_range'
  · rcases tableStep_creates hbal (hpaid.nextPid_lt hes) hop with ⟨hfull, hstep⟩ | ⟨hfree, t', hstep, -⟩
    · exact ⟨t, none, hstep, by simp [hfull], fun _ => rfl⟩
    · exact ⟨t', some t.nextPid, hstep, by simp [hfree], fun e => by cases e⟩

/-- A slot and its stack used again after a termination, under a new pid. -/
theorem resources_exclusive_reuse :
    ∃ t es, exec tableStep (fun _ _ => True) (ProcessTable.new 0)
        [.createProcess 0, .createRing3Process 4096, .terminateProcess 1, .createProcess 0] = some (t, es) ∧
      (issued es, t.stackIds) = ([1, 2, 3], [0, 1]) ∧ (issued es).Nodup ∧ t.stackIds.Nodup := by
  obtain ⟨t, es, hexec, -, -, hissued, hstacks, -⟩ := resources_exclusive 0
    [.createProcess 0, .createRing3Process 4096, .terminateProcess 1, .createProcess 0] (by decide)
  refine ⟨t, es, hexec, ?_, hissued, hstacks⟩
  have hrun : (exec tableStep (fun _ _ => True) (ProcessTable.new 0)
      [.createProcess 0, .createRing3Process 4096, .terminateProcess 1, .createProcess 0]).map
        (fun out => (issued out.2, out.1.stackIds)) = some ([1, 2, 3], [0, 1]) := by decide
  rw [hexec] at hrun
  exact Option.some.inj hrun

end ProcessTable

end Rost
