import Rost.Process.Pcb
import Rost.Lib.SlotTable

/-!
# The process table

At most 32 process control blocks, found by pid.  Pids are handed out in increasing order, so they are distinct, and
`getProcess` is a finite map; the lemmas at the end say how each operation changes it.  `create_process` adds one to a
`u32` counter: when that overflows the kernel panics (`none`), so no pid is ever used twice.
-/

namespace Rost

open Lib (SlotTable)

def maxProcesses : Nat := 32

/-- The process table and the kernel-stack statics, from which only its records draw. -/
structure ProcessTable where
  processes : SlotTable Pcb Nat Pcb.pid maxProcesses
  nextPid : Nat
  stackPool : KernelStacks
  pid_lt : ∀ p ∈ processes.entries, p.pid < nextPid
  nextPid_lt : nextPid < 2 ^ 32

namespace ProcessTable

def new (stacksBase : Nat) : ProcessTable where
  processes := SlotTable.empty Pcb Nat Pcb.pid maxProcesses
  nextPid := 1
  stackPool := ⟨stacksBase, 0, []⟩
  pid_lt := by rw [SlotTable.entries_empty]; intro p hp; cases hp
  nextPid_lt := by decide

/-- The live processes in slot order. -/
def live (t : ProcessTable) : List Pcb := t.processes.entries

def getProcess (t : ProcessTable) (pid : Nat) : Option Pcb := t.processes.find? pid

/-- Change every record in place. -/
def mapAll (t : ProcessTable) (f : Pcb → Pcb) (hf : ∀ p, (f p).pid = p.pid := by intro p; rfl) : ProcessTable :=
  { t with
    processes := t.processes.mapAll f hf
    pid_lt := by
      intro p hp
      rw [SlotTable.entries_mapAll, List.mem_map] at hp
      obtain ⟨q, hq, rfl⟩ := hp
      rw [hf q]; exact t.pid_lt q hq }

/-- Change the record of `pid` in place, if there is one. -/
def update (t : ProcessTable) (pid : Nat) (f : Pcb → Pcb) (hf : ∀ p, (f p).pid = p.pid := by intro p; rfl) :
    ProcessTable :=
  { t with
    processes := t.processes.update pid f hf
    pid_lt := by
      intro p hp
      unfold SlotTable.update at hp
      rw [SlotTable.entries_mapAll, List.mem_map] at hp
      obtain ⟨q, hq, rfl⟩ := hp
      have : (if q.pid = pid then f q else q).pid = q.pid := by split <;> simp [hf q]
      rw [this]; exact t.pid_lt q hq }

theorem pid_fresh (t : ProcessTable) {r : Pcb} (h : r.pid = t.nextPid) :
    ∀ x ∈ t.processes.entries, x.pid ≠ r.pid := by
  intro x hx
  have := t.pid_lt x hx
  omega

/-- The common body of `create_process` and `create_ring3_process`: `mk pid stackId stackTop` is the new record. -/
def createWith (t : ProcessTable) (mk : Nat → Nat → Nat → Pcb) (hmk : ∀ p i k, (mk p i k).pid = p) :
    Option (ProcessTable × Option Nat) :=
  if hfree : t.processes.HasFree then
    match t.stackPool.alloc with
    | (stackPool, none) => some ({ t with stackPool := stackPool }, none)
    | (stackPool, some id) =>
      if hpid : t.nextPid + 1 < 2 ^ 32 then
        some ({ processes := t.processes.insert (mk t.nextPid id (stackPool.top id)) (t.pid_fresh (hmk _ _ _))
                nextPid := t.nextPid + 1
                stackPool := stackPool
                pid_lt := by
                  intro p hp
                  rw [SlotTable.mem_entries_insert hfree] at hp
                  rcases hp with rfl | hp
                  · rw [hmk]; omega
                  · have := t.pid_lt p hp; omega
                nextPid_lt := hpid }, some t.nextPid)
      else none
  else some (t, none)

def createProcess (t : ProcessTable) (pageTableBase : Word) : Option (ProcessTable × Option Nat) :=
  t.createWith (fun pid id top => Pcb.new pid id top pageTableBase) (fun _ _ _ => rfl)

def createRing3Process (t : ProcessTable) (pageTableBase : Word) : Option (ProcessTable × Option Nat) :=
  t.createWith (fun pid id top => Pcb.newRing3 pid id top pageTableBase) (fun _ _ _ => rfl)

/-- Clear the slot of `pid`.  Dropping the record returns its kernel stack; its frames are the second component. -/
def terminateProcess (t : ProcessTable) (pid : Nat) : ProcessTable × List Word :=
  match t.getProcess pid with
  | none => (t, [])
  | some p =>
    ({ t with
       processes := t.processes.erase pid
       stackPool := t.stackPool.free p.kernelStackId
       pid_lt := by
         intro q hq
         exact t.pid_lt q (SlotTable.mem_entries_erase.1 hq).1 }, p.droppedFrames)

/-! ### Scheduler queries

The fixed-capacity `ProcList` has room for the whole table, so its `push` never drops an element. -/

/-- `(pid, state, priority)` of every process; state 0 is ready or running, 1 blocked, 2 terminated. -/
def listAll (t : ProcessTable) : List (Nat × Nat × Nat) :=
  t.live.map fun p =>
    (p.pid, (match p.state with | .ready | .running => 0 | .blocked => 1 | .terminated => 2), p.priority)

def getReadyWithPriority (t : ProcessTable) : List (Nat × Nat) :=
  (t.live.filter Pcb.isRunnable).map fun p => (p.pid, p.priority)

def getReadyRealtime (t : ProcessTable) : List (Nat × Nat) :=
  (t.live.filter fun p => p.isRunnable && decide (0 < p.rtPeriod)).map fun p => (p.pid, p.rtDeadline)

/-- `(priority, target)` of every blocked process that waits for a target. -/
def getBlockedWaiters (t : ProcessTable) : List (Nat × Nat) :=
  t.live.filterMap fun p => if p.state = .blocked then p.waitingFor.map fun target => (p.priority, target) else none

def earliestBlockedDeadline (t : ProcessTable) : Nat :=
  ((t.live.filter fun p => decide (p.state = .blocked ∧ p.blockedDeadline ≠ u64Max)).map
    Pcb.blockedDeadline).foldl min u64Max

/-- What a process becomes when it is woken: by a message, a notification or its deadline. -/
def unblocked (p : Pcb) : Pcb := { p with state := .ready, blockedDeadline := u64Max, waitingFor := none }

/-- The effect of `check_deadlines` on one record. -/
def checkDeadline (currentTick : Nat) (p : Pcb) : Pcb :=
  if p.state = .blocked ∧ p.blockedDeadline ≤ currentTick then unblocked p else p

def checkDeadlines (t : ProcessTable) (currentTick : Nat) : ProcessTable :=
  t.mapAll (checkDeadline currentTick) (fun p => by unfold checkDeadline; split <;> rfl)

def resetIpcRateCounters (t : ProcessTable) : ProcessTable := t.mapAll fun p => { p with ipcRateUsed := 0 }

def resetCpuBudgetCounters (t : ProcessTable) : ProcessTable := t.mapAll fun p => { p with cpuBudgetUsed := 0 }

/-! ### Capability tables -/

/-- Put `cap` into the first empty slot of `pid`'s capability table. -/
def capAlloc (t : ProcessTable) (pid : Nat) (cap : Capability) : ProcessTable × Option Nat :=
  match t.getProcess pid with
  | none => (t, none)
  | some p =>
    match p.capTable.findFinIdx? Capability.isEmpty with
    | none => (t, none)
    | some i => (t.update pid fun q => { q with capTable := q.capTable.set i cap }, some i)

/-- The first capability of `pid` of the given kind and object. -/
def capFind (t : ProcessTable) (pid : Nat) (kind : CapKind) (objectId : Nat) : Option (Nat × Capability) :=
  match t.getProcess pid with
  | none => none
  | some p =>
    (p.capTable.findFinIdx? fun c => decide (c.kind = kind ∧ c.objectId = objectId)).map fun i =>
      (i.val, p.capTable.get i)

def capRevoke (t : ProcessTable) (pid slotIdx : Nat) : ProcessTable :=
  if h : slotIdx < capTableSize then t.update pid fun p => { p with capTable := p.capTable.set slotIdx .empty h }
  else t

/-- Copy a capability that carries the grant right into the table of `toPid`. -/
def capGrant (t : ProcessTable) (fromPid slotIdx toPid : Nat) : ProcessTable × Option Nat :=
  if h : slotIdx < capTableSize then
    match t.getProcess fromPid with
    | none => (t, none)
    | some p =>
      let c := p.capTable[slotIdx]
      if c.isEmpty then (t, none) else if c.rights &&& capG = 0 then (t, none) else t.capAlloc toPid c
  else (t, none)

/-! ### The wait-for chain -/

/-- The loop of `detect_cycle`: follow `waiting_for` from `current`; `visited` are the slots seen so far, and the fuel
is the number of slots, so it lasts until a slot is seen twice. -/
def detectCycleFrom (t : ProcessTable) (waiter : Nat) : Nat → List Nat → Nat → Bool
  | 0, _, _ => false
  | fuel + 1, visited, current =>
    match t.getProcess current with
    | none => false
    | some p =>
      if current ∈ visited then false
      else
        match p.waitingFor with
        | none => false
        | some next => if next = waiter then true else detectCycleFrom t waiter fuel (current :: visited) next

/-- Would `waiter` waiting for `target` close a cycle of `waiting_for` links? -/
def detectCycle (t : ProcessTable) (waiter target : Nat) : Bool :=
  t.detectCycleFrom waiter (maxProcesses + 1) [] target

/-! ### The table as a finite map -/

theorem getProcess_pid {t : ProcessTable} {pid : Nat} {p : Pcb} (h : t.getProcess pid = some p) : p.pid = pid :=
  (SlotTable.find?_eq_some_iff.1 h).2

theorem mem_live_iff {t : ProcessTable} {p : Pcb} : p ∈ t.live ↔ t.getProcess p.pid = some p :=
  SlotTable.mem_entries_iff

theorem mem_live_of_getProcess {t : ProcessTable} {pid : Nat} {p : Pcb} (h : t.getProcess pid = some p) :
    p ∈ t.live := (SlotTable.find?_eq_some_iff.1 h).1

theorem lt_nextPid_of_getProcess {t : ProcessTable} {pid : Nat} {p : Pcb} (h : t.getProcess pid = some p) :
    pid < t.nextPid := by
  have := t.pid_lt p (mem_live_of_getProcess h)
  rwa [getProcess_pid h] at this

theorem getProcess_new (b pid : Nat) : (new b).getProcess pid = none := SlotTable.find?_empty pid

theorem getProcess_mapAll (t : ProcessTable) (f : Pcb → Pcb) (hf : ∀ p, (f p).pid = p.pid) (pid : Nat) :
    (t.mapAll f hf).getProcess pid = (t.getProcess pid).map f := SlotTable.find?_mapAll t.processes f hf pid

theorem getProcess_update (t : ProcessTable) (pid : Nat) (f : Pcb → Pcb) (hf : ∀ p, (f p).pid = p.pid) (q : Nat) :
    (t.update pid f hf).getProcess q = if q = pid then (t.getProcess q).map f else t.getProcess q :=
  SlotTable.find?_update t.processes pid f hf q

theorem getProcess_terminateProcess (t : ProcessTable) (pid q : Nat) :
    (t.terminateProcess pid).1.getProcess q = if q = pid then none else t.getProcess q := by
  unfold terminateProcess
  cases h : t.getProcess pid with
  | none =>
    by_cases hq : q = pid
    · subst hq; simp [h]
    · simp [hq]
  | some p => exact SlotTable.find?_erase t.processes pid q

theorem nextPid_terminateProcess (t : ProcessTable) (pid : Nat) : (t.terminateProcess pid).1.nextPid = t.nextPid := by
  unfold terminateProcess
  split <;> rfl

/-- A creation either changes no process, or adds the record for the next pid. -/
theorem createWith_cases {t t' : ProcessTable} {mk : Nat → Nat → Nat → Pcb} {hmk : ∀ p i k, (mk p i k).pid = p}
    {r : Option Nat} (h : t.createWith mk hmk = some (t', r)) :
    (r = none ∧ t'.nextPid = t.nextPid ∧ ∀ q, t'.getProcess q = t.getProcess q) ∨
    (r = some t.nextPid ∧ t'.nextPid = t.nextPid + 1 ∧ t.getProcess t.nextPid = none ∧ ∃ i k, ∀ q,
      t'.getProcess q = if q = t.nextPid then some (mk t.nextPid i k) else t.getProcess q) := by
  unfold createWith at h
  split at h
  · rename_i hfree
    split at h
    · simp only [Option.some.injEq, Prod.mk.injEq] at h
      obtain ⟨rfl, rfl⟩ := h
      exact Or.inl ⟨rfl, rfl, fun q => rfl⟩
    · rename_i stackPool id halloc
      split at h
      · simp only [Option.some.injEq, Prod.mk.injEq] at h
        obtain ⟨rfl, rfl⟩ := h
        refine Or.inr ⟨rfl, rfl, ?_, id, stackPool.top id, fun q => ?_⟩
        · cases hn : t.getProcess t.nextPid with
          | none => rfl
          | some p => exact absurd (lt_nextPid_of_getProcess hn) (Nat.lt_irrefl _)
        · have hkey := t.pid_fresh (hmk t.nextPid id (stackPool.top id))
          show (t.processes.insert (mk t.nextPid id (stackPool.top id)) hkey).find? q = _
          rw [SlotTable.find?_insert hfree, hmk]
          rfl
      · cases h
  · simp only [Option.some.injEq, Prod.mk.injEq] at h
    obtain ⟨rfl, rfl⟩ := h
    exact Or.inl ⟨rfl, rfl, fun q => rfl⟩

end ProcessTable

end Rost
