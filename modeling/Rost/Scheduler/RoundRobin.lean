import Rost.Process.Table

/-!
# The scheduler

Selection by earliest deadline, then by inherited priority and round robin; the five ways a context switch is
prepared; message passing and its audit log.  A switch is returned as the pid whose context is saved and the record
that is entered.  The service registry and the frames of a terminated process belong to the kernel state above.
-/

namespace Rost

def cpuBudgetFrameTicks : Nat := 1000
def auditCapacity : Nat := 64

/-! ### The audit log -/

inductive AuditKind where
  | send
  | receive
  | block
  | unblock
  | terminate
deriving DecidableEq, Repr

structure AuditEntry where
  tick : Nat
  kind : AuditKind
  sender : Nat
  target : Nat
deriving DecidableEq, Repr

/-- The last 64 events, kept in a ring that overwrites its oldest entry. -/
structure AuditLog where
  entries : Vector AuditEntry auditCapacity
  head : Nat
  count : Nat

namespace AuditLog

def new : AuditLog := ⟨Vector.replicate auditCapacity ⟨0, .send, 0, 0⟩, 0, 0⟩

def push (l : AuditLog) (e : AuditEntry) : AuditLog :=
  let idx := (l.head + l.count) % auditCapacity
  let entries := l.entries.set idx e (Nat.mod_lt _ (by decide))
  if l.count < auditCapacity then { l with entries := entries, count := l.count + 1 }
  else { l with entries := entries, head := (l.head + 1) % auditCapacity }

/-- The logged events, oldest first. -/
def iter (l : AuditLog) : List AuditEntry :=
  (List.range l.count).map fun i => l.entries.get ⟨(l.head + i) % auditCapacity, Nat.mod_lt _ (by decide)⟩

end AuditLog

/-! ### State -/

structure Scheduler where
  processTable : ProcessTable
  currentProcess : Option Nat
  queueIndex : Nat
  audit : AuditLog
  tick : Nat

/-- What a switch needs: the pid whose context is saved (none when its process is gone), the pid that runs next, and
the page table and kernel stack it runs with. -/
structure Switch where
  old : Option Nat
  new : Nat
  pml4 : Word
  kernelRsp : Nat

namespace Scheduler

def new (stacksBase : Nat) : Scheduler := ⟨ProcessTable.new stacksBase, none, 0, AuditLog.new, 0⟩

def getProcess (s : Scheduler) (pid : Nat) : Option Pcb := s.processTable.getProcess pid

/-- Change the record of `pid` in place, if there is one. -/
def update (s : Scheduler) (pid : Nat) (f : Pcb → Pcb) (hf : ∀ p, (f p).pid = p.pid := by intro p; rfl) :
    Scheduler := { s with processTable := s.processTable.update pid f hf }

def log (s : Scheduler) (kind : AuditKind) (sender target : Nat) : Scheduler :=
  { s with audit := s.audit.push ⟨s.tick, kind, sender, target⟩ }

/-! ### Registration and attributes -/

def addProcess (s : Scheduler) (pageTableBase : Word) : Option (Scheduler × Option Nat) :=
  (s.processTable.createProcess pageTableBase).map fun (t, r) => ({ s with processTable := t }, r)

def addRing3Process (s : Scheduler) (pageTableBase : Word) : Option (Scheduler × Option Nat) :=
  (s.processTable.createRing3Process pageTableBase).map fun (t, r) => ({ s with processTable := t }, r)

private theorem foldl_addUserFrame_pid (frames : List Word) (p : Pcb) :
    (frames.foldl Pcb.addUserFrame p).pid = p.pid := by
  rw [Pcb.foldl_addUserFrame]

def registerUserFrames (s : Scheduler) (pid : Nat) (frames : List Word) : Scheduler :=
  s.update pid (fun p => { frames.foldl Pcb.addUserFrame p with pml4Owned := true })
    (foldl_addUserFrame_pid frames)

def appendUserFrames (s : Scheduler) (pid : Nat) (frames : List Word) : Scheduler :=
  s.update pid (fun p => frames.foldl Pcb.addUserFrame p) (foldl_addUserFrame_pid frames)

def setPriority (s : Scheduler) (pid priority : Nat) : Scheduler :=
  s.update pid fun p => { p with priority := priority }

def setRealtime (s : Scheduler) (pid periodTicks : Nat) : Scheduler :=
  s.update pid fun p =>
    { p with rtPeriod := periodTicks, rtDeadline := if 0 < periodTicks then wrapAdd 64 s.tick periodTicks else 0 }

def setQuotas (s : Scheduler) (pid memoryQuotaPages cpuBudgetTicks ipcRateLimit : Nat) : Scheduler :=
  s.update pid fun p =>
    { p with
      memoryQuotaPages := memoryQuotaPages
      cpuBudgetTicks := cpuBudgetTicks
      ipcRateLimit := ipcRateLimit }

def setCurrent (s : Scheduler) (pid : Nat) : Scheduler := { s with currentProcess := some pid }

/-! ### Selection -/

/-- The first element with the least second component. -/
def minByDeadline : List (Nat × Nat) → Option (Nat × Nat)
  | [] => none
  | a :: rest =>
    match minByDeadline rest with
    | none => some a
    | some b => if a.2 ≤ b.2 then some a else some b

/-- Record that a waiter of priority `prio` waits for `target`: the best donation for each target is kept. -/
def donate (donations : List (Nat × Nat)) (target prio : Nat) : List (Nat × Nat) :=
  if donations.any (fun d => d.1 == target) then
    donations.map fun d => if d.1 = target then (d.1, min d.2 prio) else d
  else if donations.length < 32 then donations ++ [(target, prio)] else donations

/-- The donations of the blocked waiters to candidates. -/
def donationsOf (candidates waiters : List (Nat × Nat)) : List (Nat × Nat) :=
  waiters.foldl (fun ds w => if candidates.any (fun c => c.1 == w.2) then donate ds w.2 w.1 else ds) []

def effectivePrio (donations : List (Nat × Nat)) (pid natural : Nat) : Nat :=
  match donations.find? (fun d => d.1 == pid) with
  | none => natural
  | some d => min natural d.2

/-- The candidates of least effective priority, in slot order. -/
def atMinPrio (t : ProcessTable) : List Nat :=
  let candidates := t.getReadyWithPriority
  let donations := donationsOf candidates t.getBlockedWaiters
  match (candidates.map fun c => effectivePrio donations c.1 c.2).min? with
  | none => []
  | some m => (candidates.filter fun c => decide (effectivePrio donations c.1 c.2 = m)).map Prod.fst

/-- Select the next process: the real-time candidate with the earliest deadline, else round robin among the candidates
of least effective priority. -/
def pickNextPriority (s : Scheduler) : Scheduler × Option Nat :=
  if s.processTable.getReadyWithPriority.isEmpty then (s, none)
  else if !s.processTable.getReadyRealtime.isEmpty then
    (s, (minByDeadline s.processTable.getReadyRealtime).map Prod.fst)
  else
    let atMin := atMinPrio s.processTable
    if atMin.isEmpty then (s, none)
    else
      let idx := if atMin.length ≤ s.queueIndex then 0 else s.queueIndex
      ({ s with queueIndex := (idx + 1) % atMin.length }, atMin[idx]?)

def schedule (s : Scheduler) : Scheduler × Option Nat :=
  ({ s.pickNextPriority.1 with currentProcess := s.pickNextPriority.2 }, s.pickNextPriority.2)

/-! ### Context switches -/

/-- Running becomes ready. -/
def demote (p : Pcb) : Pcb := if p.state = .running then { p with state := .ready } else p

@[simp] theorem demote_pid (p : Pcb) : (demote p).pid = p.pid := by unfold demote; split <;> rfl

/-- Make `next` the current process and mark it running; `old` is the pid whose context is saved. -/
def enter (s : Scheduler) (old : Option Nat) (next : Nat) : Scheduler × Option Switch :=
  (({ s with currentProcess := some next } : Scheduler).update next fun p => { p with state := .running },
    (s.getProcess next).map fun p => ⟨old, next, p.pageTableBase, p.kernelRsp⟩)

/-- The accounting of one tick for the running process. -/
def charge (p : Pcb) : Pcb :=
  { p with
    cpuTime := wrapAdd 32 p.cpuTime 1
    totalCpuTicks := wrapAdd 64 p.totalCpuTicks 1
    cpuBudgetUsed := if 0 < p.cpuBudgetTicks then wrapAdd 32 p.cpuBudgetUsed 1 else p.cpuBudgetUsed }

@[simp] theorem charge_pid (p : Pcb) : (charge p).pid = p.pid := rfl

/-- The quantum is over or the budget is used up. -/
def quantumOver (p : Pcb) : Bool :=
  decide (p.timeSlice ≤ p.cpuTime) || (decide (0 < p.cpuBudgetTicks) && decide (p.cpuBudgetTicks ≤ p.cpuBudgetUsed))

/-- The running process at the end of its quantum: ready again, a passed real-time deadline moved by one period. -/
def expire (currentTick : Nat) (p : Pcb) : Pcb :=
  let q := demote { p with cpuTime := 0 }
  if 0 < q.rtPeriod ∧ q.rtDeadline ≤ currentTick then { q with rtDeadline := wrapAdd 64 q.rtDeadline q.rtPeriod }
  else q

@[simp] theorem expire_pid (currentTick : Nat) (p : Pcb) : (expire currentTick p).pid = p.pid := by
  unfold expire; simp only; split <;> simp

/-- A tick that ends the quantum: the charge and the preemption. -/
def preempt (currentTick : Nat) (p : Pcb) : Pcb := expire currentTick (charge p)

@[simp] theorem preempt_pid (currentTick : Nat) (p : Pcb) : (preempt currentTick p).pid = p.pid :=
  expire_pid currentTick (charge p)

/-- The tick counter advances; deadlines, rate windows and budget frames are brought up to date. -/
def advanceTick (s : Scheduler) : Scheduler :=
  let tick := wrapAdd 64 s.tick 1
  let t := s.processTable.checkDeadlines tick
  let t := if tick % 100 = 0 then t.resetIpcRateCounters else t
  let t := if tick % cpuBudgetFrameTicks = 0 then t.resetCpuBudgetCounters else t
  { s with processTable := t, tick := tick }

/-- Charge the tick to the current process; the flag says that it must be preempted. -/
def chargeCurrent (s : Scheduler) : Scheduler × Bool :=
  match s.currentProcess with
  | none => (s, false)
  | some cpid =>
    match s.getProcess cpid with
    | none => (s, false)
    | some p =>
      if quantumOver (charge p) then
        (s.update cpid (preempt s.tick) (preempt_pid s.tick), true)
      else (s.update cpid charge charge_pid, false)

/-- One tick of the timer: a process at the end of its quantum makes room for the next one. -/
def timerTick (s : Scheduler) : Scheduler × Option Switch :=
  match s.advanceTick.chargeCurrent with
  | (s, false) => (s, none)
  | (s, true) =>
    let current := s.currentProcess
    match s.pickNextPriority with
    | (s, none) => (s, none)
    | (s, some next) =>
      if some next = current then ((s.enter none next).1, none)
      else
        match current.bind s.getProcess with
        | none => ((s.enter current next).1, none)
        | some _ => s.enter current next

/-- Select a process after a termination, when there is no current process. -/
def forceScheduleNext (s : Scheduler) : Scheduler × Option Switch :=
  match s.pickNextPriority with
  | (s, none) => (s, none)
  | (s, some next) => s.enter none next

/-- Leave `blockedPid`, which has just been marked blocked, for the next process. -/
def prepareBlockSwitch (s : Scheduler) (blockedPid : Nat) : Scheduler × Option Switch :=
  match s.pickNextPriority with
  | (s, none) => (s, none)
  | (s, some next) =>
    match s.getProcess blockedPid with
    | none => (s, none)
    | some _ => s.enter (some blockedPid) next

/-- The priority that `reschedule_isr` compares. -/
def naturalPrio (s : Scheduler) (pid : Option Nat) : Nat :=
  match pid.bind s.getProcess with
  | none => 255
  | some p => p.priority

/-- Preempt after a device interrupt, if the selected process has a strictly smaller priority number. -/
def rescheduleIsr (s : Scheduler) : Scheduler × Option Switch :=
  let current := s.currentProcess
  match s.pickNextPriority with
  | (s, none) => (s, none)
  | (s, some next) =>
    if s.naturalPrio current ≤ s.naturalPrio (some next) ∨ some next = current then (s, none)
    else
      match current with
      -- `?` leaves the function after `current_process` has been set
      | none => ({ s with currentProcess := some next }, none)
      | some cpid =>
        match s.getProcess cpid with
        | none => ({ s with currentProcess := some next }, none)
        | some _ => (s.update cpid demote demote_pid).enter (some cpid) next

def yieldCurrent (s : Scheduler) : Scheduler :=
  match s.currentProcess with
  | none => s
  | some cpid => s.update cpid (fun p => demote { p with cpuTime := p.timeSlice }) (fun _ => demote_pid _)

/-- Give up the CPU at once. -/
def yieldSwitch (s : Scheduler) : Scheduler × Option Switch :=
  match s.currentProcess with
  | none => (s, none)
  | some cpid =>
    let s := s.update cpid (fun p => demote { p with cpuTime := 0 }) (fun _ => demote_pid _)
    match s.pickNextPriority with
    | (s, none) => (s, none)
    | (s, some next) =>
      if next = cpid then (s.update cpid fun p => { p with state := .running }, none)
      else
        match s.getProcess cpid with
        | none => ({ s with currentProcess := some next }, none)
        | some _ => s.enter (some cpid) next

/-! ### Message passing -/

/-- The sender has used up its messages of the current window. -/
def rateLimited (p : Pcb) : Bool := decide (0 < p.ipcRateLimit) && decide (p.ipcRateLimit ≤ p.ipcRateUsed)

/-- A message reaches a mailbox; a blocked receiver becomes ready. -/
def deliver (msg : Message) (p : Pcb) : Pcb :=
  let q := { p with mailbox := (p.mailbox.send msg).1 }
  if q.state = .blocked then ProcessTable.unblocked q else q

@[simp] theorem deliver_pid (msg : Message) (p : Pcb) : (deliver msg p).pid = p.pid := by
  unfold deliver; simp only; split <;> rfl

theorem deliver_state (msg : Message) (p : Pcb) :
    (deliver msg p).state = if p.state = .blocked then .ready else p.state := by
  unfold deliver; simp only; split <;> rfl

/-- Charge the send to the sender, and remember whom it may wait for. -/
def chargeSend (toPid : Nat) (p : Pcb) : Pcb :=
  { p with ipcRateUsed := wrapAdd 16 p.ipcRateUsed 1, waitingFor := some toPid }

@[simp] theorem chargeSend_pid (toPid : Nat) (p : Pcb) : (chargeSend toPid p).pid = p.pid := rfl

/-- Send `msg` to `toPid`, stamped with the sender's pid. -/
def sendMessage (s : Scheduler) (fromPid toPid : Nat) (msg : Message) : Scheduler × Bool :=
  match s.getProcess toPid with
  | none => (s, false)
  | some _ =>
    if (s.getProcess fromPid).any rateLimited then (s, false)
    else
      let s := s.update fromPid (chargeSend toPid) (chargeSend_pid toPid)
      let msg := { msg with sender := fromPid }
      match s.getProcess toPid with
      | none => (s, false)
      | some receiver =>
        if (receiver.mailbox.send msg).2 then
          ((s.update toPid (deliver msg) (deliver_pid msg)).log .send fromPid toPid, true)
        else (s, false)

/-- Receive a message for `pid`; with an empty mailbox and a nonzero timeout the process is marked blocked. -/
def blockingReceive (s : Scheduler) (pid timeoutTicks : Nat) : Scheduler × Option Message :=
  match s.getProcess pid with
  | none => (s, none)
  | some p =>
    match p.mailbox.receive with
    | (_, some msg) =>
      ((s.update pid fun p => { p with mailbox := p.mailbox.receive.1, waitingFor := none }).log .receive
        msg.sender pid, some msg)
    | (_, none) =>
      if timeoutTicks = 0 then (s, none)
      else
        let deadline := if timeoutTicks = u64Max then u64Max else saturatingAdd s.tick timeoutTicks
        ((s.update pid fun p => { p with state := .blocked, blockedDeadline := deadline }).log .block 0 pid, none)

/-- Remove a process; the second component are the frames its record owned. -/
def terminateProcess (s : Scheduler) (pid : Nat) : Scheduler × List Word :=
  let s := s.log .terminate 0 pid
  ({ s with
     processTable := (s.processTable.terminateProcess pid).1
     currentProcess := if s.currentProcess = some pid then none else s.currentProcess },
    (s.processTable.terminateProcess pid).2)

/-- A notification reaches a mailbox; a blocked receiver becomes ready. -/
def deliverNotification (word : Word) (p : Pcb) : Pcb :=
  let q := { p with mailbox := p.mailbox.notify word }
  if q.state = .blocked then ProcessTable.unblocked q else q

@[simp] theorem deliverNotification_pid (word : Word) (p : Pcb) : (deliverNotification word p).pid = p.pid := by
  unfold deliverNotification; simp only; split <;> rfl

theorem deliverNotification_state (word : Word) (p : Pcb) :
    (deliverNotification word p).state = if p.state = .blocked then .ready else p.state := by
  unfold deliverNotification; simp only; split <;> rfl

def notifyProcess (s : Scheduler) (toPid : Nat) (word : Word) : Scheduler × Bool :=
  match s.getProcess toPid with
  | none => (s, false)
  | some _ => ((s.update toPid (deliverNotification word) (deliverNotification_pid word)).log .unblock 0 toPid, true)

def detectDeadlock (s : Scheduler) (waiter target : Nat) : Bool := s.processTable.detectCycle waiter target

/-! ### Quotas and capabilities -/

def checkMemoryQuota (s : Scheduler) (pid : Nat) : Bool :=
  match s.getProcess pid with
  | none => true
  | some p => decide (p.memoryQuotaPages = 0) || decide (p.memoryPagesUsed < p.memoryQuotaPages)

def useMemoryPage (s : Scheduler) (pid : Nat) : Scheduler :=
  s.update pid fun p => { p with memoryPagesUsed := min (p.memoryPagesUsed + 1) (2 ^ 32 - 1) }

def getProcessPml4 (s : Scheduler) (pid : Nat) : Option Word := (s.getProcess pid).map Pcb.pageTableBase

def capAlloc (s : Scheduler) (pid : Nat) (cap : Capability) : Scheduler × Option Nat :=
  ({ s with processTable := (s.processTable.capAlloc pid cap).1 }, (s.processTable.capAlloc pid cap).2)

def capGrant (s : Scheduler) (fromPid slotIdx toPid : Nat) : Scheduler × Option Nat :=
  ({ s with processTable := (s.processTable.capGrant fromPid slotIdx toPid).1 },
    (s.processTable.capGrant fromPid slotIdx toPid).2)

def capRevoke (s : Scheduler) (pid slotIdx : Nat) : Scheduler :=
  { s with processTable := s.processTable.capRevoke pid slotIdx }

/-- The capability in a slot of `pid`'s table, if the slot is not empty. -/
def capSlotInfo (s : Scheduler) (pid slotIdx : Nat) : Option Capability :=
  if h : slotIdx < capTableSize then
    match s.getProcess pid with
    | none => none
    | some p => if p.capTable[slotIdx].isEmpty then none else some p.capTable[slotIdx]
  else none

def capSlotRights (s : Scheduler) (pid slotIdx : Nat) : Option (BitVec 8) :=
  (s.capSlotInfo pid slotIdx).map Capability.rights

end Scheduler

end Rost
