import Rost.Scheduler.RoundRobin

/-!
# The scheduler as a state machine

The operations of the scheduler as the steps of one machine, and the facts about single operations that the invariants
rest on: what an operation does to the record of each process, and which process may be selected.
-/

namespace Rost

open Lib (SlotTable)

namespace Scheduler

/-- An operation of the scheduler with its arguments. -/
inductive Op where
  | addProcess (pageTableBase : Word)
  | addRing3Process (pageTableBase : Word)
  | registerUserFrames (pid : Nat) (frames : List Word)
  | appendUserFrames (pid : Nat) (frames : List Word)
  | setPriority (pid priority : Nat)
  | setRealtime (pid periodTicks : Nat)
  | setQuotas (pid memoryQuotaPages cpuBudgetTicks ipcRateLimit : Nat)
  | setCurrent (pid : Nat)
  | schedule
  | timerTick
  | forceScheduleNext
  | prepareBlockSwitch (blockedPid : Nat)
  | rescheduleIsr
  | yieldCurrent
  | yieldSwitch
  | sendMessage (fromPid toPid : Nat) (msg : Message)
  | blockingReceive (pid timeoutTicks : Nat)
  | terminateProcess (pid : Nat)
  | notifyProcess (toPid : Nat) (word : Word)
  | useMemoryPage (pid : Nat)
  | capAlloc (pid : Nat) (cap : Capability)
  | capGrant (fromPid slotIdx toPid : Nat)
  | capRevoke (pid slotIdx : Nat)

/-- What an operation returns. -/
inductive Ret where
  | unit
  | pid (pid : Option Nat)
  | switch (switch : Option Switch)
  | sent (accepted : Bool)
  | received (msg : Option Message)
  | frames (frames : List Word)
  | slot (slotIdx : Option Nat)

/-- One operation; `none` when the kernel panics. -/
def step (s : Scheduler) : Op → Option (Scheduler × Ret)
  | .addProcess base => (s.addProcess base).map fun (s, r) => (s, .pid r)
  | .addRing3Process base => (s.addRing3Process base).map fun (s, r) => (s, .pid r)
  | .registerUserFrames pid frames => some (s.registerUserFrames pid frames, .unit)
  | .appendUserFrames pid frames => some (s.appendUserFrames pid frames, .unit)
  | .setPriority pid priority => some (s.setPriority pid priority, .unit)
  | .setRealtime pid periodTicks => some (s.setRealtime pid periodTicks, .unit)
  | .setQuotas pid mem cpu ipc => some (s.setQuotas pid mem cpu ipc, .unit)
  | .setCurrent pid => some (s.setCurrent pid, .unit)
  | .schedule => some (s.schedule.1, .pid s.schedule.2)
  | .timerTick => some (s.timerTick.1, .switch s.timerTick.2)
  | .forceScheduleNext => some (s.forceScheduleNext.1, .switch s.forceScheduleNext.2)
  | .prepareBlockSwitch pid => some ((s.prepareBlockSwitch pid).1, .switch (s.prepareBlockSwitch pid).2)
  | .rescheduleIsr => some (s.rescheduleIsr.1, .switch s.rescheduleIsr.2)
  | .yieldCurrent => some (s.yieldCurrent, .unit)
  | .yieldSwitch => some (s.yieldSwitch.1, .switch s.yieldSwitch.2)
  | .sendMessage fromPid toPid msg =>
    some ((s.sendMessage fromPid toPid msg).1, .sent (s.sendMessage fromPid toPid msg).2)
  | .blockingReceive pid t => some ((s.blockingReceive pid t).1, .received (s.blockingReceive pid t).2)
  | .terminateProcess pid => some ((s.terminateProcess pid).1, .frames (s.terminateProcess pid).2)
  | .notifyProcess toPid word => some ((s.notifyProcess toPid word).1, .sent (s.notifyProcess toPid word).2)
  | .useMemoryPage pid => some (s.useMemoryPage pid, .unit)
  | .capAlloc pid cap => some ((s.capAlloc pid cap).1, .slot (s.capAlloc pid cap).2)
  | .capGrant fromPid slotIdx toPid =>
    some ((s.capGrant fromPid slotIdx toPid).1, .slot (s.capGrant fromPid slotIdx toPid).2)
  | .capRevoke pid slotIdx => some (s.capRevoke pid slotIdx, .unit)

/-! ### Records after an operation -/

theorem getProcess_new (b pid : Nat) : (new b).getProcess pid = none := ProcessTable.getProcess_new b pid

@[simp] theorem getProcess_update (s : Scheduler) (pid : Nat) (f : Pcb → Pcb) (hf : ∀ p, (f p).pid = p.pid) (q : Nat) :
    (s.update pid f hf).getProcess q = if q = pid then (s.getProcess q).map f else s.getProcess q :=
  ProcessTable.getProcess_update s.processTable pid f hf q

/-- Without a record nothing is changed. -/
theorem update_of_none {s : Scheduler} {pid : Nat} (h : s.getProcess pid = none) (f : Pcb → Pcb)
    (hf : ∀ p, (f p).pid = p.pid) : s.update pid f hf = s := by
  unfold update ProcessTable.update
  simp only [SlotTable.update_of_find?_eq_none h f hf]

@[simp] theorem currentProcess_update (s : Scheduler) (pid : Nat) (f : Pcb → Pcb) (hf : ∀ p, (f p).pid = p.pid) :
    (s.update pid f hf).currentProcess = s.currentProcess := rfl

@[simp] theorem tick_update (s : Scheduler) (pid : Nat) (f : Pcb → Pcb) (hf : ∀ p, (f p).pid = p.pid) :
    (s.update pid f hf).tick = s.tick := rfl

@[simp] theorem getProcess_log (s : Scheduler) (k : AuditKind) (a b q : Nat) :
    (s.log k a b).getProcess q = s.getProcess q := rfl

@[simp] theorem currentProcess_log (s : Scheduler) (k : AuditKind) (a b : Nat) :
    (s.log k a b).currentProcess = s.currentProcess := rfl

@[simp] theorem tick_log (s : Scheduler) (k : AuditKind) (a b : Nat) : (s.log k a b).tick = s.tick := rfl

@[simp] theorem getProcess_withCurrent (s : Scheduler) (c : Option Nat) (q : Nat) :
    ({ s with currentProcess := c } : Scheduler).getProcess q = s.getProcess q := rfl

theorem getProcess_terminateProcess (s : Scheduler) (pid q : Nat) :
    (s.terminateProcess pid).1.getProcess q = if q = pid then none else s.getProcess q :=
  ProcessTable.getProcess_terminateProcess s.processTable pid q

/-- Entering `next` marks it running and makes it the current process. -/
theorem getProcess_enter (s : Scheduler) (old : Option Nat) (next q : Nat) :
    (s.enter old next).1.getProcess q =
      if q = next then (s.getProcess q).map fun p => { p with state := .running } else s.getProcess q := by
  unfold enter
  simp only [getProcess_update, getProcess_withCurrent]

@[simp] theorem currentProcess_enter (s : Scheduler) (old : Option Nat) (next : Nat) :
    (s.enter old next).1.currentProcess = some next := rfl

@[simp] theorem tick_enter (s : Scheduler) (old : Option Nat) (next : Nat) : (s.enter old next).1.tick = s.tick := rfl

/-- Selection changes the round-robin index only. -/
theorem pickNextPriority_fst (s : Scheduler) : ∃ i, s.pickNextPriority.1 = { s with queueIndex := i } := by
  unfold pickNextPriority
  split
  · exact ⟨s.queueIndex, rfl⟩
  · split
    · exact ⟨s.queueIndex, rfl⟩
    · simp only
      split
      · exact ⟨s.queueIndex, rfl⟩
      · exact ⟨_, rfl⟩

/-! ### Selection -/

theorem mem_getReadyWithPriority {t : ProcessTable} {c : Nat × Nat} (h : c ∈ t.getReadyWithPriority) :
    ∃ p, t.getProcess c.1 = some p ∧ p.isRunnable = true ∧ p.priority = c.2 := by
  unfold ProcessTable.getReadyWithPriority at h
  obtain ⟨p, hp, rfl⟩ := List.mem_map.1 h
  obtain ⟨hlive, hrun⟩ := List.mem_filter.1 hp
  exact ⟨p, ProcessTable.mem_live_iff.1 hlive, hrun, rfl⟩

theorem mem_getReadyRealtime {t : ProcessTable} {c : Nat × Nat} (h : c ∈ t.getReadyRealtime) :
    ∃ p, t.getProcess c.1 = some p ∧ p.isRunnable = true ∧ 0 < p.rtPeriod ∧ p.rtDeadline = c.2 := by
  unfold ProcessTable.getReadyRealtime at h
  obtain ⟨p, hp, rfl⟩ := List.mem_map.1 h
  obtain ⟨hlive, hsel⟩ := List.mem_filter.1 hp
  obtain ⟨hrun, hrt⟩ := Bool.and_eq_true_iff.1 hsel
  exact ⟨p, ProcessTable.mem_live_iff.1 hlive, hrun, of_decide_eq_true hrt, rfl⟩

private theorem minByDeadline_mem {l : List (Nat × Nat)} {a : Nat × Nat} (h : minByDeadline l = some a) : a ∈ l := by
  induction l with
  | nil => cases h
  | cons b l ih =>
    unfold minByDeadline at h
    cases hl : minByDeadline l with
    | none =>
      rw [hl] at h
      rw [Option.some.inj h]; exact List.mem_cons_self
    | some c =>
      rw [hl] at h
      by_cases hbc : b.2 ≤ c.2
      · simp only [hbc, if_true, Option.some.injEq] at h
        rw [h]; exact List.mem_cons_self
      · simp only [hbc, if_false, Option.some.injEq] at h
        subst h
        exact List.mem_cons_of_mem _ (ih hl)

private theorem mem_atMinPrio {t : ProcessTable} {pid : Nat} (h : pid ∈ atMinPrio t) :
    ∃ c ∈ t.getReadyWithPriority, c.1 = pid := by
  unfold atMinPrio at h
  simp only at h
  split at h
  · cases h
  · obtain ⟨c, hc, rfl⟩ := List.mem_map.1 h
    exact ⟨c, (List.mem_filter.1 hc).1, rfl⟩

/-- Only a ready or running process is selected. -/
theorem pickNextPriority_runnable {s : Scheduler} {next : Nat} (h : s.pickNextPriority.2 = some next) :
    ∃ p, s.getProcess next = some p ∧ p.isRunnable = true := by
  unfold pickNextPriority at h
  split at h
  · cases h
  · split at h
    · obtain ⟨c, hc, rfl⟩ := Option.map_eq_some_iff.1 h
      obtain ⟨p, hp, hrun, -⟩ := mem_getReadyRealtime (minByDeadline_mem hc)
      exact ⟨p, hp, hrun⟩
    · simp only at h
      split at h
      · cases h
      · obtain ⟨c, hc, rfl⟩ := mem_atMinPrio (List.mem_of_getElem? h)
        obtain ⟨p, hp, hrun, -⟩ := mem_getReadyWithPriority hc
        exact ⟨p, hp, hrun⟩

/-! ### Creation -/

private theorem add_cases {s s' : Scheduler} {r : Option Nat} {mk : Nat → Nat → Nat → Pcb}
    {hmk : ∀ p i k, (mk p i k).pid = p}
    (h : (s.processTable.createWith mk hmk).map (fun (t, r) => ({ s with processTable := t }, r)) = some (s', r)) :
    s'.currentProcess = s.currentProcess ∧ s'.tick = s.tick ∧
    ((r = none ∧ s'.processTable.nextPid = s.processTable.nextPid ∧ ∀ q, s'.getProcess q = s.getProcess q) ∨
     (r = some s.processTable.nextPid ∧ s'.processTable.nextPid = s.processTable.nextPid + 1 ∧
       s.getProcess s.processTable.nextPid = none ∧ ∃ i k, ∀ q,
       s'.getProcess q = if q = s.processTable.nextPid then some (mk s.processTable.nextPid i k)
         else s.getProcess q)) := by
  obtain ⟨⟨t, r'⟩, ht, heq⟩ := Option.map_eq_some_iff.1 h
  simp only [Prod.mk.injEq] at heq
  obtain ⟨rfl, rfl⟩ := heq
  refine ⟨rfl, rfl, ?_⟩
  rcases ProcessTable.createWith_cases ht with h | ⟨hr, hnext, hnone, i, k, hget⟩
  · exact Or.inl h
  · exact Or.inr ⟨hr, hnext, hnone, i, k, hget⟩

/-- Adding a process either changes no record, or adds a fresh one under a new pid. -/
def Adds (base : Word) (s s' : Scheduler) (r : Option Nat) : Prop :=
  s'.currentProcess = s.currentProcess ∧ s'.tick = s.tick ∧
  ((r = none ∧ s'.processTable.nextPid = s.processTable.nextPid ∧ ∀ q, s'.getProcess q = s.getProcess q) ∨
   (r = some s.processTable.nextPid ∧ s'.processTable.nextPid = s.processTable.nextPid + 1 ∧
     s.getProcess s.processTable.nextPid = none ∧ ∃ id rsp, ∀ q,
     s'.getProcess q = if q = s.processTable.nextPid then some (Pcb.fresh s.processTable.nextPid id rsp base)
       else s.getProcess q))

theorem addProcess_adds {s s' : Scheduler} {base : Word} {r : Option Nat} (h : s.addProcess base = some (s', r)) :
    Adds base s s' r := by
  obtain ⟨hcur, htick, hcases⟩ := add_cases h
  refine ⟨hcur, htick, ?_⟩
  rcases hcases with h | ⟨hr, hnext, hnone, i, k, hget⟩
  · exact Or.inl h
  · exact Or.inr ⟨hr, hnext, hnone, i, k - 8, hget⟩

theorem addRing3Process_adds {s s' : Scheduler} {base : Word} {r : Option Nat}
    (h : s.addRing3Process base = some (s', r)) : Adds base s s' r := by
  obtain ⟨hcur, htick, hcases⟩ := add_cases h
  refine ⟨hcur, htick, ?_⟩
  rcases hcases with h | ⟨hr, hnext, hnone, i, k, hget⟩
  · exact Or.inl h
  · exact Or.inr ⟨hr, hnext, hnone, i, k, hget⟩

/-- The kernel panics only when the pid counter overflows. -/
theorem addRing3Process_ne_none {s : Scheduler} (h : s.processTable.nextPid + 1 < 2 ^ 32) (base : Word) :
    s.addRing3Process base ≠ none := by
  unfold addRing3Process ProcessTable.createRing3Process ProcessTable.createWith
  rw [ne_eq, Option.map_eq_none_iff]
  split
  · split
    · simp
    · simp
  · simp

/-- The record of a new ring-3 process. -/
theorem addRing3Process_record {s s' : Scheduler} {base : Word} {pid : Nat}
    (h : s.addRing3Process base = some (s', some pid)) :
    ∃ id rsp, s'.getProcess pid = some (Pcb.fresh pid id rsp base) := by
  obtain ⟨-, -, ⟨hr, -⟩ | ⟨hr, -, -, id, rsp, hget⟩⟩ := addRing3Process_adds h
  · cases hr
  · cases hr
    exact ⟨id, rsp, by rw [hget, if_pos rfl]⟩

/-! ### Operations that leave scheduling and messages alone -/

/-- The part of a record that scheduling, accounting and message passing change. -/
structure Activity where
  state : ProcessState
  mailbox : MessageQueue
  waitingFor : Option Nat
  blockedDeadline : Nat
  cpuTime : Nat
  timeSlice : Nat
  totalCpuTicks : Nat
  cpuBudgetTicks : Nat
  cpuBudgetUsed : Nat

def activity (p : Pcb) : Activity :=
  ⟨p.state, p.mailbox, p.waitingFor, p.blockedDeadline, p.cpuTime, p.timeSlice, p.totalCpuTicks, p.cpuBudgetTicks,
    p.cpuBudgetUsed⟩

/-- The operations on frames, priorities and capabilities. -/
def Op.isQuiet : Op → Bool
  | .registerUserFrames .. | .appendUserFrames .. | .setPriority .. | .setRealtime ..
  | .useMemoryPage .. | .capAlloc .. | .capGrant .. | .capRevoke .. => true
  | _ => false

/-- A change of the process table that leaves the activity of every process alone. -/
structure Quiet (s s' : Scheduler) : Prop where
  currentProcess : s'.currentProcess = s.currentProcess
  tick : s'.tick = s.tick
  nextPid : s'.processTable.nextPid = s.processTable.nextPid
  activity : ∀ q, (s'.getProcess q).map activity = (s.getProcess q).map activity

private theorem Quiet.refl (s : Scheduler) : Quiet s s := ⟨rfl, rfl, rfl, fun _ => rfl⟩

private theorem quiet_update (s : Scheduler) (pid : Nat) {f : Pcb → Pcb} {hf : ∀ p, (f p).pid = p.pid}
    (h : ∀ p, activity (f p) = activity p) : Quiet s (s.update pid f hf) := by
  refine ⟨rfl, rfl, rfl, fun q => ?_⟩
  rw [getProcess_update]
  split
  · rw [Option.map_map]
    congr 1
    funext p
    exact h p
  · rfl

private theorem activity_foldl_addUserFrame (frames : List Word) (p : Pcb) :
    activity (frames.foldl Pcb.addUserFrame p) = activity p := by
  rw [Pcb.foldl_addUserFrame]
  rfl

private theorem quiet_capAlloc (s : Scheduler) (pid : Nat) (cap : Capability) : Quiet s (s.capAlloc pid cap).1 := by
  unfold capAlloc ProcessTable.capAlloc
  split
  · exact Quiet.refl s
  · split
    · exact Quiet.refl s
    · exact quiet_update s pid (fun _ => rfl)

private theorem quiet_capGrant (s : Scheduler) (fromPid slotIdx toPid : Nat) :
    Quiet s (s.capGrant fromPid slotIdx toPid).1 := by
  unfold capGrant ProcessTable.capGrant
  split
  · split
    · exact Quiet.refl s
    · simp only
      split
      · exact Quiet.refl s
      · split
        · exact Quiet.refl s
        · exact quiet_capAlloc s toPid _
  · exact Quiet.refl s

private theorem quiet_capRevoke (s : Scheduler) (pid slotIdx : Nat) : Quiet s (s.capRevoke pid slotIdx) := by
  unfold capRevoke ProcessTable.capRevoke
  split
  · exact quiet_update s pid (fun _ => rfl)
  · exact Quiet.refl s

theorem quiet_of_isQuiet {s s' : Scheduler} {op : Op} {r : Ret} (hop : op.isQuiet = true)
    (h : s.step op = some (s', r)) : Quiet s s' := by
  cases op <;> first | (cases hop; done) | skip
  all_goals
    simp only [step, Option.some.injEq, Prod.mk.injEq] at h
    obtain ⟨rfl, -⟩ := h
  case registerUserFrames pid frames =>
    exact quiet_update s pid (fun p => activity_foldl_addUserFrame frames p)
  case appendUserFrames pid frames => exact quiet_update s pid (activity_foldl_addUserFrame frames)
  case setPriority pid _ => exact quiet_update s pid (fun _ => rfl)
  case setRealtime pid _ => exact quiet_update s pid (fun _ => rfl)
  case useMemoryPage pid => exact quiet_update s pid (fun _ => rfl)
  case capAlloc pid cap => exact quiet_capAlloc s pid cap
  case capGrant fromPid slotIdx toPid => exact quiet_capGrant s fromPid slotIdx toPid
  case capRevoke pid slotIdx => exact quiet_capRevoke s pid slotIdx

/-! ### Context switches -/

/-- The ways a switching operation ends once a process has been selected from `s`: nobody is entered, the selected
process is entered, or, when the current process is gone, it only becomes current. -/
inductive Switches (s : Scheduler) : Scheduler → Prop
  | stay (i : Nat) : Switches s { s with queueIndex := i }
  | enter (i : Nat) (old : Option Nat) (next : Nat) (hpick : s.pickNextPriority.2 = some next) :
      Switches s (({ s with queueIndex := i } : Scheduler).enter old next).1
  | point (i next : Nat) (hpick : s.pickNextPriority.2 = some next)
      (hgone : s.currentProcess.bind s.getProcess = none) :
      Switches s { s with queueIndex := i, currentProcess := some next }

theorem pick_eq (s : Scheduler) :
    ∃ i, s.pickNextPriority = ({ s with queueIndex := i }, s.pickNextPriority.2) := by
  obtain ⟨i, hi⟩ := s.pickNextPriority_fst
  exact ⟨i, Prod.ext hi rfl⟩

theorem forceScheduleNext_switches (s : Scheduler) : Switches s s.forceScheduleNext.1 := by
  obtain ⟨i, hi⟩ := s.pick_eq
  unfold forceScheduleNext
  rw [hi]
  cases hp : s.pickNextPriority.2 with
  | none => exact Switches.stay i
  | some next => exact Switches.enter i none next hp

theorem prepareBlockSwitch_switches (s : Scheduler) (pid : Nat) : Switches s (s.prepareBlockSwitch pid).1 := by
  obtain ⟨i, hi⟩ := s.pick_eq
  unfold prepareBlockSwitch
  rw [hi]
  cases hp : s.pickNextPriority.2 with
  | none => exact Switches.stay i
  | some next =>
    simp only
    split
    · exact Switches.stay i
    · exact Switches.enter i (some pid) next hp

/-- What `advance_tick` does to one record. -/
def refresh (tick : Nat) (p : Pcb) : Pcb :=
  let p := ProcessTable.checkDeadline tick p
  let p := if tick % 100 = 0 then { p with ipcRateUsed := 0 } else p
  if tick % cpuBudgetFrameTicks = 0 then { p with cpuBudgetUsed := 0 } else p

theorem getProcess_advanceTick (s : Scheduler) (q : Nat) :
    s.advanceTick.getProcess q = (s.getProcess q).map (refresh (wrapAdd 64 s.tick 1)) := by
  unfold advanceTick getProcess refresh
  simp only [ProcessTable.checkDeadlines, ProcessTable.resetIpcRateCounters, ProcessTable.resetCpuBudgetCounters]
  cases hq : s.processTable.getProcess q <;> split <;> split <;>
    simp [ProcessTable.getProcess_mapAll, hq]

@[simp] theorem currentProcess_advanceTick (s : Scheduler) : s.advanceTick.currentProcess = s.currentProcess := rfl

@[simp] theorem tick_advanceTick (s : Scheduler) : s.advanceTick.tick = wrapAdd 64 s.tick 1 := rfl

/-- The state after a tick has been charged to the current process, and whether that process is preempted. -/
theorem chargeCurrent_cases (s : Scheduler) :
    (s.currentProcess.bind s.getProcess = none ∧ s.chargeCurrent = (s, false)) ∨
    (∃ cpid p, s.currentProcess = some cpid ∧ s.getProcess cpid = some p ∧
      ((quantumOver (charge p) = false ∧ s.chargeCurrent = (s.update cpid charge charge_pid, false)) ∨
       (quantumOver (charge p) = true ∧
          s.chargeCurrent = (s.update cpid (preempt s.tick) (preempt_pid s.tick), true)))) := by
  unfold chargeCurrent
  cases hc : s.currentProcess with
  | none => exact Or.inl ⟨rfl, rfl⟩
  | some cpid =>
    simp only [Option.bind_some]
    cases hp : s.getProcess cpid with
    | none => exact Or.inl ⟨rfl, rfl⟩
    | some p =>
      refine Or.inr ⟨cpid, p, rfl, hp, ?_⟩
      cases hover : quantumOver (charge p) with
      | false => exact Or.inl ⟨rfl, by simp [hover]⟩
      | true => exact Or.inr ⟨rfl, by simp [hover]⟩

/-- A tick ends with its accounting, unless the current process is preempted: then a selection follows. -/
theorem timerTick_cases (s : Scheduler) :
    (s.advanceTick.chargeCurrent.2 = false ∧ s.timerTick.1 = s.advanceTick.chargeCurrent.1) ∨
    (s.advanceTick.chargeCurrent.2 = true ∧
      ((s.advanceTick.chargeCurrent.1.pickNextPriority.2 = none ∧
          ∃ i, s.timerTick.1 = { s.advanceTick.chargeCurrent.1 with queueIndex := i }) ∨
       (∃ i old next, s.advanceTick.chargeCurrent.1.pickNextPriority.2 = some next ∧
          s.timerTick.1 =
            (({ s.advanceTick.chargeCurrent.1 with queueIndex := i } : Scheduler).enter old next).1))) := by
  unfold timerTick
  generalize s.advanceTick.chargeCurrent = out
  obtain ⟨s₂, flag⟩ := out
  cases flag with
  | false => exact Or.inl ⟨rfl, rfl⟩
  | true =>
    refine Or.inr ⟨rfl, ?_⟩
    obtain ⟨i, hi⟩ := s₂.pick_eq
    simp only
    rw [hi]
    cases hpick : s₂.pickNextPriority.2 with
    | none => exact Or.inl ⟨rfl, i, rfl⟩
    | some next =>
      refine Or.inr ?_
      simp only
      split
      · exact ⟨i, none, next, rfl, rfl⟩
      · split
        · exact ⟨i, s₂.currentProcess, next, rfl, rfl⟩
        · exact ⟨i, s₂.currentProcess, next, rfl, rfl⟩

theorem timerTick_switches {s : Scheduler} (h : s.advanceTick.chargeCurrent.2 = true) :
    Switches s.advanceTick.chargeCurrent.1 s.timerTick.1 := by
  rcases s.timerTick_cases with ⟨hf, -⟩ | ⟨-, ⟨-, i, heq⟩ | ⟨i, old, next, hpick, heq⟩⟩
  · rw [h] at hf; cases hf
  · rw [heq]; exact Switches.stay i
  · rw [heq]; exact Switches.enter i old next hpick

/-- A yield first makes the current process ready, then switches. -/
theorem yieldSwitch_cases (s : Scheduler) :
    (s.currentProcess = none ∧ s.yieldSwitch.1 = s) ∨
    (∃ cpid, s.currentProcess = some cpid ∧
      Switches (s.update cpid (fun p => demote { p with cpuTime := 0 }) (fun _ => demote_pid _)) s.yieldSwitch.1) := by
  unfold yieldSwitch
  cases hc : s.currentProcess with
  | none => exact Or.inl ⟨rfl, rfl⟩
  | some cpid =>
    refine Or.inr ⟨cpid, rfl, ?_⟩
    simp only
    generalize hs₂ : s.update cpid (fun p => demote { p with cpuTime := 0 }) _ = s₂
    have hcur : s₂.currentProcess = some cpid := by rw [← hs₂]; exact hc
    obtain ⟨i, hi⟩ := s₂.pick_eq
    rw [hi]
    cases hpick : s₂.pickNextPriority.2 with
    | none => exact Switches.stay i
    | some next =>
      simp only
      split
      · rename_i hn
        subst hn
        have h := Switches.enter (s := s₂) i none next hpick
        unfold enter at h
        rw [← hcur] at h
        exact h
      · split
        · rename_i hgone
          exact Switches.point i next hpick (by rw [hcur]; exact hgone)
        · exact Switches.enter i _ next hpick

/-- A reschedule changes no record, or makes the current process ready and enters the selected one. -/
theorem rescheduleIsr_cases (s : Scheduler) :
    (∃ i, s.rescheduleIsr.1 = { s with queueIndex := i }) ∨
    (∃ i next, s.pickNextPriority.2 = some next ∧ s.currentProcess.bind s.getProcess = none ∧
      s.rescheduleIsr.1 = { s with queueIndex := i, currentProcess := some next }) ∨
    (∃ cpid next i, s.currentProcess = some cpid ∧ s.pickNextPriority.2 = some next ∧ next ≠ cpid ∧
      s.rescheduleIsr.1 =
        ((({ s with queueIndex := i } : Scheduler).update cpid demote demote_pid).enter (some cpid) next).1) := by
  unfold rescheduleIsr
  obtain ⟨i, hi⟩ := s.pick_eq
  simp only
  rw [hi]
  cases hpick : s.pickNextPriority.2 with
  | none => exact Or.inl ⟨i, rfl⟩
  | some next =>
    simp only
    split
    · exact Or.inl ⟨i, rfl⟩
    · rename_i hne
      cases hc : s.currentProcess with
      | none => exact Or.inr (Or.inl ⟨i, next, rfl, rfl, rfl⟩)
      | some cpid =>
        simp only
        split
        · rename_i hgone
          exact Or.inr (Or.inl ⟨i, next, rfl, hgone, rfl⟩)
        · refine Or.inr (Or.inr ⟨cpid, next, i, rfl, rfl, ?_, rfl⟩)
          intro h
          exact hne (Or.inr (by rw [h, hc]))

/-! ### Message passing -/

/-- A send is refused without effect (no target, or the sender is rate-limited), refused by a full mailbox, or the
stamped message is appended to the mailbox. -/
theorem sendMessage_cases (s : Scheduler) (fromPid toPid : Nat) (msg : Message) :
    ((s.getProcess toPid = none ∨ (s.getProcess fromPid).any rateLimited = true) ∧
      s.sendMessage fromPid toPid msg = (s, false)) ∨
    (∃ p, s.getProcess toPid = some p ∧ (s.getProcess fromPid).any rateLimited = false ∧
      ((p.mailbox.contents.length = queueCapacity ∧
          s.sendMessage fromPid toPid msg = (s.update fromPid (chargeSend toPid) (chargeSend_pid toPid), false)) ∨
       (p.mailbox.contents.length < queueCapacity ∧
          s.sendMessage fromPid toPid msg =
            (((s.update fromPid (chargeSend toPid) (chargeSend_pid toPid)).update toPid
              (deliver { msg with sender := fromPid }) (deliver_pid _)).log .send fromPid toPid, true)))) := by
  unfold sendMessage
  cases hto : s.getProcess toPid with
  | none => exact Or.inl ⟨Or.inl rfl, rfl⟩
  | some p =>
    simp only
    split
    · rename_i hlim
      exact Or.inl ⟨Or.inr hlim, rfl⟩
    · rename_i hlim
      refine Or.inr ⟨p, rfl, by simpa using hlim, ?_⟩
      obtain ⟨p', hp', hbox⟩ :
          ∃ p', (s.update fromPid (chargeSend toPid) (chargeSend_pid toPid)).getProcess toPid = some p' ∧
            p'.mailbox = p.mailbox := by
        rw [getProcess_update, hto]
        split
        · exact ⟨_, rfl, rfl⟩
        · exact ⟨p, rfl, rfl⟩
      rw [hp']
      simp only [hbox]
      rcases Nat.lt_or_ge p.mailbox.contents.length queueCapacity with hlt | hge
      · rw [(MessageQueue.contents_send hlt).1]
        exact Or.inr ⟨hlt, rfl⟩
      · have hfull : p.mailbox.contents.length = queueCapacity :=
          Nat.le_antisymm p.mailbox.length_contents_le hge
        rw [MessageQueue.send_of_full hfull]
        exact Or.inl ⟨hfull, rfl⟩

/-- A receive finds no process, takes the oldest message, polls an empty mailbox, or blocks on it. -/
theorem blockingReceive_cases (s : Scheduler) (pid timeoutTicks : Nat) :
    (s.getProcess pid = none ∧ s.blockingReceive pid timeoutTicks = (s, none)) ∨
    (∃ p, s.getProcess pid = some p ∧
      ((∃ msg rest, p.mailbox.contents = msg :: rest ∧
          s.blockingReceive pid timeoutTicks =
            ((s.update pid fun p => { p with mailbox := p.mailbox.receive.1, waitingFor := none }).log .receive
              msg.sender pid, some msg)) ∨
       (p.mailbox.contents = [] ∧ timeoutTicks = 0 ∧ s.blockingReceive pid timeoutTicks = (s, none)) ∨
       (p.mailbox.contents = [] ∧ timeoutTicks ≠ 0 ∧
          s.blockingReceive pid timeoutTicks =
            ((s.update pid fun p =>
                { p with
                  state := .blocked
                  blockedDeadline :=
                    if timeoutTicks = u64Max then u64Max else saturatingAdd s.tick timeoutTicks }).log
              .block 0 pid, none)))) := by
  unfold blockingReceive
  cases hp : s.getProcess pid with
  | none => exact Or.inl ⟨rfl, rfl⟩
  | some p =>
    refine Or.inr ⟨p, rfl, ?_⟩
    obtain ⟨hmsg, -⟩ := p.mailbox.receive_eq
    have hpair : p.mailbox.receive = (p.mailbox.receive.1, p.mailbox.contents.head?) := Prod.ext rfl hmsg
    simp only
    rw [hpair]
    cases hbox : p.mailbox.contents with
    | nil =>
      by_cases ht : timeoutTicks = 0
      · exact Or.inr (Or.inl ⟨rfl, ht, if_pos ht⟩)
      · exact Or.inr (Or.inr ⟨rfl, ht, if_neg ht⟩)
    | cons msg rest => exact Or.inl ⟨msg, rest, rfl, rfl⟩

theorem notifyProcess_cases (s : Scheduler) (toPid : Nat) (word : Word) :
    (s.getProcess toPid = none ∧ s.notifyProcess toPid word = (s, false)) ∨
    (∃ p, s.getProcess toPid = some p ∧
      s.notifyProcess toPid word =
        ((s.update toPid (deliverNotification word) (deliverNotification_pid word)).log .unblock 0 toPid, true)) := by
  unfold notifyProcess
  cases hp : s.getProcess toPid with
  | none => exact Or.inl ⟨rfl, rfl⟩
  | some p => exact Or.inr ⟨p, rfl, rfl⟩

end Scheduler

end Rost
