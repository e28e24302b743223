import Rost.Scheduler.Step

/-!
# What an operation does to a record

`Touches` lists, for every operation of the scheduler, the ways in which it may change the record of a process, and
`record_step` shows that there are no others.  So a part of the record that none of them changes is kept by the
operation; the last section does this for the page table, the capabilities and the frames of a process.
-/

namespace Rost

namespace Scheduler

/-- A context switch changes the state and the used part of the quantum. -/
def SwitchChange (x x' : Pcb) : Prop := ∃ st ct, x' = { x with state := st, cpuTime := ct }

/-- A tick changes the state, the accounts and the deadlines. -/
def TickChange (x x' : Pcb) : Prop :=
  ∃ st ct total used rate rt dl wf,
    x' = { x with
      state := st, cpuTime := ct, totalCpuTicks := total, cpuBudgetUsed := used
      ipcRateUsed := rate, rtDeadline := rt, blockedDeadline := dl, waitingFor := wf }

/-- `cap` is put into an empty slot. -/
def TakesSlot (cap : Capability) (x x' : Pcb) : Prop :=
  ∃ i : Fin capTableSize, (x.capTable.get i).isEmpty = true ∧ x' = { x with capTable := x.capTable.set i.1 cap i.2 }

/-- The changes that operation `op` may make to the record of `q`. -/
def Touches (s : Scheduler) (op : Op) (q : Nat) (x x' : Pcb) : Prop :=
  match op with
  | .registerUserFrames pid frames => q = pid ∧ x' = { frames.foldl Pcb.addUserFrame x with pml4Owned := true }
  | .appendUserFrames pid frames => q = pid ∧ x' = frames.foldl Pcb.addUserFrame x
  | .setPriority pid priority => q = pid ∧ x' = { x with priority := priority }
  | .setRealtime pid _ => q = pid ∧ ∃ period deadline, x' = { x with rtPeriod := period, rtDeadline := deadline }
  | .setQuotas pid mem cpu ipc =>
    q = pid ∧ x' = { x with memoryQuotaPages := mem, cpuBudgetTicks := cpu, ipcRateLimit := ipc }
  | .timerTick => TickChange x x'
  | .forceScheduleNext | .prepareBlockSwitch _ | .rescheduleIsr | .yieldCurrent | .yieldSwitch => SwitchChange x x'
  | .sendMessage fromPid toPid msg =>
    (q = fromPid ∧ x' = chargeSend toPid x) ∨
    (q = toPid ∧ (s.getProcess fromPid).any rateLimited = false ∧ x.mailbox.contents.length < queueCapacity ∧
      (x' = deliver { msg with sender := fromPid } x ∨
       (q = fromPid ∧ x' = deliver { msg with sender := fromPid } (chargeSend toPid x))))
  | .blockingReceive pid _ =>
    q = pid ∧
    ((∃ msg rest, x.mailbox.contents = msg :: rest ∧
        x' = { x with mailbox := x.mailbox.receive.1, waitingFor := none }) ∨
     (x.mailbox.contents = [] ∧ ∃ dl, x' = { x with state := .blocked, blockedDeadline := dl }))
  | .notifyProcess toPid word => q = toPid ∧ x' = deliverNotification word x
  | .useMemoryPage pid => q = pid ∧ ∃ used, x' = { x with memoryPagesUsed := used }
  | .capAlloc pid cap => q = pid ∧ TakesSlot cap x x'
  | .capGrant fromPid slotIdx toPid =>
    q = toPid ∧ ∃ cap, s.capSlotInfo fromPid slotIdx = some cap ∧ cap.rights &&& capG ≠ 0 ∧ TakesSlot cap x x'
  | .capRevoke pid slotIdx => q = pid ∧ ∃ h : slotIdx < capTableSize,
      x' = { x with capTable := x.capTable.set slotIdx .empty h }
  | _ => False

/-- What becomes of the record of `q`: it is unchanged or changed in one of the listed ways, or it is new. -/
def RecordStep (s : Scheduler) (op : Op) (s' : Scheduler) : Prop :=
  ∀ q x', s'.getProcess q = some x' →
    (∃ x, s.getProcess q = some x ∧ (x' = x ∨ Touches s op q x x')) ∨
    (s.getProcess q = none ∧ q = s.processTable.nextPid ∧ ∃ id rsp base, x' = Pcb.fresh q id rsp base ∧
      (op = .addProcess base ∨ op = .addRing3Process base))

private theorem recordStep_same {s s' : Scheduler} {op : Op} (h : ∀ q, s'.getProcess q = s.getProcess q) :
    RecordStep s op s' := by
  intro q x' hx'
  rw [h] at hx'
  exact Or.inl ⟨x', hx', Or.inl rfl⟩

private theorem recordStep_update {s : Scheduler} {op : Op} {pid : Nat} {f : Pcb → Pcb} {hf : ∀ p, (f p).pid = p.pid}
    (h : ∀ x, s.getProcess pid = some x → Touches s op pid x (f x)) : RecordStep s op (s.update pid f hf) := by
  intro q x' hx'
  rw [getProcess_update] at hx'
  split at hx'
  · rename_i hq
    obtain ⟨x, hx, rfl⟩ := Option.map_eq_some_iff.1 hx'
    subst hq
    exact Or.inl ⟨x, hx, Or.inr (h x hx)⟩
  · exact Or.inl ⟨x', hx', Or.inl rfl⟩

private theorem recordStep_adds {s s' : Scheduler} {op : Op} {base : Word} {r : Option Nat} (h : Adds base s s' r)
    (hop : op = .addProcess base ∨ op = .addRing3Process base) : RecordStep s op s' := by
  intro q x' hx'
  obtain ⟨-, -, ⟨-, -, hsame⟩ | ⟨-, -, hnone, id, rsp, hget⟩⟩ := h
  · rw [hsame] at hx'
    exact Or.inl ⟨x', hx', Or.inl rfl⟩
  · rw [hget] at hx'
    split at hx'
    · rename_i hq
      cases hx'
      subst hq
      exact Or.inr ⟨hnone, rfl, id, rsp, base, rfl, hop⟩
    · exact Or.inl ⟨x', hx', Or.inl rfl⟩

/-! ### Context switches and ticks -/

private theorem switchChange_demote (x : Pcb) (ct : Nat) : SwitchChange x (demote { x with cpuTime := ct }) := by
  unfold demote
  split
  · exact ⟨.ready, ct, rfl⟩
  · exact ⟨x.state, ct, rfl⟩

private theorem SwitchChange.trans {x y z : Pcb} (h : SwitchChange x y) (h' : SwitchChange y z) :
    SwitchChange x z := by
  obtain ⟨st, ct, rfl⟩ := h
  obtain ⟨st', ct', rfl⟩ := h'
  exact ⟨st', ct', rfl⟩

/-- A record that is brought up to date at tick `tick`: only a process that waits is woken, and the counters are reset at
the end of their windows. -/
theorem refresh_eq (tick : Nat) (x : Pcb) : ∃ st dl wf, refresh tick x = { x with
    state := st
    blockedDeadline := dl
    waitingFor := wf
    ipcRateUsed := if tick % 100 = 0 then 0 else x.ipcRateUsed
    cpuBudgetUsed := if tick % cpuBudgetFrameTicks = 0 then 0 else x.cpuBudgetUsed } := by
  unfold refresh ProcessTable.checkDeadline ProcessTable.unblocked
  simp only
  split <;> split <;> split <;> exact ⟨_, _, _, rfl⟩

/-- A record at the end of its quantum is charged the tick, and a passed real-time deadline is moved by one period. -/
theorem preempt_eq (tick : Nat) (x : Pcb) : ∃ st, preempt tick x = { charge x with
    state := st
    cpuTime := 0
    rtDeadline := if 0 < x.rtPeriod ∧ x.rtDeadline ≤ tick then wrapAdd 64 x.rtDeadline x.rtPeriod else x.rtDeadline } := by
  obtain ⟨st, hdemote⟩ : ∃ st, demote { charge x with cpuTime := 0 } = { charge x with state := st, cpuTime := 0 } := by
    unfold demote
    split
    · exact ⟨.ready, rfl⟩
    · exact ⟨x.state, rfl⟩
  unfold preempt expire
  rw [hdemote]
  refine ⟨st, ?_⟩
  dsimp only [charge]
  split <;> rfl

private theorem TickChange.trans {x y z : Pcb} (h : TickChange x y) (h' : TickChange y z) : TickChange x z := by
  obtain ⟨st, ct, total, used, rate, rt, dl, wf, rfl⟩ := h
  obtain ⟨st', ct', total', used', rate', rt', dl', wf', rfl⟩ := h'
  exact ⟨st', ct', total', used', rate', rt', dl', wf', rfl⟩

private theorem tickChange_refresh (tick : Nat) (x : Pcb) : TickChange x (refresh tick x) := by
  obtain ⟨st, dl, wf, heq⟩ := refresh_eq tick x
  rw [heq]
  exact ⟨_, _, _, _, _, _, _, _, rfl⟩

private theorem tickChange_charge (x : Pcb) : TickChange x (charge x) := ⟨_, _, _, _, _, _, _, _, rfl⟩

private theorem tickChange_preempt (tick : Nat) (x : Pcb) : TickChange x (preempt tick x) := by
  obtain ⟨st, heq⟩ := preempt_eq tick x
  rw [heq]
  exact ⟨_, _, _, _, _, _, _, _, rfl⟩

/-- Every record is kept or changed by a context switch. -/
private def Switched (s s' : Scheduler) : Prop :=
  ∀ q x', s'.getProcess q = some x' → ∃ x, s.getProcess q = some x ∧ (x' = x ∨ SwitchChange x x')

private theorem switched_enter (s : Scheduler) (i : Nat) (old : Option Nat) (next : Nat) :
    Switched s (({ s with queueIndex := i } : Scheduler).enter old next).1 := by
  intro q x' hx'
  rw [getProcess_enter] at hx'
  split at hx'
  · obtain ⟨x, hx, rfl⟩ := Option.map_eq_some_iff.1 hx'
    exact ⟨x, hx, Or.inr ⟨.running, x.cpuTime, rfl⟩⟩
  · exact ⟨x', hx', Or.inl rfl⟩

private theorem switched_of_switches {s s' : Scheduler} (h : Switches s s') : Switched s s' := by
  cases h with
  | stay i => exact fun q x hx => ⟨x, hx, Or.inl rfl⟩
  | enter i old next _ => exact switched_enter s i old next
  | point i next _ _ => exact fun q x hx => ⟨x, hx, Or.inl rfl⟩

private theorem switched_demote (s : Scheduler) (pid : Nat) {f : Pcb → Pcb} {hf : ∀ p, (f p).pid = p.pid}
    (h : ∀ x, SwitchChange x (f x)) : Switched s (s.update pid f hf) := by
  intro q x' hx'
  rw [getProcess_update] at hx'
  split at hx'
  · obtain ⟨x, hx, rfl⟩ := Option.map_eq_some_iff.1 hx'
    exact ⟨x, hx, Or.inr (h x)⟩
  · exact ⟨x', hx', Or.inl rfl⟩

private theorem Switched.trans {s t u : Scheduler} (h : Switched s t) (h' : Switched t u) : Switched s u := by
  intro q z hz
  obtain ⟨y, hy, hzy⟩ := h' q z hz
  obtain ⟨x, hx, hyx⟩ := h q y hy
  refine ⟨x, hx, ?_⟩
  rcases hzy with rfl | hzy
  · exact hyx
  · rcases hyx with rfl | hyx
    · exact Or.inr hzy
    · exact Or.inr (hyx.trans hzy)

private theorem recordStep_switched {s s' : Scheduler} {op : Op} (h : Switched s s')
    (hop : ∀ q x x', SwitchChange x x' → Touches s op q x x') : RecordStep s op s' := by
  intro q x' hx'
  obtain ⟨x, hx, hxx'⟩ := h q x' hx'
  exact Or.inl ⟨x, hx, hxx'.imp_right (hop q x x')⟩

private theorem switched_rescheduleIsr (s : Scheduler) : Switched s s.rescheduleIsr.1 := by
  rcases s.rescheduleIsr_cases with ⟨i, heq⟩ | ⟨i, next, -, -, heq⟩ | ⟨cpid, next, i, -, -, -, heq⟩
  · rw [heq]; exact fun q x hx => ⟨x, hx, Or.inl rfl⟩
  · rw [heq]; exact fun q x hx => ⟨x, hx, Or.inl rfl⟩
  · rw [heq]
    exact (switched_demote s cpid (fun x => switchChange_demote x x.cpuTime)).trans
      (switched_enter (s.update cpid demote demote_pid) i (some cpid) next)

private theorem switched_yieldSwitch (s : Scheduler) : Switched s s.yieldSwitch.1 := by
  rcases s.yieldSwitch_cases with ⟨-, heq⟩ | ⟨c, -, hsw⟩
  · rw [heq]; exact fun q x hx => ⟨x, hx, Or.inl rfl⟩
  · exact (switched_demote s c (fun x => switchChange_demote x 0)).trans (switched_of_switches hsw)

private theorem switched_yieldCurrent (s : Scheduler) : Switched s s.yieldCurrent := by
  unfold yieldCurrent
  cases s.currentProcess with
  | none => exact fun q x hx => ⟨x, hx, Or.inl rfl⟩
  | some c => exact switched_demote s c (fun x => switchChange_demote x x.timeSlice)

/-- The record of `q` after a tick, but for its state. -/
def tickRecord (s : Scheduler) (q : Nat) (x : Pcb) : Pcb :=
  let y := refresh (wrapAdd 64 s.tick 1) x
  if s.currentProcess = some q then
    if quantumOver (charge y) then preempt (wrapAdd 64 s.tick 1) y else charge y
  else y

/-- A switch changes nothing but states. -/
theorem getProcess_switches {s s' : Scheduler} (h : Switches s s') {q : Nat} {x' : Pcb}
    (hx' : s'.getProcess q = some x') : ∃ x st, s.getProcess q = some x ∧ x' = { x with state := st } := by
  cases h with
  | stay i => exact ⟨x', x'.state, hx', rfl⟩
  | enter i old next _ =>
    rw [getProcess_enter] at hx'
    split at hx'
    · obtain ⟨x, hx, rfl⟩ := Option.map_eq_some_iff.1 hx'
      exact ⟨x, .running, hx, rfl⟩
    · exact ⟨x', x'.state, hx', rfl⟩
  | point i next _ _ => exact ⟨x', x'.state, hx', rfl⟩

/-- The accounting of a tick, before the switch. -/
theorem getProcess_chargeCurrent {s : Scheduler} {q : Nat} {y : Pcb}
    (hy : s.advanceTick.chargeCurrent.1.getProcess q = some y) :
    ∃ x, s.getProcess q = some x ∧ y = s.tickRecord q x := by
  have hadvanced : ∀ {z}, s.advanceTick.getProcess q = some z →
      ∃ x, s.getProcess q = some x ∧ z = refresh (wrapAdd 64 s.tick 1) x := by
    intro z hz
    rw [getProcess_advanceTick] at hz
    obtain ⟨x, hx, rfl⟩ := Option.map_eq_some_iff.1 hz
    exact ⟨x, hx, rfl⟩
  unfold tickRecord
  rcases s.advanceTick.chargeCurrent_cases with ⟨hgone, heq⟩ | ⟨c, z, hc, hz, hover⟩
  · rw [heq] at hy
    obtain ⟨x, hx, rfl⟩ := hadvanced hy
    refine ⟨x, hx, ?_⟩
    dsimp only
    rw [if_neg]
    intro hc
    rw [currentProcess_advanceTick, hc, Option.bind_some, hy] at hgone
    cases hgone
  · obtain ⟨f, hf, heq, hpid⟩ : ∃ f hf, s.advanceTick.chargeCurrent.1 = s.advanceTick.update c f hf ∧
        f z = if quantumOver (charge z) then preempt (wrapAdd 64 s.tick 1) z else charge z := by
      rcases hover with ⟨hover, heq⟩ | ⟨hover, heq⟩
      · exact ⟨charge, charge_pid, by rw [heq], by rw [hover]; rfl⟩
      · exact ⟨_, preempt_pid _, by rw [heq], by rw [hover]; rfl⟩
    rw [heq, getProcess_update] at hy
    rw [currentProcess_advanceTick] at hc
    dsimp only
    by_cases hq : q = c
    · subst hq
      rw [if_pos rfl, hz, Option.map_some, hpid] at hy
      obtain ⟨x, hx, rfl⟩ := hadvanced hz
      refine ⟨x, hx, ?_⟩
      rw [if_pos hc]
      exact (Option.some.inj hy).symm
    · rw [if_neg hq] at hy
      obtain ⟨x, hx, rfl⟩ := hadvanced hy
      refine ⟨x, hx, ?_⟩
      rw [if_neg (fun h => hq (Option.some.inj (hc.symm.trans h)).symm)]

/-- A tick brings the record of every process up to date, charges the current one, and switches. -/
theorem record_timerTick {s : Scheduler} {q : Nat} {x' : Pcb} (hx' : s.timerTick.1.getProcess q = some x') :
    ∃ x st, s.getProcess q = some x ∧ x' = { s.tickRecord q x with state := st } := by
  obtain ⟨y, st, hy, rfl⟩ : ∃ y st, s.advanceTick.chargeCurrent.1.getProcess q = some y ∧ x' = { y with state := st } := by
    rcases s.timerTick_cases with ⟨-, heq⟩ | ⟨hflag, -⟩
    · rw [heq] at hx'
      exact ⟨x', x'.state, hx', rfl⟩
    · exact getProcess_switches (timerTick_switches hflag) hx'
  obtain ⟨x, hx, rfl⟩ := getProcess_chargeCurrent hy
  exact ⟨x, st, hx, rfl⟩

private theorem tickChange_tickRecord (s : Scheduler) (q : Nat) (x : Pcb) : TickChange x (s.tickRecord q x) := by
  have hrefresh := tickChange_refresh (wrapAdd 64 s.tick 1) x
  unfold tickRecord
  dsimp only
  split
  · split
    · exact hrefresh.trans (tickChange_preempt _ _)
    · exact hrefresh.trans (tickChange_charge _)
  · exact hrefresh

private theorem recordStep_timerTick (s : Scheduler) : RecordStep s .timerTick s.timerTick.1 := by
  intro q x' hx'
  obtain ⟨x, st, hx, rfl⟩ := record_timerTick hx'
  obtain ⟨st', ct, total, used, rate, rt, dl, wf, heq⟩ := tickChange_tickRecord s q x
  refine Or.inl ⟨x, hx, Or.inr ?_⟩
  rw [heq]
  exact ⟨st, ct, total, used, rate, rt, dl, wf, rfl⟩

/-! ### Messages and capabilities -/

private theorem recordStep_sendMessage (s : Scheduler) (fromPid toPid : Nat) (msg : Message) :
    RecordStep s (.sendMessage fromPid toPid msg) (s.sendMessage fromPid toPid msg).1 := by
  rcases s.sendMessage_cases fromPid toPid msg with ⟨-, heq⟩ | ⟨p, hp, hlim, ⟨-, heq⟩ | ⟨hroom, heq⟩⟩
  · rw [heq]; exact recordStep_same fun q => rfl
  · rw [heq]; exact recordStep_update fun x _ => Or.inl ⟨rfl, rfl⟩
  · rw [heq]
    intro q x' hx'
    rw [getProcess_log, getProcess_update] at hx'
    split at hx'
    · rename_i hq
      subst hq
      obtain ⟨y, hy, rfl⟩ := Option.map_eq_some_iff.1 hx'
      rw [getProcess_update] at hy
      split at hy
      · rename_i hq
        obtain ⟨x, hx, rfl⟩ := Option.map_eq_some_iff.1 hy
        rw [hp] at hx
        cases hx
        exact Or.inl ⟨p, hp, Or.inr (Or.inr ⟨rfl, hlim, hroom, Or.inr ⟨hq, rfl⟩⟩)⟩
      · rw [hp] at hy
        cases hy
        exact Or.inl ⟨p, hp, Or.inr (Or.inr ⟨rfl, hlim, hroom, Or.inl rfl⟩)⟩
    · rw [getProcess_update] at hx'
      split at hx'
      · rename_i hq
        obtain ⟨x, hx, rfl⟩ := Option.map_eq_some_iff.1 hx'
        exact Or.inl ⟨x, hx, Or.inr (Or.inl ⟨hq, rfl⟩)⟩
      · exact Or.inl ⟨x', hx', Or.inl rfl⟩

private theorem recordStep_blockingReceive (s : Scheduler) (pid t : Nat) :
    RecordStep s (.blockingReceive pid t) (s.blockingReceive pid t).1 := by
  rcases s.blockingReceive_cases pid t with
    ⟨-, heq⟩ | ⟨p, hp, ⟨msg, rest, hbox, heq⟩ | ⟨-, -, heq⟩ | ⟨hbox, -, heq⟩⟩
  · rw [heq]; exact recordStep_same fun q => rfl
  · rw [heq]
    refine recordStep_update fun x hx => ⟨rfl, Or.inl ⟨msg, rest, ?_, rfl⟩⟩
    rw [hp] at hx; cases hx; exact hbox
  · rw [heq]; exact recordStep_same fun q => rfl
  · rw [heq]
    refine recordStep_update fun x hx => ⟨rfl, Or.inr ⟨?_, _, rfl⟩⟩
    rw [hp] at hx; cases hx; exact hbox

private theorem isEmpty_of_findFinIdx? {caps : Vector Capability capTableSize} {i : Fin capTableSize}
    (h : caps.findFinIdx? Capability.isEmpty = some i) : (caps.get i).isEmpty = true := by
  have hfind : caps.find? Capability.isEmpty = some caps[i] := by
    rw [Vector.find?_eq_map_findFinIdx?_getElem, h, Option.map_some]
  exact Vector.find?_some hfind

private theorem recordStep_capAlloc {s : Scheduler} {op : Op} {pid : Nat} {cap : Capability}
    (hop : ∀ x x', TakesSlot cap x x' → Touches s op pid x x') : RecordStep s op (s.capAlloc pid cap).1 := by
  unfold capAlloc ProcessTable.capAlloc
  split
  · exact recordStep_same fun q => rfl
  · rename_i p hp
    split
    · exact recordStep_same fun q => rfl
    · rename_i i hi
      refine recordStep_update fun x hx => hop x _ ⟨i, ?_, rfl⟩
      have hx' : s.processTable.getProcess pid = some x := hx
      rw [hp] at hx'
      cases hx'
      exact isEmpty_of_findFinIdx? hi

private theorem recordStep_capGrant (s : Scheduler) (fromPid slotIdx toPid : Nat) :
    RecordStep s (.capGrant fromPid slotIdx toPid) (s.capGrant fromPid slotIdx toPid).1 := by
  unfold capGrant ProcessTable.capGrant
  split
  · rename_i hslot
    split
    · exact recordStep_same fun q => rfl
    · rename_i g hg
      simp only
      split
      · exact recordStep_same fun q => rfl
      · rename_i hempty
        split
        · exact recordStep_same fun q => rfl
        · rename_i hright
          refine recordStep_capAlloc fun x x' htakes => ⟨rfl, g.capTable[slotIdx], ?_, hright, htakes⟩
          unfold capSlotInfo getProcess
          rw [dif_pos hslot, hg]
          simp only
          rw [if_neg hempty]
  · exact recordStep_same fun q => rfl

/-- An operation changes a record only in the ways listed for it. -/
theorem record_step {s s' : Scheduler} {op : Op} {r : Ret} (h : s.step op = some (s', r)) : RecordStep s op s' := by
  cases op
  case addProcess base =>
    obtain ⟨⟨t, r'⟩, hadd, heq⟩ := Option.map_eq_some_iff.1 h
    obtain ⟨rfl, -⟩ := Prod.mk.inj heq
    exact recordStep_adds (addProcess_adds hadd) (Or.inl rfl)
  case addRing3Process base =>
    obtain ⟨⟨t, r'⟩, hadd, heq⟩ := Option.map_eq_some_iff.1 h
    obtain ⟨rfl, -⟩ := Prod.mk.inj heq
    exact recordStep_adds (addRing3Process_adds hadd) (Or.inr rfl)
  all_goals
    simp only [step, Option.some.injEq, Prod.mk.injEq] at h
    obtain ⟨rfl, -⟩ := h
  case registerUserFrames pid frames => exact recordStep_update fun x _ => ⟨rfl, rfl⟩
  case appendUserFrames pid frames => exact recordStep_update fun x _ => ⟨rfl, rfl⟩
  case setPriority pid priority => exact recordStep_update fun x _ => ⟨rfl, rfl⟩
  case setRealtime pid period => exact recordStep_update fun x _ => ⟨rfl, _, _, rfl⟩
  case setQuotas pid mem cpu ipc => exact recordStep_update fun x _ => ⟨rfl, rfl⟩
  case setCurrent pid => exact recordStep_same fun q => rfl
  case schedule =>
    obtain ⟨i, hi⟩ := s.pickNextPriority_fst
    unfold schedule
    rw [hi]
    exact recordStep_same fun q => rfl
  case timerTick => exact recordStep_timerTick s
  case forceScheduleNext =>
    exact recordStep_switched (switched_of_switches s.forceScheduleNext_switches) fun _ _ _ h => h
  case prepareBlockSwitch pid =>
    exact recordStep_switched (switched_of_switches (s.prepareBlockSwitch_switches pid)) fun _ _ _ h => h
  case rescheduleIsr => exact recordStep_switched (switched_rescheduleIsr s) fun _ _ _ h => h
  case yieldCurrent => exact recordStep_switched (switched_yieldCurrent s) fun _ _ _ h => h
  case yieldSwitch => exact recordStep_switched (switched_yieldSwitch s) fun _ _ _ h => h
  case sendMessage fromPid toPid msg => exact recordStep_sendMessage s fromPid toPid msg
  case blockingReceive pid t => exact recordStep_blockingReceive s pid t
  case terminateProcess pid =>
    intro q x' hx'
    rw [getProcess_terminateProcess] at hx'
    split at hx'
    · cases hx'
    · exact Or.inl ⟨x', hx', Or.inl rfl⟩
  case notifyProcess toPid word =>
    rcases s.notifyProcess_cases toPid word with ⟨-, heq⟩ | ⟨p, -, heq⟩
    · rw [heq]; exact recordStep_same fun q => rfl
    · rw [heq]; exact recordStep_update fun x _ => ⟨rfl, rfl⟩
  case useMemoryPage pid => exact recordStep_update fun x _ => ⟨rfl, _, rfl⟩
  case capAlloc pid cap => exact recordStep_capAlloc fun x x' h => ⟨rfl, h⟩
  case capGrant fromPid slotIdx toPid => exact recordStep_capGrant s fromPid slotIdx toPid
  case capRevoke pid slotIdx =>
    unfold capRevoke ProcessTable.capRevoke
    split
    · rename_i hslot
      exact recordStep_update fun x _ => ⟨rfl, hslot, rfl⟩
    · exact recordStep_same fun q => rfl

/-- An operation that adds no process keeps a record or touches it. -/
theorem record_kept {s s' : Scheduler} {op : Op} {r : Ret} (h : s.step op = some (s', r))
    (hadd : ∀ base, op ≠ .addProcess base ∧ op ≠ .addRing3Process base) {q : Nat} {x' : Pcb}
    (hx' : s'.getProcess q = some x') : ∃ x, s.getProcess q = some x ∧ (x' = x ∨ Touches s op q x x') := by
  rcases record_step h q x' hx' with hold | ⟨-, -, _, _, base, -, hop | hop⟩
  · exact hold
  · exact absurd hop (hadd base).1
  · exact absurd hop (hadd base).2

/-! ### What an operation keeps -/

/-- Operations that put no capability into a table. -/
def capQuiet : Op → Bool
  | .capAlloc .. | .capGrant .. | .capRevoke .. => false
  | _ => true

/-- Operations that leave the counters of the message rate as they are. -/
def rateQuiet : Op → Bool
  | .timerTick | .sendMessage .. => false
  | _ => true

/-- Operations that leave the limits of the message rate as they are. -/
def quotaQuiet : Op → Bool
  | .setQuotas .. => false
  | _ => true

/-- Operations that leave the periods and deadlines of the real-time processes as they are. -/
def realtimeQuiet : Op → Bool
  | .timerTick | .setRealtime .. => false
  | _ => true

/-- Operations that leave the CPU accounts as they are. -/
def accountQuiet : Op → Bool
  | .timerTick | .setQuotas .. => false
  | _ => true

/-- Operations that put no message into a mailbox and take none out. -/
def mailQuiet : Op → Bool
  | .sendMessage .. | .blockingReceive .. => false
  | _ => true

/-- Operations that post no notification. -/
def notifyQuiet : Op → Bool
  | .notifyProcess .. => false
  | _ => true

/-- The budget of a process, what it has used of it, and all its ticks. -/
structure Account where
  budget : Nat
  used : Nat
  total : Nat

def account (p : Pcb) : Account := ⟨p.cpuBudgetTicks, p.cpuBudgetUsed, p.totalCpuTicks⟩

/-- What the operations keep in the records they touch. -/
structure Keeps (op : Op) (x x' : Pcb) : Prop where
  capTable : capQuiet op = true → x'.capTable = x.capTable
  rate : rateQuiet op = true → x'.ipcRateUsed = x.ipcRateUsed
  limit : quotaQuiet op = true → x'.ipcRateLimit = x.ipcRateLimit
  realtime : realtimeQuiet op = true → x'.rtPeriod = x.rtPeriod ∧ x'.rtDeadline = x.rtDeadline
  account : accountQuiet op = true → account x' = account x
  contents : mailQuiet op = true → x'.mailbox.contents = x.mailbox.contents
  pending : notifyQuiet op = true → x'.mailbox.pendingNotification = x.mailbox.pendingNotification

private theorem keeps_unblocked (op : Op) (x : Pcb) (mb : MessageQueue) (b : Prop) [Decidable b]
    (hcontents : mailQuiet op = true → mb.contents = x.mailbox.contents)
    (hpending : notifyQuiet op = true → mb.pendingNotification = x.mailbox.pendingNotification) :
    Keeps op x (if b then ProcessTable.unblocked { x with mailbox := mb } else { x with mailbox := mb }) := by
  split <;> exact ⟨fun _ => rfl, fun _ => rfl, fun _ => rfl, fun _ => ⟨rfl, rfl⟩, fun _ => rfl, hcontents, hpending⟩

theorem keeps_of_touches {s : Scheduler} {op : Op} {q : Nat} {x x' : Pcb} (h : Touches s op q x x') :
    Keeps op x x' := by
  cases op with
  | addProcess | addRing3Process | setCurrent | schedule | terminateProcess => exact h.elim
  | registerUserFrames pid frames | appendUserFrames pid frames =>
    obtain ⟨-, rfl⟩ := h
    obtain ⟨fs, hfs⟩ := Pcb.foldl_addUserFrame_eq frames x
    rw [hfs]
    exact ⟨fun _ => rfl, fun _ => rfl, fun _ => rfl, fun _ => ⟨rfl, rfl⟩, fun _ => rfl, fun _ => rfl, fun _ => rfl⟩
  | setPriority =>
    obtain ⟨-, rfl⟩ := h
    exact ⟨fun _ => rfl, fun _ => rfl, fun _ => rfl, fun _ => ⟨rfl, rfl⟩, fun _ => rfl, fun _ => rfl, fun _ => rfl⟩
  | setRealtime =>
    obtain ⟨-, period, deadline, rfl⟩ := h
    exact ⟨fun _ => rfl, fun _ => rfl, fun _ => rfl, nofun, fun _ => rfl, fun _ => rfl, fun _ => rfl⟩
  | setQuotas =>
    obtain ⟨-, rfl⟩ := h
    exact ⟨fun _ => rfl, fun _ => rfl, nofun, fun _ => ⟨rfl, rfl⟩, nofun, fun _ => rfl, fun _ => rfl⟩
  | timerTick =>
    obtain ⟨st, ct, total, used, rate, rt, dl, wf, rfl⟩ := h
    exact ⟨fun _ => rfl, nofun, fun _ => rfl, nofun, nofun, fun _ => rfl, fun _ => rfl⟩
  | forceScheduleNext | prepareBlockSwitch | rescheduleIsr | yieldCurrent | yieldSwitch =>
    obtain ⟨st, ct, rfl⟩ := h
    exact ⟨fun _ => rfl, fun _ => rfl, fun _ => rfl, fun _ => ⟨rfl, rfl⟩, fun _ => rfl, fun _ => rfl, fun _ => rfl⟩
  | sendMessage fromPid toPid msg =>
    have hdeliver : ∀ y, Keeps (.sendMessage fromPid toPid msg) y (deliver { msg with sender := fromPid } y) :=
      fun y => keeps_unblocked _ y _ _ nofun fun _ => rfl
    rcases h with ⟨-, rfl⟩ | ⟨-, -, -, rfl | ⟨-, rfl⟩⟩
    · exact ⟨fun _ => rfl, nofun, fun _ => rfl, fun _ => ⟨rfl, rfl⟩, fun _ => rfl, nofun, fun _ => rfl⟩
    · exact hdeliver x
    · have hcharged := hdeliver (chargeSend toPid x)
      exact ⟨hcharged.capTable, nofun, hcharged.limit, hcharged.realtime, hcharged.account, nofun, hcharged.pending⟩
  | blockingReceive pid t =>
    obtain ⟨-, ⟨msg, rest, -, rfl⟩ | ⟨-, dl, rfl⟩⟩ := h
    · exact ⟨fun _ => rfl, fun _ => rfl, fun _ => rfl, fun _ => ⟨rfl, rfl⟩, fun _ => rfl, nofun, fun _ => rfl⟩
    · exact ⟨fun _ => rfl, fun _ => rfl, fun _ => rfl, fun _ => ⟨rfl, rfl⟩, fun _ => rfl, nofun, fun _ => rfl⟩
  | notifyProcess toPid word =>
    obtain ⟨-, rfl⟩ := h
    exact keeps_unblocked _ x _ _ (fun _ => rfl) nofun
  | useMemoryPage =>
    obtain ⟨-, used, rfl⟩ := h
    exact ⟨fun _ => rfl, fun _ => rfl, fun _ => rfl, fun _ => ⟨rfl, rfl⟩, fun _ => rfl, fun _ => rfl, fun _ => rfl⟩
  | capAlloc =>
    obtain ⟨-, i, -, rfl⟩ := h
    exact ⟨nofun, fun _ => rfl, fun _ => rfl, fun _ => ⟨rfl, rfl⟩, fun _ => rfl, fun _ => rfl, fun _ => rfl⟩
  | capGrant =>
    obtain ⟨-, cap, -, -, i, -, rfl⟩ := h
    exact ⟨nofun, fun _ => rfl, fun _ => rfl, fun _ => ⟨rfl, rfl⟩, fun _ => rfl, fun _ => rfl, fun _ => rfl⟩
  | capRevoke =>
    obtain ⟨-, hslot, rfl⟩ := h
    exact ⟨nofun, fun _ => rfl, fun _ => rfl, fun _ => ⟨rfl, rfl⟩, fun _ => rfl, fun _ => rfl, fun _ => rfl⟩

/-- A record after an operation was there before, and keeps what the operation keeps, or it is new. -/
theorem keeps_step {s s' : Scheduler} {op : Op} {r : Ret} (h : s.step op = some (s', r)) {q : Nat} {x' : Pcb}
    (hx' : s'.getProcess q = some x') : (∃ x, s.getProcess q = some x ∧ Keeps op x x') ∨
      (s.getProcess q = none ∧ q = s.processTable.nextPid ∧ ∃ id rsp base, x' = Pcb.fresh q id rsp base) := by
  rcases record_step h q x' hx' with ⟨x, hx, rfl | htouch⟩ | ⟨hnone, hq, id, rsp, base, rfl, -⟩
  · exact Or.inl ⟨x', hx, fun _ => rfl, fun _ => rfl, fun _ => rfl, fun _ => ⟨rfl, rfl⟩, fun _ => rfl, fun _ => rfl, fun _ => rfl⟩
  · exact Or.inl ⟨x, hx, keeps_of_touches htouch⟩
  · exact Or.inr ⟨hnone, hq, id, rsp, base, rfl⟩

/-! ### Mailboxes -/

/-- The messages waiting for `q`. -/
def mail (s : Scheduler) (q : Nat) : List Message := (s.getProcess q).elim [] fun x => x.mailbox.contents

theorem mail_eq {s : Scheduler} {q : Nat} {x : Pcb} (h : s.getProcess q = some x) : s.mail q = x.mailbox.contents := by
  unfold mail
  rw [h]
  rfl

theorem mail_of_none {s : Scheduler} {q : Nat} (h : s.getProcess q = none) : s.mail q = [] := by
  unfold mail
  rw [h]
  rfl

/-- A change of records that leaves the mailboxes alone. -/
theorem mail_update (s : Scheduler) (pid : Nat) {f : Pcb → Pcb} {hf : ∀ p, (f p).pid = p.pid}
    (h : ∀ x, (f x).mailbox.contents = x.mailbox.contents) (q : Nat) : (s.update pid f hf).mail q = s.mail q := by
  unfold mail
  rw [getProcess_update]
  split
  · cases s.getProcess q with
    | none => rfl
    | some x => exact h x
  · rfl

theorem mail_deliver (msg : Message) {x : Pcb} (h : x.mailbox.contents.length < queueCapacity) :
    (deliver msg x).mailbox.contents = x.mailbox.contents ++ [msg] := by
  have hsend := (MessageQueue.contents_send (m := msg) h).2
  unfold deliver
  simp only
  split <;> exact hsend

theorem mail_sendMessage {s s' : Scheduler} {fromPid toPid : Nat} {msg : Message}
    (h : s.sendMessage fromPid toPid msg = (s', true)) (q : Nat) :
    s'.mail q = s.mail q ++ if q = toPid then [{ msg with sender := fromPid }] else [] := by
  rcases s.sendMessage_cases fromPid toPid msg with ⟨-, heq⟩ | ⟨p, hp, -, ⟨-, heq⟩ | ⟨hroom, heq⟩⟩
  · rw [heq] at h; cases h
  · rw [heq] at h; cases h
  · rw [heq] at h
    cases h
    show ((s.update fromPid (chargeSend toPid) (chargeSend_pid toPid)).update toPid
      (deliver { msg with sender := fromPid }) (deliver_pid _)).mail q = _
    have hcharge : ∀ q, (s.update fromPid (chargeSend toPid) (chargeSend_pid toPid)).mail q = s.mail q :=
      s.mail_update fromPid fun _ => rfl
    rw [← hcharge q]
    generalize hs₁ : s.update fromPid (chargeSend toPid) (chargeSend_pid toPid) = s₁ at hcharge ⊢
    have hmail : s₁.mail toPid = p.mailbox.contents := by rw [hcharge, mail_eq hp]
    obtain ⟨x, hx⟩ : ∃ x, s₁.getProcess toPid = some x := by
      rw [← hs₁, getProcess_update]
      split
      · rw [hp]; exact ⟨_, rfl⟩
      · exact ⟨p, hp⟩
    rw [mail_eq hx] at hmail
    unfold mail
    rw [getProcess_update]
    split
    · rename_i hq
      rw [hq, hx]
      exact mail_deliver _ (by rw [hmail]; exact hroom)
    · rw [List.append_nil]

theorem mail_sendMessage_refused {s s' : Scheduler} {fromPid toPid : Nat} {msg : Message}
    (h : s.sendMessage fromPid toPid msg = (s', false)) (q : Nat) : s'.mail q = s.mail q := by
  rcases s.sendMessage_cases fromPid toPid msg with ⟨-, heq⟩ | ⟨p, -, -, ⟨-, heq⟩ | ⟨-, heq⟩⟩
  · rw [heq] at h; cases h; rfl
  · rw [heq] at h
    cases h
    exact mail_update s fromPid (f := chargeSend toPid) (fun _ => rfl) q
  · rw [heq] at h; cases h

/-- A receive takes the first message. -/
theorem mail_blockingReceive {s s' : Scheduler} {pid t : Nat} {msg : Message}
    (h : s.blockingReceive pid t = (s', some msg)) : s.mail pid = msg :: s'.mail pid := by
  rcases s.blockingReceive_cases pid t with ⟨-, heq⟩ | ⟨p, hp, ⟨m, rest, hbox, heq⟩ | ⟨-, -, heq⟩ | ⟨-, -, heq⟩⟩
  · rw [heq] at h; cases h
  · rw [heq] at h
    cases h
    have hs' : ((s.update pid fun p => { p with mailbox := p.mailbox.receive.1, waitingFor := none }).log .receive
        msg.sender pid).getProcess pid = some { p with mailbox := p.mailbox.receive.1, waitingFor := none } := by
      rw [getProcess_log, getProcess_update, if_pos rfl, hp]
      rfl
    rw [mail_eq hp, mail_eq hs', hbox]
    show msg :: rest = msg :: p.mailbox.receive.1.contents
    rw [(MessageQueue.receive_eq p.mailbox).2, hbox]
    rfl
  · rw [heq] at h; cases h
  · rw [heq] at h; cases h

theorem mail_blockingReceive_none {s s' : Scheduler} {pid t : Nat} (h : s.blockingReceive pid t = (s', none)) :
    s.mail pid = [] ∧ ∀ q, s'.mail q = s.mail q := by
  rcases s.blockingReceive_cases pid t with
    ⟨hnone, heq⟩ | ⟨p, hp, ⟨m, rest, -, heq⟩ | ⟨hbox, -, heq⟩ | ⟨hbox, -, heq⟩⟩
  · rw [heq] at h; cases h; exact ⟨mail_of_none hnone, fun q => rfl⟩
  · rw [heq] at h; cases h
  · rw [heq] at h; cases h; exact ⟨(mail_eq hp).trans hbox, fun q => rfl⟩
  · rw [heq] at h; cases h; exact ⟨(mail_eq hp).trans hbox, mail_update s pid fun _ => rfl⟩

/-- A mailbox changes by a send to its owner or by a receive only. -/
theorem contents_step {s s' : Scheduler} {op : Op} {r : Ret} {q : Nat} {x x' : Pcb} (h : s.step op = some (s', r))
    (hsend : ∀ fromPid msg, op ≠ .sendMessage fromPid q msg) (hrecv : ∀ t, op ≠ .blockingReceive q t)
    (hx : s.getProcess q = some x) (hx' : s'.getProcess q = some x') : x'.mailbox.contents = x.mailbox.contents := by
  rcases record_step h q x' hx' with ⟨y, hy, rfl | htouch⟩ | ⟨hnone, -⟩
  · rw [hx] at hy; cases hy; rfl
  · rw [hx] at hy
    cases hy
    by_cases hquiet : mailQuiet op = true
    · exact (keeps_of_touches htouch).contents hquiet
    · cases op with
      | sendMessage fromPid toPid msg =>
        rcases htouch with ⟨-, rfl⟩ | ⟨rfl, -⟩
        · rfl
        · exact absurd rfl (hsend fromPid msg)
      | blockingReceive pid t =>
        obtain ⟨rfl, -⟩ := htouch
        exact absurd rfl (hrecv t)
      | _ => exact absurd rfl hquiet
  · rw [hnone] at hx; cases hx

theorem mail_suffix_blockingReceive (s : Scheduler) (pid t : Nat) :
    (s.blockingReceive pid t).1.mail pid <:+ s.mail pid := by
  cases hout : s.blockingReceive pid t with
  | mk s' msg =>
    cases msg with
    | some msg => rw [mail_blockingReceive hout]; exact List.suffix_cons _ _
    | none => exact ⟨[], (mail_blockingReceive_none hout).2 pid⟩

/-- Without a send to `q`, the mailbox of `q` holds a rest of what it held. -/
theorem mail_step {s s' : Scheduler} {op : Op} {r : Ret} {q : Nat} (h : s.step op = some (s', r))
    (hsend : ∀ fromPid msg, op ≠ .sendMessage fromPid q msg) : s'.mail q <:+ s.mail q := by
  by_cases hrecv : ∃ t, op = .blockingReceive q t
  · obtain ⟨t, rfl⟩ := hrecv
    simp only [step, Option.some.injEq, Prod.mk.injEq] at h
    obtain ⟨rfl, -⟩ := h
    exact s.mail_suffix_blockingReceive q t
  · cases hx' : s'.getProcess q with
    | none => rw [mail_of_none hx']; exact List.nil_suffix
    | some x' =>
      rw [mail_eq hx']
      cases hx : s.getProcess q with
      | some x =>
        rw [mail_eq hx]
        exact ⟨[], contents_step h hsend (fun t ht => hrecv ⟨t, ht⟩) hx hx'⟩
      | none =>
        -- a new process has an empty mailbox
        rcases record_step h q x' hx' with ⟨y, hy, -⟩ | ⟨-, -, id, rsp, base, rfl, -⟩
        · rw [hx] at hy; cases hy
        · exact List.nil_suffix

/-- Messages stay in a mailbox as long as its owner neither receives nor ends. -/
theorem contents_prefix_step {s s' : Scheduler} {op : Op} {r : Ret} {q : Nat} {x x' : Pcb}
    (h : s.step op = some (s', r)) (hrecv : ∀ t, op ≠ .blockingReceive q t) (hx : s.getProcess q = some x)
    (hx' : s'.getProcess q = some x') : x.mailbox.contents <+: x'.mailbox.contents := by
  by_cases hsend : ∃ fromPid msg, op = .sendMessage fromPid q msg
  · obtain ⟨fromPid, msg, rfl⟩ := hsend
    simp only [step, Option.some.injEq, Prod.mk.injEq] at h
    obtain ⟨rfl, -⟩ := h
    rw [← mail_eq hx, ← mail_eq hx']
    cases hout : s.sendMessage fromPid q msg with
    | mk s' ok =>
      cases ok with
      | true => rw [mail_sendMessage hout]; exact List.prefix_append _ _
      | false => exact ⟨[], by rw [List.append_nil, mail_sendMessage_refused hout]⟩
  · have hsame := contents_step h (fun fromPid msg hop => hsend ⟨fromPid, msg, hop⟩) hrecv hx hx'
    exact ⟨[], by rw [List.append_nil, hsame]⟩

/-! ### Capability tables -/

theorem capSlotInfo_eq_some_iff {s : Scheduler} {pid slot : Nat} {cap : Capability} :
    s.capSlotInfo pid slot = some cap ↔
      ∃ x, s.getProcess pid = some x ∧ ∃ h : slot < capTableSize, x.capTable[slot] = cap ∧ cap.isEmpty = false := by
  unfold capSlotInfo
  split
  · rename_i hslot
    cases s.getProcess pid with
    | none => simp
    | some x =>
      simp only [Option.some.injEq, exists_eq_left', hslot, exists_true_left]
      split
      · rename_i hempty
        constructor
        · intro h; cases h
        · rintro ⟨rfl, hcap⟩; rw [hempty] at hcap; cases hcap
      · rename_i hempty
        constructor
        · intro h; cases h; exact ⟨rfl, by simpa using hempty⟩
        · rintro ⟨rfl, -⟩; rfl
  · rename_i hslot
    simp [hslot]

/-- Every capability of `s'` is one of `s`, in the same slot. -/
def KeepsCaps (s s' : Scheduler) : Prop :=
  ∀ q i cap, s'.capSlotInfo q i = some cap → s.capSlotInfo q i = some cap

/-- Besides the capabilities of `s`, there is `cap` in a slot of `pid` that was empty. -/
def GainsCap (s s' : Scheduler) (pid slot : Nat) (cap : Capability) : Prop :=
  slot < capTableSize ∧ s.capSlotInfo pid slot = none ∧
    ∀ q i c, s'.capSlotInfo q i = some c → s.capSlotInfo q i = some c ∨ (q = pid ∧ i = slot ∧ c = cap)

theorem KeepsCaps.refl (s : Scheduler) : KeepsCaps s s := fun _ _ _ h => h

theorem KeepsCaps.trans {s t u : Scheduler} (h : KeepsCaps s t) (h' : KeepsCaps t u) : KeepsCaps s u :=
  fun q i cap hcap => h q i cap (h' q i cap hcap)

theorem keepsCaps_step {s s' : Scheduler} {op : Op} {r : Ret} (hop : capQuiet op = true)
    (h : s.step op = some (s', r)) : KeepsCaps s s' := by
  intro q i cap hcap
  obtain ⟨x', hx', hi, hslot, hne⟩ := capSlotInfo_eq_some_iff.1 hcap
  rcases record_step h q x' hx' with ⟨x, hx, hxx'⟩ | ⟨-, -, id, rsp, base, rfl, -⟩
  · have htable : x'.capTable = x.capTable := by
      rcases hxx' with rfl | htouch
      · rfl
      · exact (keeps_of_touches htouch).capTable hop
    have hslot' : x.capTable[i] = cap := by
      rw [← hslot]
      simp only [htable]
    exact capSlotInfo_eq_some_iff.2 ⟨x, hx, hi, hslot', hne⟩
  · -- the table of a new process is empty
    have hcap' : cap = Capability.empty := by
      rw [← hslot]
      exact Vector.getElem_replicate hi
    rw [hcap'] at hne
    cases hne

/-- Only the capability table of a record changes. -/
theorem capAlloc_records {s s' : Scheduler} {pid : Nat} {cap : Capability} {r : Option Nat}
    (h : s.capAlloc pid cap = (s', r)) {q : Nat} {x' : Pcb} (hx' : s'.getProcess q = some x') :
    ∃ x, s.getProcess q = some x ∧ ∃ caps, x' = { x with capTable := caps } := by
  have hstep : s.step (.capAlloc pid cap) = some (s', .slot r) := by simp only [step, h]
  have hadd : ∀ base, (.capAlloc pid cap : Op) ≠ .addProcess base ∧ (.capAlloc pid cap : Op) ≠ .addRing3Process base := by
    intro base
    constructor
    · intro h
      cases h
    · intro h
      cases h
  obtain ⟨x, hx, rfl | ⟨-, i, -, rfl⟩⟩ := record_kept hstep hadd hx'
  · exact ⟨x', hx, _, rfl⟩
  · exact ⟨x, hx, _, rfl⟩

theorem capAlloc_none {s s' : Scheduler} {pid : Nat} {cap : Capability} (h : s.capAlloc pid cap = (s', none)) :
    s' = s := by
  unfold capAlloc ProcessTable.capAlloc at h
  simp only [Prod.mk.injEq] at h
  obtain ⟨hs, hr⟩ := h
  cases hp : s.processTable.getProcess pid with
  | none => rw [hp] at hs; exact hs.symm
  | some p =>
    rw [hp] at hs hr
    simp only at hs hr
    split at hr
    · rename_i hfull
      rw [hfull] at hs
      exact hs.symm
    · cases hr

theorem capAlloc_some {s s' : Scheduler} {pid slot : Nat} {cap : Capability} (h : s.capAlloc pid cap = (s', some slot)) :
    GainsCap s s' pid slot cap := by
  unfold capAlloc ProcessTable.capAlloc at h
  simp only [Prod.mk.injEq] at h
  obtain ⟨hs, hr⟩ := h
  cases hp : s.processTable.getProcess pid with
  | none => rw [hp] at hr; cases hr
  | some p =>
    rw [hp] at hs hr
    simp only at hs hr
    split at hr
    · cases hr
    · rename_i i hi
      cases hr
      rw [hi] at hs
      simp only at hs
      have hempty := isEmpty_of_findFinIdx? hi
      have hget : ∀ q, s'.getProcess q =
          if q = pid then (s.getProcess q).map (fun y => { y with capTable := y.capTable.set i cap })
          else s.getProcess q := by
        intro q
        rw [← hs]
        exact ProcessTable.getProcess_update s.processTable pid _ _ q
      refine ⟨i.isLt, ?_, ?_⟩
      · cases hinfo : s.capSlotInfo pid i with
        | none => rfl
        | some c =>
          obtain ⟨x, hx, hlt, rfl, hne⟩ := capSlotInfo_eq_some_iff.1 hinfo
          have hx' : s.processTable.getProcess pid = some x := hx
          rw [hp] at hx'
          cases hx'
          have : (p.capTable[i.val]).isEmpty = true := hempty
          rw [this] at hne
          cases hne
      · intro q j c hc
        obtain ⟨x', hx', hlt, hcap, hne⟩ := capSlotInfo_eq_some_iff.1 hc
        rw [hget] at hx'
        split at hx'
        · rename_i hq
          obtain ⟨x, hx, rfl⟩ := Option.map_eq_some_iff.1 hx'
          simp only [Vector.getElem_set] at hcap
          split at hcap
          · rename_i hij
            exact Or.inr ⟨hq, hij.symm, hcap.symm⟩
          · exact Or.inl (capSlotInfo_eq_some_iff.2 ⟨x, hx, hlt, hcap, hne⟩)
        · exact Or.inl (capSlotInfo_eq_some_iff.2 ⟨x', hx', hlt, hcap, hne⟩)

/-- A grant copies a capability of the giver that carries the grant right, or does nothing. -/
theorem capGrant_cases (s : Scheduler) (fromPid slotIdx toPid : Nat) :
    s.capGrant fromPid slotIdx toPid = (s, none) ∨
    ∃ cap, s.capSlotInfo fromPid slotIdx = some cap ∧ cap.rights &&& capG ≠ 0 ∧
      s.capGrant fromPid slotIdx toPid = s.capAlloc toPid cap := by
  unfold capGrant ProcessTable.capGrant
  split
  · rename_i hslot
    cases hg : s.processTable.getProcess fromPid with
    | none => exact Or.inl rfl
    | some g =>
      simp only
      split
      · exact Or.inl rfl
      · rename_i hempty
        split
        · exact Or.inl rfl
        · rename_i hright
          refine Or.inr ⟨g.capTable[slotIdx], ?_, hright, rfl⟩
          exact capSlotInfo_eq_some_iff.2 ⟨g, hg, hslot, rfl, by simpa using hempty⟩
  · exact Or.inl rfl

end Scheduler

end Rost
