import Rost.Kernel.Step
import Rost.Scheduler.Selection

/-!
# The identity of the running process

The kernel keeps three notes of who is running: `CURRENT_PID`, which stands for the caller in every check, the current
process of the scheduler, and the stack on which the kernel is entered.  Each switch updates them by hand.  They agree
after every step, as long as another process is ready (`Kernel.identity_agrees`): then an operation of the scheduler either
names a process and reports the switch to it, or leaves the current process and all stacks alone (`Scheduler.Reports`).
-/

namespace Rost

open Lib (Run)

namespace Scheduler

/-- The current process is the same, and no process is gone or has got another stack. -/
def KeepsStacks (s s' : Scheduler) : Prop :=
  s'.currentProcess = s.currentProcess ∧
    ∀ q p, s.getProcess q = some p → ∃ p', s'.getProcess q = some p' ∧ p'.kernelRsp = p.kernelRsp

/-- Nobody is entered, or the new current process is entered on its own stack. -/
inductive Reports (s : Scheduler) : Scheduler × Option Switch → Prop
  | stays {s' : Scheduler} (h : KeepsStacks s s') : Reports s (s', none)
  | enters {s' : Scheduler} {sw : Switch} {next : Nat} {p : Pcb} (hcur : s'.currentProcess = some next)
      (hp : s'.getProcess next = some p) (hrsp : p.kernelRsp = sw.kernelRsp) : Reports s (s', some sw)

variable {s s' t : Scheduler} {pid : Nat} {p : Pcb}

theorem KeepsStacks.refl (s : Scheduler) : KeepsStacks s s := ⟨rfl, fun _ p hp => ⟨p, hp, rfl⟩⟩

theorem KeepsStacks.trans (h : KeepsStacks s t) (h' : KeepsStacks t s') : KeepsStacks s s' := by
  refine ⟨h'.1.trans h.1, fun q p hp => ?_⟩
  obtain ⟨p₁, hp₁, hrsp₁⟩ := h.2 q p hp
  obtain ⟨p₂, hp₂, hrsp₂⟩ := h'.2 q p₁ hp₁
  exact ⟨p₂, hp₂, hrsp₂.trans hrsp₁⟩

theorem keepsStacks_update (s : Scheduler) (pid : Nat) {f : Pcb → Pcb} {hf : ∀ p, (f p).pid = p.pid}
    (h : ∀ p, (f p).kernelRsp = p.kernelRsp) : KeepsStacks s (s.update pid f hf) := by
  refine ⟨rfl, fun q p hp => ?_⟩
  rw [getProcess_update, hp]
  split
  · exact ⟨f p, rfl, h p⟩
  · exact ⟨p, rfl, rfl⟩

private theorem kernelRsp_demote (p : Pcb) : (demote p).kernelRsp = p.kernelRsp := by
  unfold demote
  split <;> rfl

private theorem kernelRsp_deliver (msg : Message) (p : Pcb) : (deliver msg p).kernelRsp = p.kernelRsp := by
  unfold deliver
  dsimp only
  split <;> rfl

private theorem kernelRsp_preempt (tick : Nat) (p : Pcb) : (preempt tick p).kernelRsp = p.kernelRsp := by
  obtain ⟨st, heq⟩ := preempt_eq tick p
  rw [heq]
  rfl

private theorem kernelRsp_refresh (tick : Nat) (p : Pcb) : (refresh tick p).kernelRsp = p.kernelRsp := by
  obtain ⟨st, dl, wf, heq⟩ := refresh_eq tick p
  rw [heq]

/-! ### Operations that do not switch -/

theorem keepsStacks_sendMessage (s : Scheduler) (fromPid toPid : Nat) (msg : Message) :
    KeepsStacks s (s.sendMessage fromPid toPid msg).1 := by
  have hcharge : KeepsStacks s (s.update fromPid (chargeSend toPid) (chargeSend_pid toPid)) :=
    keepsStacks_update s fromPid fun _ => rfl
  rcases s.sendMessage_cases fromPid toPid msg with ⟨-, heq⟩ | ⟨p, -, -, ⟨-, heq⟩ | ⟨-, heq⟩⟩
  · rw [heq]
    exact .refl s
  · rw [heq]
    exact hcharge
  · rw [heq]
    have hdeliver := hcharge.trans
      (@keepsStacks_update _ toPid _ (deliver_pid _) (kernelRsp_deliver { msg with sender := fromPid }))
    exact ⟨hdeliver.1, hdeliver.2⟩

theorem keepsStacks_blockingReceive (s : Scheduler) (pid timeoutTicks : Nat) :
    KeepsStacks s (s.blockingReceive pid timeoutTicks).1 := by
  rcases s.blockingReceive_cases pid timeoutTicks with
    ⟨-, heq⟩ | ⟨p, -, ⟨msg, rest, -, heq⟩ | ⟨-, -, heq⟩ | ⟨-, -, heq⟩⟩
  · rw [heq]
    exact .refl s
  · rw [heq]
    exact keepsStacks_update s pid fun _ => rfl
  · rw [heq]
    exact .refl s
  · rw [heq]
    exact keepsStacks_update s pid fun _ => rfl

private theorem keepsStacks_advanceTick (s : Scheduler) : KeepsStacks s s.advanceTick := by
  refine ⟨rfl, fun q p hp => ?_⟩
  rw [getProcess_advanceTick, hp]
  exact ⟨_, rfl, kernelRsp_refresh _ p⟩

private theorem keepsStacks_chargeCurrent (s : Scheduler) : KeepsStacks s s.chargeCurrent.1 := by
  rcases s.chargeCurrent_cases with ⟨-, heq⟩ | ⟨cpid, p, -, -, ⟨-, heq⟩ | ⟨-, heq⟩⟩
  · rw [heq]
    exact .refl s
  · rw [heq]
    exact keepsStacks_update s cpid fun _ => rfl
  · rw [heq]
    exact keepsStacks_update s cpid (kernelRsp_preempt _)

/-- A ready process stays ready when a message is sent. -/
theorem ready_sendMessage (fromPid toPid : Nat) (msg : Message) {q : Nat} (hq : s.getProcess q = some p)
    (hready : p.state = .ready) :
    ∃ p', (s.sendMessage fromPid toPid msg).1.getProcess q = some p' ∧ p'.state = .ready := by
  have hcharge : ∃ p', (s.update fromPid (chargeSend toPid) (chargeSend_pid toPid)).getProcess q = some p' ∧
      p'.state = .ready := by
    rw [getProcess_update, hq]
    split
    · exact ⟨_, rfl, hready⟩
    · exact ⟨p, rfl, hready⟩
  rcases s.sendMessage_cases fromPid toPid msg with ⟨-, heq⟩ | ⟨r, -, -, ⟨-, heq⟩ | ⟨-, heq⟩⟩
  · rw [heq]
    exact ⟨p, hq, hready⟩
  · rw [heq]
    exact hcharge
  · obtain ⟨p', hp', hready'⟩ := hcharge
    rw [heq, getProcess_log, getProcess_update, hp']
    split
    · refine ⟨_, rfl, ?_⟩
      rw [deliver_state, hready']
      rfl
    · exact ⟨p', rfl, hready'⟩

/-! ### Operations that may switch -/

/-- A process that is there is entered on its stack. -/
theorem reports_enter (hp : s'.getProcess pid = some p) (old : Option Nat) : Reports s (s'.enter old pid) := by
  unfold enter
  rw [hp]
  refine .enters (p := { p with state := .running }) rfl ?_ rfl
  rw [getProcess_update, if_pos rfl]
  exact congrArg (Option.map _) hp

/-- Selection keeps the stacks, and a selected process is there. -/
private theorem selection (s : Scheduler) : ∃ u, s.pickNextPriority = (u, s.pickNextPriority.2) ∧ KeepsStacks s u ∧
    ∀ next, s.pickNextPriority.2 = some next → ∃ p, u.getProcess next = some p := by
  obtain ⟨i, hi⟩ := s.pick_eq
  refine ⟨{ s with queueIndex := i }, hi, ⟨rfl, fun _ p hp => ⟨p, hp, rfl⟩⟩, fun next hpick => ?_⟩
  obtain ⟨p, hp, -⟩ := pickNextPriority_runnable hpick
  exact ⟨p, hp⟩

/-- After a termination somebody is entered, if a process is ready. -/
theorem reports_forceScheduleNext {q : Nat} (hq : s.getProcess q = some p) (hready : p.isRunnable = true) :
    Reports s s.forceScheduleNext ∧ s.forceScheduleNext.2 ≠ none := by
  obtain ⟨next, hpick⟩ := pickNextPriority_isSome hq hready
  obtain ⟨u, hu, -, hsome⟩ := s.selection
  obtain ⟨x, hx⟩ := hsome next hpick
  unfold forceScheduleNext
  rw [hu, hpick]
  refine ⟨reports_enter hx none, ?_⟩
  unfold enter
  dsimp only
  rw [hx]
  exact Option.some_ne_none _

theorem reports_prepareBlockSwitch (hp : s.getProcess pid = some p) : Reports s (s.prepareBlockSwitch pid) := by
  obtain ⟨u, hu, hkeep, hsome⟩ := s.selection
  obtain ⟨p', hp', -⟩ := hkeep.2 pid p hp
  unfold prepareBlockSwitch
  rw [hu]
  cases hpick : s.pickNextPriority.2 with
  | none => exact .stays hkeep
  | some next =>
    obtain ⟨x, hx⟩ := hsome next hpick
    dsimp only
    rw [hp']
    exact reports_enter hx (some pid)

theorem reports_yieldSwitch (hcur : s.currentProcess = some pid) (hp : s.getProcess pid = some p) :
    Reports s s.yieldSwitch := by
  unfold yieldSwitch
  rw [hcur]
  dsimp only
  have hdemote : KeepsStacks s (s.update pid (fun p => demote { p with cpuTime := 0 }) (fun _ => demote_pid _)) :=
    keepsStacks_update s pid fun _ => kernelRsp_demote _
  generalize s.update pid (fun p => demote { p with cpuTime := 0 }) (fun _ => demote_pid _) = t at hdemote ⊢
  obtain ⟨u, hu, hpick, hsome⟩ := t.selection
  have hkeep : KeepsStacks s u := hdemote.trans hpick
  obtain ⟨p', hp', -⟩ := hkeep.2 pid p hp
  rw [hu]
  cases hnext : t.pickNextPriority.2 with
  | none => exact .stays hkeep
  | some next =>
    obtain ⟨x, hx⟩ := hsome next hnext
    dsimp only
    split
    · exact .stays (hkeep.trans (keepsStacks_update u pid fun _ => rfl))
    · rw [hp']
      exact reports_enter hx (some pid)

theorem reports_timerTick (hcur : s.currentProcess = some pid) (hp : s.getProcess pid = some p) :
    Reports s s.timerTick := by
  have hcharge : KeepsStacks s s.advanceTick.chargeCurrent.1 :=
    (keepsStacks_advanceTick s).trans (keepsStacks_chargeCurrent _)
  unfold timerTick
  generalize s.advanceTick.chargeCurrent = out at hcharge ⊢
  obtain ⟨t, spent⟩ := out
  cases spent with
  | false => exact .stays hcharge
  | true =>
    obtain ⟨u, hu, hpick, hsome⟩ := t.selection
    have hcurt : t.currentProcess = some pid := hcharge.1.trans hcur
    have hkeep : KeepsStacks s u := hcharge.trans hpick
    obtain ⟨p', hp', -⟩ := hkeep.2 pid p hp
    dsimp only
    rw [hu, hcurt]
    cases hnext : t.pickNextPriority.2 with
    | none => exact .stays hkeep
    | some next =>
      obtain ⟨x, hx⟩ := hsome next hnext
      dsimp only
      split
      · -- the current process is selected again
        rename_i hsame
        cases hsame
        have hagain : KeepsStacks u (u.enter none pid).1 := by
          have hrun := @keepsStacks_update u pid (fun p => { p with state := .running }) (fun _ => rfl) fun _ => rfl
          exact ⟨(hkeep.1.trans hcur).symm, hrun.2⟩
        exact .stays (hkeep.trans hagain)
      · rw [Option.bind_some, hp']
        exact reports_enter hx (some pid)

theorem reports_rescheduleIsr (hcur : s.currentProcess = some pid) (hp : s.getProcess pid = some p) :
    Reports s s.rescheduleIsr := by
  obtain ⟨u, hu, hkeep, hsome⟩ := s.selection
  obtain ⟨p', hp', -⟩ := hkeep.2 pid p hp
  unfold rescheduleIsr
  dsimp only
  rw [hu, hcur]
  cases hnext : s.pickNextPriority.2 with
  | none => exact .stays hkeep
  | some next =>
    obtain ⟨x, hx⟩ := hsome next hnext
    dsimp only
    split
    · exact .stays hkeep
    · rw [hp']
      obtain ⟨x', hx', -⟩ := (@keepsStacks_update u pid _ demote_pid kernelRsp_demote).2 next x hx
      exact reports_enter hx' (some pid)

end Scheduler

namespace Kernel

open Scheduler (KeepsStacks Reports)

/-! ### The kernel -/

/-- `CURRENT_PID` is the current process of the scheduler, and the kernel is entered on its stack. -/
def Agrees (k : Kernel) : Prop :=
  k.sched.currentProcess = some k.currentPid ∧ ∃ p, k.sched.getProcess k.currentPid = some p ∧ k.rsp0 = p.kernelRsp

/-- A process besides the current one is ready. -/
def AnotherReady (k : Kernel) : Prop :=
  ∃ q p, k.sched.currentProcess ≠ some q ∧ k.sched.getProcess q = some p ∧ p.state = .ready

/-- The events at which the kernel may leave a process, and the rest of a syscall that has been left. -/
def Event.mayLeave : Event → Bool
  | .syscall r =>
    match r.sys with
    | .yield | .exit | .recv | .recvMsg | .call => true
    | _ => false
  | _ => true

variable {k k' : Kernel} {s : Scheduler} {ret : Ret}

theorem Agrees.of_keeps (h : k.Agrees) (hcur : k'.currentPid = k.currentPid) (hrsp : k'.rsp0 = k.rsp0)
    (hkeep : KeepsStacks k.sched k'.sched) : k'.Agrees := by
  obtain ⟨hsched, p, hp, hstack⟩ := h
  obtain ⟨p', hp', hsame⟩ := hkeep.2 k.currentPid p hp
  refine ⟨?_, p', ?_, ?_⟩
  · rw [hcur, hkeep.1]
    exact hsched
  · rw [hcur]
    exact hp'
  · rw [hrsp, hstack, hsame]

/-- A switch that the scheduler reports is made everywhere. -/
theorem Agrees.switched (h : k.Agrees) {r : Scheduler × Option Switch} (hr : Reports k.sched r) : (k.switched r).Agrees := by
  cases hr with
  | stays hkeep => exact h.of_keeps rfl rfl hkeep
  | @enters s' sw next p hcur hp hrsp =>
    refine ⟨?_, p, ?_, hrsp.symm⟩
    · show s'.currentProcess = some (s'.currentProcess.getD k.currentPid)
      rw [hcur]
      rfl
    · show s'.getProcess (s'.currentProcess.getD k.currentPid) = some p
      rw [hcur]
      exact hp

theorem Agrees.park (h : k.Agrees) (p : Parked) : (k.park k.currentPid p).Agrees := h

theorem Agrees.withSched (h : k.Agrees) (hkeep : KeepsStacks k.sched s) : ({ k with sched := s } : Kernel).Agrees :=
  h.of_keeps rfl rfl hkeep

theorem Agrees.receive (h : k.Agrees) {pid t : Nat} {msg : Option Message} (hr : k.sched.blockingReceive pid t = (s, msg)) :
    ({ k with sched := s } : Kernel).Agrees := by
  have hkeep := k.sched.keepsStacks_blockingReceive pid t
  rw [hr] at hkeep
  exact h.withSched hkeep

theorem Agrees.blockSwitch (h : k.Agrees) (p : Parked) : (k.blockSwitch p).1.Agrees := by
  have ⟨_, x, hx, _⟩ := h
  have hreports := Scheduler.reports_prepareBlockSwitch hx
  unfold Kernel.blockSwitch
  generalize k.sched.prepareBlockSwitch k.currentPid = out at hreports ⊢
  obtain ⟨s, sw⟩ := out
  cases sw with
  | none => exact h.switched hreports
  | some sw => exact (h.park p).switched hreports

theorem Agrees.writeMessage (h : k.Agrees) {ptr : Word} {msg : Message} (hw : k.writeMessage ptr msg = some k') :
    k'.Agrees := by
  obtain ⟨m, -, rfl⟩ := Option.map_eq_some_iff.1 hw
  exact h

theorem Agrees.finishCall (h : k.Agrees) {ptr : Word} (hcall : k.finishCall ptr = some (k', ret)) : k'.Agrees := by
  unfold Kernel.finishCall at hcall
  split at hcall
  · rename_i s reply heq
    obtain ⟨u, hw, hu⟩ := Option.map_eq_some_iff.1 hcall
    cases hu
    exact (h.receive heq).writeMessage hw
  · rename_i s heq
    cases hcall
    exact h.receive heq

private theorem Agrees.sysYield (h : k.Agrees) (hcall : k.sysYield = some (k', ret)) : k'.Agrees := by
  have ⟨hcur, x, hx, _⟩ := h
  have hreports := Scheduler.reports_yieldSwitch hcur hx
  unfold Kernel.sysYield at hcall
  generalize k.sched.yieldSwitch = out at hreports hcall
  obtain ⟨s, sw⟩ := out
  cases sw with
  | none =>
    cases hcall
    exact h.switched hreports
  | some sw =>
    cases hcall
    exact (h.park .yield).switched hreports

/-- When the current process is gone, another one is entered. -/
private theorem Agrees.leave (h : k.Agrees) (hother : k.AnotherReady) :
    ((k.terminateProcess k.currentPid).switched (k.terminateProcess k.currentPid).sched.forceScheduleNext).Agrees := by
  obtain ⟨q, p, hne, hq, hready⟩ := hother
  rw [h.1] at hne
  have hq' : (k.terminateProcess k.currentPid).sched.getProcess q = some p := by
    show (k.sched.terminateProcess k.currentPid).1.getProcess q = some p
    rw [Scheduler.getProcess_terminateProcess, if_neg fun heq => hne (congrArg some heq.symm)]
    exact hq
  have hrun : p.isRunnable = true := by
    unfold Pcb.isRunnable
    rw [hready]
    rfl
  obtain ⟨hreports, hsome⟩ := Scheduler.reports_forceScheduleNext hq' hrun
  generalize (k.terminateProcess k.currentPid).sched.forceScheduleNext = out at hreports hsome
  generalize k.terminateProcess k.currentPid = u at hreports ⊢
  cases hreports with
  | stays => exact absurd rfl hsome
  | @enters s' sw next x hcur hx hrsp =>
    refine ⟨?_, x, ?_, hrsp.symm⟩
    · show s'.currentProcess = some (s'.currentProcess.getD u.currentPid)
      rw [hcur]
      rfl
    · show s'.getProcess (s'.currentProcess.getD u.currentPid) = some x
      rw [hcur]
      exact hx

private theorem Agrees.sysRecv (h : k.Agrees) {a0 : Word} (hcall : k.sysRecv a0 = some (k', ret)) : k'.Agrees := by
  unfold Kernel.sysRecv at hcall
  split at hcall
  · rename_i s msg heq
    cases hcall
    exact h.receive heq
  · rename_i s heq
    have hrecv := h.receive heq
    dsimp only at hcall
    split at hcall
    · cases hcall
      exact hrecv
    · have hblock := hrecv.blockSwitch .recv
      split at hcall <;> rename_i hout <;> rw [hout] at hblock <;> cases hcall <;> exact hblock

private theorem Agrees.sysRecvMsg (h : k.Agrees) {a0 a1 : Word} (hcall : k.sysRecvMsg a0 a1 = some (k', ret)) :
    k'.Agrees := by
  unfold Kernel.sysRecvMsg at hcall
  split at hcall
  · cases hcall
    exact h
  · split at hcall
    · rename_i s msg heq
      obtain ⟨u, hw, hu⟩ := Option.map_eq_some_iff.1 hcall
      cases hu
      exact (h.receive heq).writeMessage hw
    · rename_i s heq
      have hblock := (h.receive heq).blockSwitch .recv
      split at hcall <;> rename_i hout <;> rw [hout] at hblock <;> cases hcall <;> exact hblock

private theorem Agrees.sysCall (h : k.Agrees) {a0 a1 a2 a3 : Word} (hcall : k.sysCall a0 a1 a2 a3 = some (k', ret)) :
    k'.Agrees := by
  unfold Kernel.sysCall at hcall
  split at hcall
  · cases hcall
    exact h
  · split at hcall
    · cases hcall
      exact h
    · split at hcall
      · cases hcall
      · rename_i msg _
        have hkeep := k.sched.keepsStacks_sendMessage k.currentPid (u32 a0) msg
        split at hcall <;> rename_i s hsend <;> rw [hsend] at hkeep <;> have hsent := h.withSched hkeep
        · cases hcall
          exact hsent
        · dsimp only at hcall
          split at hcall
          · cases hcall
            exact hsent
          · split at hcall
            · rename_i s reply heq
              obtain ⟨u, hw, hu⟩ := Option.map_eq_some_iff.1 hcall
              cases hu
              exact (hsent.receive heq).writeMessage hw
            · rename_i s heq
              have hblock := (hsent.receive heq).blockSwitch (.call a2)
              split at hcall <;> rename_i hout <;> rw [hout] at hblock
              · cases hcall
                exact hblock
              · exact hblock.finishCall hcall

private theorem Agrees.resume (h : k.Agrees) (hcall : k.resume = some (k', ret)) : k'.Agrees := by
  unfold Kernel.resume at hcall
  split at hcall
  · cases hcall
  · cases hcall
    exact h
  · cases hcall
    exact h
  · exact Agrees.finishCall (k := k.unpark k.currentPid) h hcall

/-- Messages of an interrupt, then a reschedule. -/
private theorem Agrees.reschedule (h : k.Agrees) (hkeep : KeepsStacks k.sched s) : (k.switched s.rescheduleIsr).Agrees := by
  have hsent : ({ k with sched := s } : Kernel).Agrees := h.withSched hkeep
  have ⟨hcur, x, hx, _⟩ := hsent
  exact hsent.switched (Scheduler.reports_rescheduleIsr hcur hx)

private theorem Agrees.pciIrq (h : k.Agrees) (gsi : Nat) : (k.pciIrq gsi).Agrees := by
  refine h.reschedule ?_
  split
  · exact .refl _
  · exact Scheduler.keepsStacks_sendMessage ..

private theorem Agrees.uartIrq (h : k.Agrees) (bytes : List Byte) : (k.uartIrq bytes).Agrees := by
  refine h.reschedule ?_
  split
  · exact .refl _
  · generalize k.sched = s
    induction bytes generalizing s with
    | nil => exact .refl s
    | cons b bytes ih => exact (Scheduler.keepsStacks_sendMessage ..).trans (ih _)

private theorem Agrees.userFault (h : k.Agrees) (hother : k.AnotherReady) (faultCode : Word) :
    (k.userFault faultCode).Agrees := by
  unfold Kernel.userFault
  dsimp only
  generalize ((Message.new k.currentPid).setData 0 faultCode).setData 1 (BitVec.ofNat 64 k.currentPid) = msg
  have hkeep := k.sched.keepsStacks_sendMessage k.currentPid 1 msg
  have hsent : ({ k with sched := (k.sched.sendMessage k.currentPid 1 msg).1 } : Kernel).Agrees := h.withSched hkeep
  obtain ⟨q, p, hne, hq, hready⟩ := hother
  obtain ⟨p', hp', hready'⟩ := Scheduler.ready_sendMessage k.currentPid 1 msg hq hready
  exact hsent.leave ⟨q, p', by rw [hkeep.1]; exact hne, hp', hready'⟩

/-- One event keeps the three notes in step. -/
theorem Agrees.step (h : k.Agrees) (hother : k.AnotherReady) {e : Event} (hleave : e.mayLeave = true)
    (hstep : k.step e = some (k', ret)) : k'.Agrees := by
  cases e with
  | syscall r =>
    unfold Kernel.step at hstep
    dsimp only at hstep
    split at hstep
    · unfold Event.mayLeave at hleave
      unfold Kernel.dispatch at hstep
      dsimp only at hleave
      cases hsys : r.sys <;> rw [hsys] at hstep hleave <;> first | (cases hleave; done) | dsimp only at hstep
      · exact h.sysYield hstep
      · cases hstep
        exact h.leave hother
      · exact h.sysRecv hstep
      · exact h.sysRecvMsg hstep
      · exact h.sysCall hstep
    · cases hstep
  | resume => exact h.resume hstep
  | tick =>
    cases hstep
    have ⟨hcur, x, hx, _⟩ := h
    exact Agrees.switched (k := { k with tickCount := k.tickCount + 1 }) h (Scheduler.reports_timerTick hcur hx)
  | pciIrq gsi =>
    cases hstep
    exact h.pciIrq gsi
  | uartIrq bytes =>
    cases hstep
    exact h.uartIrq bytes
  | userFault faultCode =>
    unfold Kernel.step at hstep
    dsimp only at hstep
    split at hstep
    · cases hstep
      exact h.userFault hother faultCode
    · cases hstep

/-- The three notes agree after every step of a run in which another process is always ready. -/
theorem identity_agrees {k k' : Kernel} {es : List (Event × Ret)} (hagrees : k.Agrees)
    (hrun : Run step (fun k e => e.mayLeave = true ∧ k.AnotherReady) k es k') : k'.Agrees :=
  hrun.invariant (fun h hguard hstep => Agrees.step h hguard.2 hguard.1 hstep) hagrees

/-- Process 2 of the small kernel runs on its stack. -/
def smallRunning : Kernel :=
  { Kernel.small with
    sched := Scheduler.pair.setCurrent 2
    rsp0 := ((Scheduler.pair.getProcess 2).map Pcb.kernelRsp).getD 0 }

/-- It yields to process 1, which is ready. -/
theorem identity_agrees_yield : ∃ es k, Run step (fun k e => e.mayLeave = true ∧ k.AnotherReady) smallRunning es k ∧
    k.currentPid = 1 ∧ k.Agrees := by
  have htwo : (smallRunning.sched.getProcess 2).any (fun p => decide (smallRunning.rsp0 = p.kernelRsp)) = true := by
    decide
  have hone : (smallRunning.sched.getProcess 1).any (fun p => decide (p.state = .ready)) = true := by decide
  have hyield : (smallRunning.step (.syscall ⟨.yield, 0, 0, 0, 0, 0⟩)).any (fun out => decide (out.1.currentPid = 1)) =
      true := by decide
  obtain ⟨p, hp, hrsp⟩ := (Option.any_eq_true _ _).1 htwo
  obtain ⟨q, hq, hready⟩ := (Option.any_eq_true _ _).1 hone
  obtain ⟨⟨k, ret⟩, hstep, hpid⟩ := (Option.any_eq_true _ _).1 hyield
  have hagrees : smallRunning.Agrees := ⟨rfl, p, hp, of_decide_eq_true hrsp⟩
  have hother : smallRunning.AnotherReady := ⟨1, q, by decide, hq, of_decide_eq_true hready⟩
  have hrun := Run.single (G := fun k e => e.mayLeave = true ∧ k.AnotherReady) ⟨rfl, hother⟩ hstep
  exact ⟨_, k, hrun, of_decide_eq_true hpid, identity_agrees hagrees hrun⟩

end Kernel

end Rost
