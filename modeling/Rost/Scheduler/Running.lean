import Rost.Lib.Run
import Rost.Scheduler.Step

/-!
# At most one running process

`running` is a state of a record, `current_process` a field of the scheduler, and five operations update both by hand.
The invariant is that a running process is the current one (`RunningOnly`).  A switch first takes the running state
away from the current process, so that nobody is running, and then enters the selected process.
-/

namespace Rost

namespace Scheduler

open Lib (Run exec run_of_exec)

/-- A process in state running is the one named by `c`. -/
def RunningOnly (s : Scheduler) (c : Option Nat) : Prop :=
  ∀ q p, s.getProcess q = some p → p.state = .running → c = some q

/-! ### Operations after boot -/

/-- What the kernel may call before the first process runs. -/
def bootOp : Op → Bool
  | .addProcess _ | .addRing3Process _ | .setQuotas .. => true
  | op => op.isQuiet

/-- What the kernel may call in state `s` after boot: a process blocks, waits or ends only as the current one, a block
switch follows a receive that has marked the current process blocked, and a forced selection follows a termination. -/
def kernelOp (s : Scheduler) : Op → Bool
  | .setCurrent _ | .schedule | .yieldCurrent => false
  | .blockingReceive pid _ | .terminateProcess pid => decide (s.currentProcess = some pid)
  | .prepareBlockSwitch pid =>
    decide (s.currentProcess = some pid) && (s.getProcess pid).any fun p => decide (p.state = .blocked)
  | .forceScheduleNext => decide (s.currentProcess = none)
  | _ => true

/-! ### Nobody new is running -/

private theorem runningOnly_of_forall {s s' : Scheduler} {c : Option Nat} (h : s.RunningOnly c)
    (hsub : ∀ q p', s'.getProcess q = some p' → p'.state = .running →
      ∃ p, s.getProcess q = some p ∧ p.state = .running) : s'.RunningOnly c := by
  intro q p' hp' hrun
  obtain ⟨p, hp, hr⟩ := hsub q p' hp' hrun
  exact h q p hp hr

private theorem runningOnly_update {s : Scheduler} {c : Option Nat} (h : s.RunningOnly c) (pid : Nat) {f : Pcb → Pcb}
    {hf : ∀ p, (f p).pid = p.pid} (hstate : ∀ p, (f p).state = .running → p.state = .running) :
    (s.update pid f hf).RunningOnly c := by
  apply runningOnly_of_forall h
  intro q p' hp' hrun
  rw [getProcess_update] at hp'
  split at hp'
  · obtain ⟨p, hp, rfl⟩ := Option.map_eq_some_iff.1 hp'
    exact ⟨p, hp, hstate p hrun⟩
  · exact ⟨p', hp', hrun⟩

/-- When the running process leaves that state, nobody is running. -/
private theorem runningOnly_none_update {s : Scheduler} {pid : Nat} (h : s.RunningOnly (some pid)) {f : Pcb → Pcb}
    {hf : ∀ p, (f p).pid = p.pid} (hstate : ∀ p, (f p).state ≠ .running) :
    (s.update pid f hf).RunningOnly none := by
  intro q p' hp' hrun
  rw [getProcess_update] at hp'
  split at hp'
  · obtain ⟨p, -, rfl⟩ := Option.map_eq_some_iff.1 hp'
    exact absurd hrun (hstate p)
  · rename_i hne
    have hq := Option.some.inj (h q p' hp' hrun)
    exact absurd hq.symm hne

private theorem demote_state_ne (p : Pcb) : (demote p).state ≠ .running := by
  unfold demote
  split
  · intro h; cases h
  · assumption

private theorem preempt_state_ne (tick : Nat) (p : Pcb) : (preempt tick p).state ≠ .running := by
  unfold preempt expire
  simp only
  split <;> exact demote_state_ne _

private theorem refresh_state {tick : Nat} {p : Pcb} (h : (refresh tick p).state = .running) : p.state = .running := by
  have hstate : (refresh tick p).state = (ProcessTable.checkDeadline tick p).state := by
    unfold refresh; simp only; split <;> split <;> rfl
  rw [hstate] at h
  unfold ProcessTable.checkDeadline at h
  split at h
  · cases h
  · exact h

private theorem runningOnly_advanceTick {s : Scheduler} {c : Option Nat} (h : s.RunningOnly c) :
    s.advanceTick.RunningOnly c := by
  apply runningOnly_of_forall h
  intro q p' hp' hrun
  rw [getProcess_advanceTick] at hp'
  obtain ⟨p, hp, rfl⟩ := Option.map_eq_some_iff.1 hp'
  exact ⟨p, hp, refresh_state hrun⟩

/-- A wake-up leads to ready, never to running. -/
private theorem wake_state {st : ProcessState} (h : (if st = .blocked then .ready else st) = .running) :
    st = .running := by
  split at h
  · cases h
  · exact h

/-- The process that is entered is the only running one, if nobody was running. -/
private theorem runningOnly_enter {s : Scheduler} (h : s.RunningOnly none) (i : Nat) (old : Option Nat) (next : Nat) :
    (({ s with queueIndex := i } : Scheduler).enter old next).1.RunningOnly (some next) := by
  intro q p hp hrun
  rw [getProcess_enter] at hp
  split at hp
  · rename_i hq; rw [hq]
  · have := h q p hp hrun; cases this

private theorem runningOnly_switches {s s' : Scheduler} (h : s.RunningOnly none) (hs : Switches s s') :
    s'.RunningOnly s'.currentProcess := by
  cases hs with
  | stay i =>
    intro q p hp hrun
    have := h q p hp hrun; cases this
  | enter i old next _ => exact runningOnly_enter h i old next
  | point i next _ _ =>
    intro q p hp hrun
    have := h q p hp hrun; cases this

private theorem runningOnly_none_of_gone {s : Scheduler} (h : s.RunningOnly s.currentProcess)
    (hgone : s.currentProcess.bind s.getProcess = none) : s.RunningOnly none := by
  intro q p hp hrun
  have hc := h q p hp hrun
  rw [hc, Option.bind_some, hp] at hgone
  cases hgone

/-! ### Each operation -/

private theorem runningOnly_quiet {s s' : Scheduler} (h : s.RunningOnly s.currentProcess) (hq : Quiet s s') :
    s'.RunningOnly s'.currentProcess := by
  rw [hq.currentProcess]
  apply runningOnly_of_forall h
  intro q p' hp' hrun
  have hact := hq.activity q
  rw [hp', Option.map_some] at hact
  obtain ⟨p, hp, heq⟩ := Option.map_eq_some_iff.1 hact.symm
  have hst : p.state = p'.state := congrArg Activity.state heq
  exact ⟨p, hp, hst.trans hrun⟩

private theorem runningOnly_adds {s s' : Scheduler} {base : Word} {r : Option Nat} (h : s.RunningOnly s.currentProcess)
    (ha : Adds base s s' r) : s'.RunningOnly s'.currentProcess := by
  obtain ⟨hcur, -, hcases⟩ := ha
  rw [hcur]
  apply runningOnly_of_forall h
  intro q p' hp' hrun
  rcases hcases with ⟨-, -, hsame⟩ | ⟨-, -, -, id, rsp, hget⟩
  · rw [hsame] at hp'; exact ⟨p', hp', hrun⟩
  · rw [hget] at hp'
    split at hp'
    · rw [← Option.some.inj hp'] at hrun; cases hrun
    · exact ⟨p', hp', hrun⟩

private theorem runningOnly_timerTick {s : Scheduler} (h : s.RunningOnly s.currentProcess) :
    s.timerTick.1.RunningOnly s.timerTick.1.currentProcess := by
  have hadv : s.advanceTick.RunningOnly s.advanceTick.currentProcess := runningOnly_advanceTick h
  rcases s.advanceTick.chargeCurrent_cases with ⟨-, hch⟩ | ⟨cpid, p, hc, -, ⟨-, hch⟩ | ⟨-, hch⟩⟩
  · rcases s.timerTick_cases with ⟨-, heq⟩ | ⟨hflag, -⟩
    · rw [heq, hch]; exact hadv
    · rw [hch] at hflag; cases hflag
  · rcases s.timerTick_cases with ⟨-, heq⟩ | ⟨hflag, -⟩
    · rw [heq, hch]; exact runningOnly_update hadv cpid (fun _ hr => hr)
    · rw [hch] at hflag; cases hflag
  · have hsw := timerTick_switches (s := s) (by rw [hch])
    rw [hch] at hsw
    rw [hc] at hadv
    exact runningOnly_switches (runningOnly_none_update hadv (preempt_state_ne _)) hsw

private theorem runningOnly_yieldSwitch {s : Scheduler} (h : s.RunningOnly s.currentProcess) :
    s.yieldSwitch.1.RunningOnly s.yieldSwitch.1.currentProcess := by
  rcases s.yieldSwitch_cases with ⟨-, heq⟩ | ⟨cpid, hc, hsw⟩
  · rw [heq]; exact h
  · rw [hc] at h
    exact runningOnly_switches (runningOnly_none_update h (fun _ => demote_state_ne _)) hsw

private theorem runningOnly_rescheduleIsr {s : Scheduler} (h : s.RunningOnly s.currentProcess) :
    s.rescheduleIsr.1.RunningOnly s.rescheduleIsr.1.currentProcess := by
  rcases s.rescheduleIsr_cases with ⟨i, heq⟩ | ⟨i, next, -, hgone, heq⟩ | ⟨cpid, next, i, hc, -, -, heq⟩
  · rw [heq]; exact h
  · -- the early return: `current_process` already names a process that is not running yet
    rw [heq]
    intro q p hp hrun
    have := runningOnly_none_of_gone h hgone q p hp hrun
    cases this
  · rw [hc] at h
    rw [heq]
    exact runningOnly_enter (runningOnly_none_update h demote_state_ne) i (some cpid) next

private theorem runningOnly_sendMessage {s : Scheduler} (h : s.RunningOnly s.currentProcess) (fromPid toPid : Nat)
    (msg : Message) : (s.sendMessage fromPid toPid msg).1.RunningOnly
      (s.sendMessage fromPid toPid msg).1.currentProcess := by
  have hcharge : (s.update fromPid (chargeSend toPid) (chargeSend_pid toPid)).RunningOnly s.currentProcess :=
    runningOnly_update h fromPid (fun _ hr => hr)
  rcases s.sendMessage_cases fromPid toPid msg with ⟨-, heq⟩ | ⟨p, -, -, ⟨-, heq⟩ | ⟨-, heq⟩⟩
  · rw [heq]; exact h
  · rw [heq]; exact hcharge
  · rw [heq]
    exact runningOnly_update hcharge toPid (fun p hr => wake_state (by rwa [deliver_state] at hr))

private theorem runningOnly_notifyProcess {s : Scheduler} (h : s.RunningOnly s.currentProcess) (toPid : Nat)
    (word : Word) : (s.notifyProcess toPid word).1.RunningOnly (s.notifyProcess toPid word).1.currentProcess := by
  rcases s.notifyProcess_cases toPid word with ⟨-, heq⟩ | ⟨p, -, heq⟩
  · rw [heq]; exact h
  · rw [heq]
    exact runningOnly_update h toPid (fun p hr => wake_state (by rwa [deliverNotification_state] at hr))

private theorem runningOnly_blockingReceive {s : Scheduler} (h : s.RunningOnly s.currentProcess) (pid t : Nat) :
    (s.blockingReceive pid t).1.RunningOnly (s.blockingReceive pid t).1.currentProcess := by
  rcases s.blockingReceive_cases pid t with
    ⟨-, heq⟩ | ⟨p, -, ⟨msg, rest, -, heq⟩ | ⟨-, -, heq⟩ | ⟨-, -, heq⟩⟩
  · rw [heq]; exact h
  · rw [heq]; exact runningOnly_update h pid (fun _ hr => hr)
  · rw [heq]; exact h
  · rw [heq]; exact runningOnly_update h pid (fun _ hr => by cases hr)

private theorem runningOnly_terminateProcess {s : Scheduler} {pid : Nat} (h : s.RunningOnly (some pid)) :
    (s.terminateProcess pid).1.RunningOnly none := by
  intro q p hp hrun
  rw [getProcess_terminateProcess] at hp
  split at hp
  · cases hp
  · rename_i hne
    exact absurd (Option.some.inj (h q p hp hrun)).symm hne

/-- One operation of the kernel keeps the invariant. -/
theorem runningOnly_step {s s' : Scheduler} {op : Op} {r : Ret} (h : s.RunningOnly s.currentProcess)
    (hop : s.kernelOp op = true) (hstep : s.step op = some (s', r)) : s'.RunningOnly s'.currentProcess := by
  by_cases hquiet : op.isQuiet = true
  · exact runningOnly_quiet h (quiet_of_isQuiet hquiet hstep)
  cases op <;> first | (cases hop; done) | (exact absurd rfl hquiet) | skip
  case addProcess base =>
    obtain ⟨⟨t, r'⟩, hadd, heq⟩ := Option.map_eq_some_iff.1 hstep
    obtain ⟨rfl, -⟩ := Prod.mk.inj heq
    exact runningOnly_adds h (addProcess_adds hadd)
  case addRing3Process base =>
    obtain ⟨⟨t, r'⟩, hadd, heq⟩ := Option.map_eq_some_iff.1 hstep
    obtain ⟨rfl, -⟩ := Prod.mk.inj heq
    exact runningOnly_adds h (addRing3Process_adds hadd)
  all_goals
    simp only [step, Option.some.injEq, Prod.mk.injEq] at hstep
    obtain ⟨rfl, -⟩ := hstep
  case setQuotas pid _ _ _ => exact runningOnly_update h pid (fun _ hr => hr)
  case timerTick => exact runningOnly_timerTick h
  case forceScheduleNext =>
    rw [of_decide_eq_true hop] at h
    exact runningOnly_switches h s.forceScheduleNext_switches
  case prepareBlockSwitch pid =>
    obtain ⟨hc, hb⟩ := Bool.and_eq_true_iff.1 hop
    refine runningOnly_switches ?_ (s.prepareBlockSwitch_switches pid)
    intro q p hp hrun
    have hq := h q p hp hrun
    rw [of_decide_eq_true hc] at hq
    rw [Option.some.inj hq, hp] at hb
    rw [of_decide_eq_true hb] at hrun
    cases hrun
  case rescheduleIsr => exact runningOnly_rescheduleIsr h
  case yieldSwitch => exact runningOnly_yieldSwitch h
  case sendMessage fromPid toPid msg => exact runningOnly_sendMessage h fromPid toPid msg
  case blockingReceive pid t => exact runningOnly_blockingReceive h pid t
  case terminateProcess pid =>
    have hc : s.currentProcess = some pid := of_decide_eq_true hop
    have hnone : (s.terminateProcess pid).1.currentProcess = none := if_pos hc
    rw [hc] at h
    rw [hnone]
    exact runningOnly_terminateProcess h
  case notifyProcess toPid word => exact runningOnly_notifyProcess h toPid word

/-! ### Every run -/

private theorem boot_noneRunning {s s' : Scheduler} {op : Op} {r : Ret}
    (h : s.currentProcess = none ∧ s.RunningOnly none) (hop : bootOp op = true)
    (hstep : s.step op = some (s', r)) : s'.currentProcess = none ∧ s'.RunningOnly none := by
  obtain ⟨hc, hr⟩ := h
  have hkernel : s.kernelOp op = true := by
    cases op <;> first | rfl | cases hop
  have hcur : s'.currentProcess = s.currentProcess := by
    by_cases hquiet : op.isQuiet = true
    · exact (quiet_of_isQuiet hquiet hstep).currentProcess
    · cases op <;> first | (cases hop; done) | (exact absurd rfl hquiet) | skip
      case addProcess base =>
        obtain ⟨⟨t, r'⟩, hadd, heq⟩ := Option.map_eq_some_iff.1 hstep
        obtain ⟨rfl, -⟩ := Prod.mk.inj heq
        exact (addProcess_adds hadd).1
      case addRing3Process base =>
        obtain ⟨⟨t, r'⟩, hadd, heq⟩ := Option.map_eq_some_iff.1 hstep
        obtain ⟨rfl, -⟩ := Prod.mk.inj heq
        exact (addRing3Process_adds hadd).1
      case setQuotas pid _ _ _ =>
        simp only [step, Option.some.injEq, Prod.mk.injEq] at hstep
        rw [← hstep.1]; rfl
  have hinv := runningOnly_step (by rw [hc]; exact hr) hkernel hstep
  rw [hcur, hc] at hinv
  exact ⟨hcur.trans hc, hinv⟩

private theorem length_running_le {s : Scheduler} {c : Option Nat} (h : s.RunningOnly c) :
    (s.processTable.live.filter fun p => decide (p.state = .running)).length ≤ 1 := by
  have hmem : ∀ p ∈ s.processTable.live.filter fun p => decide (p.state = .running), c = some p.pid := by
    intro p hp
    obtain ⟨hlive, hrun⟩ := List.mem_filter.1 hp
    exact h p.pid p (ProcessTable.mem_live_iff.1 hlive) (of_decide_eq_true hrun)
  have hnodup : ((s.processTable.live.filter fun p => decide (p.state = .running)).map Pcb.pid).Nodup :=
    s.processTable.processes.distinct.sublist (List.filter_sublist.map _)
  generalize (s.processTable.live.filter fun p => decide (p.state = .running)) = l at hmem hnodup
  rcases l with _ | ⟨a, _ | ⟨b, l⟩⟩
  · exact Nat.zero_le _
  · exact Nat.le_refl _
  · have hab := (hmem a (by simp)).symm.trans (hmem b (by simp))
    simp [Option.some.inj hab] at hnodup

/-- After boot, in every state of every run at most one process is running, and it is the current one. -/
theorem running_unique {base pid : Nat} {es fs : List (Op × Ret)} {s₀ s : Scheduler}
    (hboot : Run step (fun _ op => bootOp op = true) (new base) es s₀)
    (hrun : Run step (fun t op => t.kernelOp op = true) (s₀.setCurrent pid) fs s) :
    (s.processTable.live.filter fun p => decide (p.state = .running)).length ≤ 1 ∧
    ∀ p ∈ s.processTable.live, p.state = .running → s.currentProcess = some p.pid := by
  have h₀ := hboot.invariant (P := fun t => t.currentProcess = none ∧ t.RunningOnly none) boot_noneRunning
    ⟨rfl, fun q p hp _ => by rw [getProcess_new] at hp; cases hp⟩
  have hset : (s₀.setCurrent pid).RunningOnly (s₀.setCurrent pid).currentProcess := by
    intro q p hp hr
    have := h₀.2 q p hp hr; cases this
  have hinv : s.RunningOnly s.currentProcess := 
    hrun.invariant (P := fun t => t.RunningOnly t.currentProcess) runningOnly_step hset
  exact ⟨length_running_le hinv, fun p hp hr => hinv p.pid p (ProcessTable.mem_live_iff.1 hp) hr⟩

/-- Two processes, of which the second yields to the first and then waits for a message. -/
theorem running_unique_two :
    ∃ es s₀ fs s, Run step (fun _ op => bootOp op = true) (new 0) es s₀ ∧
      Run step (fun t op => t.kernelOp op = true) (s₀.setCurrent 1) fs s ∧ s.currentProcess = some 1 ∧
      (s.processTable.live.filter fun p => decide (p.state = .running)).length ≤ 1 ∧
      ∀ p ∈ s.processTable.live, p.state = .running → s.currentProcess = some p.pid := by
  have h : ((exec step (fun _ op => bootOp op = true) (new 0) [.addProcess 0, .addProcess 0]).bind fun o =>
      exec step (fun t op => t.kernelOp op = true) (o.1.setCurrent 1)
        [.yieldSwitch, .yieldSwitch, .blockingReceive 2 5, .prepareBlockSwitch 2]).any
          (fun o => decide (o.1.currentProcess = some 1)) = true := by decide
  obtain ⟨⟨s, fs⟩, hexec, hcur⟩ := (Option.any_eq_true _ _).1 h
  obtain ⟨⟨s₀, es⟩, hboot, hrun⟩ := Option.bind_eq_some_iff.1 hexec
  exact ⟨es, s₀, fs, s, run_of_exec hboot, run_of_exec hrun, of_decide_eq_true hcur,
    running_unique (run_of_exec hboot) (run_of_exec hrun)⟩

end Scheduler

end Rost
