import Rost.Init.Reports
import Rost.Kernel.Syscall
import Rost.Lib.Run

/-!
# Faults reach the monitor

A process that faults is removed, and `init` is told by an ordinary message in its name.  Such a message is refused by a
full mailbox and by the rate limit of its sender; `userFault_reported_iff` says that nothing else loses it.
-/

namespace Rost

open Lib (Run exec run_of_exec)

namespace Monitor

/-- The message leads to the restart logic for a service that it names. -/
def ReachesRestart (m : Monitor) (ans : Answers) (msg : Message) : Prop :=
  ∃ i svc log, m.services[i]? = some svc ∧ svc.pid = msg.getData 1 ∧
    m.handleMsg ans msg = ({ m with log := log } : Monitor).attemptRestart ans i

theorem reachesRestart_of_fault {m : Monitor} (ans : Answers) {msg : Message} (hop : isFault (msg.getData 0) = true)
    (hwatched : m.Watched (msg.getData 1)) : m.ReachesRestart ans msg := by
  obtain ⟨svc, hmem, hpid⟩ := hwatched
  cases hi : m.watcher (msg.getData 1) with
  | none =>
    have hno := List.findIdx?_eq_none_iff.1 hi svc hmem
    exact absurd hpid (by simpa using hno)
  | some i =>
    obtain ⟨svc', hsvc, hpid'⟩ := watcher_spec hi
    have hi' : ∀ log, ({ m with log := log } : Monitor).watcher (msg.getData 1) = some i := fun _ => hi
    unfold ReachesRestart handleMsg
    dsimp only
    rw [if_pos hop]
    generalize m.log.append (ans.clock 0) _ = log
    refine ⟨i, svc', log, hsvc, hpid', ?_⟩
    rw [hi']

end Monitor

namespace Scheduler

/-- The messages waiting for a process. -/
def waiting (s : Scheduler) (pid : Nat) : Option (List Message) := (s.getProcess pid).map fun p => p.mailbox.contents

theorem waiting_eq_none_iff {s : Scheduler} {pid : Nat} : s.waiting pid = none ↔ s.getProcess pid = none := by
  unfold waiting
  exact Option.map_eq_none_iff

theorem waiting_forceScheduleNext (s : Scheduler) (pid : Nat) : s.forceScheduleNext.1.waiting pid = s.waiting pid := by
  have h := s.forceScheduleNext_switches
  generalize s.forceScheduleNext.1 = s' at h
  unfold waiting
  cases h with
  | stay i => rfl
  | enter i old next hpick =>
    rw [getProcess_enter]
    split
    · rw [Option.map_map]
      rfl
    · rfl
  | point i next hpick hgone => rfl

theorem waiting_terminateProcess (s : Scheduler) (pid q : Nat) :
    (s.terminateProcess pid).1.waiting q = if q = pid then none else s.waiting q := by
  unfold waiting
  rw [getProcess_terminateProcess]
  split <;> rfl

/-- A message is appended to the mailbox, or refused. -/
theorem waiting_sendMessage (s : Scheduler) (fromPid toPid : Nat) (msg : Message) {p : Pcb}
    (hto : s.getProcess toPid = some p) :
    (s.sendMessage fromPid toPid msg).1.waiting toPid =
      if p.mailbox.contents.length < queueCapacity ∧ (s.getProcess fromPid).any rateLimited = false then
        some (p.mailbox.contents ++ [{ msg with sender := fromPid }])
      else some p.mailbox.contents := by
  rcases s.sendMessage_cases fromPid toPid msg with ⟨hno, heq⟩ | ⟨p', hp', hfree, ⟨hfull, heq⟩ | ⟨hlt, heq⟩⟩
  · have hlim : (s.getProcess fromPid).any rateLimited = true := by
      rcases hno with hno | hlim
      · rw [hto] at hno
        cases hno
      · exact hlim
    rw [heq, if_neg (by simp [hlim])]
    unfold waiting
    rw [hto]
    rfl
  · obtain rfl : p = p' := Option.some.inj (hto.symm.trans hp')
    rw [heq, if_neg (by omega)]
    unfold waiting
    rw [getProcess_update, hto]
    split <;> rfl
  · obtain rfl : p = p' := Option.some.inj (hto.symm.trans hp')
    rw [heq, if_pos ⟨hlt, hfree⟩]
    have hdeliver : ∀ q : Pcb, q.mailbox = p.mailbox →
        (deliver { msg with sender := fromPid } q).mailbox.contents =
          p.mailbox.contents ++ [{ msg with sender := fromPid }] := by
      intro q hq
      have hbox : (deliver { msg with sender := fromPid } q).mailbox =
          (q.mailbox.send { msg with sender := fromPid }).1 := by
        unfold deliver
        dsimp only
        split <;> rfl
      rw [hbox, hq]
      exact (MessageQueue.contents_send hlt).2
    unfold waiting
    rw [getProcess_log, getProcess_update, if_pos rfl, getProcess_update, hto]
    split
    · exact congrArg some (hdeliver _ rfl)
    · exact congrArg some (hdeliver _ rfl)

end Scheduler

namespace Kernel

/-- The process is removed, `init` finds exactly one more message, which names the fault and the process and is stamped by
it, and that message leads to the restart logic whenever the process is watched. -/
def FaultReported (k : Kernel) (faultCode : Word) : Prop :=
  (k.userFault faultCode).sched.getProcess k.currentPid = none ∧
  ∃ before report, k.sched.waiting 1 = some before ∧
    (k.userFault faultCode).sched.waiting 1 = some (before ++ [report]) ∧
    report.getData 0 = faultCode ∧ report.getData 1 = BitVec.ofNat 64 k.currentPid ∧ report.sender = k.currentPid ∧
    ∀ (m : Monitor) (ans : Monitor.Answers), Monitor.isFault faultCode = true →
      m.Watched (BitVec.ofNat 64 k.currentPid) → m.ReachesRestart ans report

private theorem userFault_sched (k : Kernel) (faultCode : Word) :
    (k.userFault faultCode).sched =
      ((k.sched.sendMessage k.currentPid 1
        (((Message.new k.currentPid).setData 0 faultCode).setData 1
          (BitVec.ofNat 64 k.currentPid))).1.terminateProcess k.currentPid).1.forceScheduleNext.1 := by
  unfold userFault
  dsimp only
  generalize hout : Scheduler.forceScheduleNext _ = out
  obtain ⟨s, sw⟩ := out
  cases sw <;> exact (congrArg Prod.fst hout).symm

/-- With `init` alive, a fault is reported exactly when `init` is not the process that faults, its mailbox has room, and the
process has not used up its messages of the current window. -/
theorem userFault_reported_iff (k : Kernel) (faultCode : Word) {init : Pcb} (hinit : k.sched.getProcess 1 = some init) :
    k.FaultReported faultCode ↔
      k.currentPid ≠ 1 ∧ init.mailbox.contents.length < queueCapacity ∧
        (k.sched.getProcess k.currentPid).any Scheduler.rateLimited = false := by
  have hbefore : k.sched.waiting 1 = some init.mailbox.contents := by
    unfold Scheduler.waiting
    rw [hinit]
    rfl
  have hafter : ∀ q, (k.userFault faultCode).sched.waiting q = if q = k.currentPid then none else
      (k.sched.sendMessage k.currentPid 1 (((Message.new k.currentPid).setData 0 faultCode).setData 1
        (BitVec.ofNat 64 k.currentPid))).1.waiting q := by
    intro q
    rw [userFault_sched, Scheduler.waiting_forceScheduleNext, Scheduler.waiting_terminateProcess]
  have hinbox := k.sched.waiting_sendMessage k.currentPid 1 (((Message.new k.currentPid).setData 0 faultCode).setData 1
    (BitVec.ofNat 64 k.currentPid)) hinit
  have hcode : (((Message.new k.currentPid).setData 0 faultCode).setData 1
      (BitVec.ofNat 64 k.currentPid)).getData 0 = faultCode := by
    rw [Message.getData_setData _ (by decide), if_neg (by decide), Message.getData_setData _ (by decide), if_pos rfl]
  have hsubject : (((Message.new k.currentPid).setData 0 faultCode).setData 1
      (BitVec.ofNat 64 k.currentPid)).getData 1 = BitVec.ofNat 64 k.currentPid := by
    rw [Message.getData_setData _ (by decide), if_pos rfl]
  generalize ((Message.new k.currentPid).setData 0 faultCode).setData 1 (BitVec.ofNat 64 k.currentPid) = msg at *
  constructor
  · rintro ⟨-, before, report, hb, hreport, -⟩
    obtain rfl : init.mailbox.contents = before := Option.some.inj (hbefore.symm.trans hb)
    rw [hafter 1] at hreport
    split at hreport
    · cases hreport
    · rename_i hne
      rw [hinbox] at hreport
      split at hreport
      · rename_i hroom
        exact ⟨fun h => hne h.symm, hroom⟩
      · -- a refused message leaves the mailbox as it was
        simp at hreport
  · rintro ⟨hne, hroom⟩
    refine ⟨?_, init.mailbox.contents, { msg with sender := k.currentPid }, hbefore, ?_, hcode, hsubject, rfl, ?_⟩
    · rw [← Scheduler.waiting_eq_none_iff, hafter, if_pos rfl]
    · rw [hafter, if_neg (Ne.symm hne), hinbox, if_pos hroom]
    · intro m ans hfault hwatched
      apply Monitor.reachesRestart_of_fault
      · rw [← hcode] at hfault
        exact hfault
      · rw [← hsubject] at hwatched
        exact hwatched

/-- Process 2 of the small kernel faults while `init` waits with an empty mailbox. -/
theorem userFault_reported_small :
    ∃ init, Kernel.small.sched.getProcess 1 = some init ∧ Kernel.small.currentPid = 2 ∧
      Kernel.small.FaultReported Monitor.faultPf := by
  have h : ((Kernel.small.sched.getProcess 1).any fun init =>
      decide (Kernel.small.currentPid ≠ 1 ∧ init.mailbox.contents.length < queueCapacity ∧
        (Kernel.small.sched.getProcess Kernel.small.currentPid).any Scheduler.rateLimited = false)) = true := by
    decide
  obtain ⟨init, hinit, h⟩ := (Option.any_eq_true _ _).1 h
  exact ⟨init, hinit, by decide, (userFault_reported_iff Kernel.small Monitor.faultPf hinit).2 (of_decide_eq_true h)⟩

/-- Process 2 sends 16 messages to `init`, which has not run yet, and then faults: `init` never hears of it. -/
theorem fault_unreported :
    ∃ es s, Run Scheduler.step (fun _ _ => True) (Scheduler.new 0) es s ∧ (s.getProcess 1).isSome = true ∧
      ¬ ({ Kernel.small with sched := s, currentPid := 2 } : Kernel).FaultReported Monitor.faultPf := by
  have h : ((exec Scheduler.step (fun _ _ => True) (Scheduler.new 0)
      ([.addProcess 0, .addProcess 0, .setCurrent 2] ++
        List.replicate 16 (.sendMessage 2 1 (Message.new 2)))).any fun o =>
        (o.1.getProcess 1).isSome && decide ((o.1.waiting 1).map List.length = some 16) &&
        decide (((({ Kernel.small with sched := o.1, currentPid := 2 } : Kernel).userFault
          Monitor.faultPf).sched.waiting 1).map List.length = some 16)) = true := by
    decide +kernel
  obtain ⟨⟨s, es⟩, hrun, h⟩ := (Option.any_eq_true _ _).1 h
  obtain ⟨h, hafter⟩ := Bool.and_eq_true_iff.1 h
  obtain ⟨halive, hbefore⟩ := Bool.and_eq_true_iff.1 h
  refine ⟨es, s, run_of_exec hrun, halive, ?_⟩
  rintro ⟨-, before, report, hb, hreport, -⟩
  have hlen := of_decide_eq_true hbefore
  have hlen' := of_decide_eq_true hafter
  dsimp only at hb hlen hlen'
  rw [hb] at hlen
  rw [hreport] at hlen'
  simp only [Option.map_some, Option.some.injEq, List.length_append, List.length_singleton] at hlen hlen'
  omega

end Kernel

end Rost
