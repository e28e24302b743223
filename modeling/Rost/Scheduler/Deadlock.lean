import Rost.Scheduler.Step
import Rost.Lib.Following
import Rost.Lib.Run

/-!
# Deadlock detection

`detect_cycle` decides whether the `waiting_for` links lead from the target to the waiter (`ProcessTable.detectCycle_iff`).  It reads the
links of processes in every state, although a link means something only while its process is blocked; and a send wakes the
target.  So after a send the answer is never about a process that is blocked: it tells a real deadlock exactly when it is
negative (`deadlock_real_iff`).
-/

namespace Rost

open Lib (Linked follows Run exec run_of_exec)
open Relation (TransGen)

namespace ProcessTable

/-- Whom `pid` waits for, according to its record. -/
def link (t : ProcessTable) (pid : Nat) : Option Nat := (t.getProcess pid).bind Pcb.waitingFor

/-- The loop follows the links. -/
private theorem detectCycleFrom_eq (t : ProcessTable) (waiter fuel : Nat) (visited : List Nat) (current : Nat) :
    t.detectCycleFrom waiter fuel visited current = follows t.link waiter fuel visited current := by
  induction fuel generalizing visited current with
  | zero => rfl
  | succ fuel ih =>
    unfold detectCycleFrom follows link
    cases t.getProcess current with
    | none => rfl
    | some p =>
      dsimp only [Option.bind_some]
      cases p.waitingFor with
      | none => simp
      | some next =>
        dsimp only
        rw [ih]
        rfl

/-- A process with a link is in the table. -/
private theorem mem_of_link {t : ProcessTable} {a b : Nat} (h : t.link a = some b) : a ∈ t.live.map Pcb.pid := by
  obtain ⟨p, hp, -⟩ := Option.bind_eq_some_iff.1 h
  exact List.mem_map.2 ⟨p, mem_live_of_getProcess hp, getProcess_pid hp⟩

/-- With more steps than there are slots, the loop finds the waiter exactly when the links lead to it. -/
theorem detectCycleFrom_iff (t : ProcessTable) (waiter target : Nat) {fuel : Nat} (hfuel : maxProcesses < fuel) :
    t.detectCycleFrom waiter fuel [] target = true ↔ TransGen (Linked t.link) target waiter := by
  have hlive : (t.live.map Pcb.pid).length ≤ maxProcesses := by
    rw [List.length_map]
    exact t.processes.length_entries_le
  rw [detectCycleFrom_eq]
  exact Lib.follows_iff (fun _ _ h => mem_of_link h) (Nat.lt_of_le_of_lt hlive hfuel) target

end ProcessTable

namespace Scheduler

/-- The link of `pid`, if it is blocked. -/
def blockedLink (s : Scheduler) (pid : Nat) : Option Nat :=
  (s.getProcess pid).bind fun p => if p.state = .blocked then p.waitingFor else none

/-- The deadlock that is found between `caller` and `target` is a real one: the target is blocked, and from it links of
blocked processes lead to the caller. -/
def DeadlockReal (s : Scheduler) (caller target : Nat) : Prop :=
  s.detectDeadlock caller target = true →
    (s.getProcess target).any (fun p => decide (p.state = .blocked)) = true ∧
      TransGen (Linked s.blockedLink) target caller

/-- Nothing leads from the target to the caller: the target is blocked, so that the message ends its wait, or it is another
process, without links to the caller. -/
def NothingLeadsBack (s : Scheduler) (caller target : Nat) : Prop :=
  (s.getProcess target).any (fun p => decide (p.state = .blocked)) = true ∨
    target ≠ caller ∧ ¬ TransGen (Linked s.processTable.link) target caller

section Send

variable {s s' : Scheduler} {caller target : Nat} {msg : Message}

/-- The record of the target after it has got a message. -/
private theorem target_record (h : s.sendMessage caller target msg = (s', true)) : ∃ p, s.getProcess target = some p ∧
    s'.getProcess target = some (deliver { msg with sender := caller } (if target = caller then chargeSend target p else p)) := by
  rcases s.sendMessage_cases caller target msg with ⟨-, heq⟩ | ⟨p, hp, -, ⟨-, heq⟩ | ⟨-, heq⟩⟩
  · rw [heq] at h
    cases h
  · rw [heq] at h
    cases h
  · rw [heq] at h
    cases h
    refine ⟨p, hp, ?_⟩
    rw [getProcess_log, getProcess_update, if_pos rfl, getProcess_update, hp]
    split <;> rfl

/-- Other processes keep their links, the caller apart. -/
private theorem link_of_other (h : s.sendMessage caller target msg = (s', true)) {q : Nat} (hc : q ≠ caller)
    (ht : q ≠ target) : s'.processTable.link q = s.processTable.link q := by
  have hget : s'.getProcess q = s.getProcess q := by
    rcases s.sendMessage_cases caller target msg with ⟨-, heq⟩ | ⟨p, hp, -, ⟨-, heq⟩ | ⟨-, heq⟩⟩
    · rw [heq] at h
      cases h
    · rw [heq] at h
      cases h
    · rw [heq] at h
      cases h
      rw [getProcess_log, getProcess_update, if_neg ht, getProcess_update, if_neg hc]
  unfold ProcessTable.link
  exact congrArg (Option.bind · Pcb.waitingFor) hget

private theorem deliver_waitingFor (msg : Message) (p : Pcb) :
    (deliver msg p).waitingFor = if p.state = .blocked then none else p.waitingFor := by
  unfold deliver
  simp only
  split <;> rfl

/-- After a send the links lead back from the target to the caller, unless nothing led back before. -/
private theorem leadsBack_iff (h : s.sendMessage caller target msg = (s', true)) :
    TransGen (Linked s'.processTable.link) target caller ↔ ¬ s.NothingLeadsBack caller target := by
  obtain ⟨p, hp, hp'⟩ := target_record h
  have hlink : s'.processTable.link target =
      if p.state = .blocked then none else if target = caller then some target else p.waitingFor := by
    unfold ProcessTable.link
    rw [show s'.processTable.getProcess target = _ from hp']
    rw [Option.bind_some, deliver_waitingFor]
    by_cases hself : target = caller
    · rw [if_pos hself, if_pos hself]
      rfl
    · rw [if_neg hself, if_neg hself]
  have hblocked : (s.getProcess target).any (fun p => decide (p.state = .blocked)) = true ↔ p.state = .blocked := by
    rw [hp]
    exact decide_eq_true_iff
  unfold NothingLeadsBack
  rw [hblocked]
  by_cases hb : p.state = .blocked
  · rw [if_pos hb] at hlink
    -- the message has taken the link of the target
    refine iff_of_false (fun hreach => ?_) (fun hno => hno (Or.inl hb))
    obtain ⟨c, hc, -⟩ := TransGen.head'_iff.1 hreach
    cases hlink.symm.trans hc
  · rw [if_neg hb] at hlink
    by_cases hself : target = caller
    · rw [if_pos hself] at hlink
      -- a process that sends to itself waits for itself
      refine iff_of_true ?_ (by rintro (hb' | ⟨hne, -⟩) <;> contradiction)
      rw [← hself]
      exact TransGen.single hlink
    · rw [if_neg hself] at hlink
      -- only the link of the caller may have changed, and a path that leads to it does not need it
      have hsame : ∀ a, a ≠ caller → s'.processTable.link a = s.processTable.link a := by
        intro a ha
        by_cases hat : a = target
        · subst hat
          rw [hlink]
          unfold ProcessTable.link
          rw [show s.processTable.getProcess a = some p from hp]
          rfl
        · exact link_of_other h ha hat
      rw [Lib.reached_congr hsame hself]
      simp [hb, hself]

/-- After a send the answer tells a real deadlock exactly if nothing led back from the target to the caller: then it is
negative. -/
theorem deadlock_real_iff (h : s.sendMessage caller target msg = (s', true)) :
    s'.DeadlockReal caller target ↔ s.NothingLeadsBack caller target := by
  obtain ⟨p, -, hp'⟩ := target_record h
  have hawake : ¬ (s'.getProcess target).any (fun p => decide (p.state = .blocked)) = true := by
    rw [hp', Option.any_some, decide_eq_true_iff, deliver_state]
    generalize (if target = caller then chargeSend target p else p) = q
    split
    · simp
    · assumption
  have hdetect : s'.detectDeadlock caller target = true ↔ ¬ s.NothingLeadsBack caller target :=
    (s'.processTable.detectCycleFrom_iff caller target (Nat.lt_succ_self _)).trans (leadsBack_iff h)
  unfold DeadlockReal
  rw [hdetect]
  constructor
  · intro himp
    by_contra hno
    exact hawake (himp hno).1
  · intro hnothing hno
    exact absurd hnothing hno

/-- A blocked server is called by a client that it has never heard of. -/
theorem deadlock_real_server :
    ∃ es s s', Run step (fun _ _ => True) (new 0) es s ∧ s.sendMessage 1 2 (Message.new 7) = (s', true) ∧
      s.NothingLeadsBack 1 2 ∧ s'.DeadlockReal 1 2 := by
  have h : (exec step (fun _ _ => True) (new 0) [.addProcess 0, .addProcess 0, .blockingReceive 2 u64Max]).any
      (fun o => (o.1.sendMessage 1 2 (Message.new 7)).2 &&
        (o.1.getProcess 2).any fun p => decide (p.state = .blocked)) = true := by decide
  obtain ⟨⟨s, es⟩, hexec, h⟩ := (Option.any_eq_true _ _).1 h
  obtain ⟨hsent, hblocked⟩ := Bool.and_eq_true_iff.1 h
  have hsend : s.sendMessage 1 2 (Message.new 7) = ((s.sendMessage 1 2 (Message.new 7)).1, true) := Prod.ext rfl hsent
  exact ⟨es, s, _, run_of_exec hexec, hsend, Or.inl hblocked, (deadlock_real_iff hsend).2 (Or.inl hblocked)⟩

/-- Process 1 sends a message to process 2 and goes on running; when process 2 calls it, a deadlock is reported. -/
theorem deadlock_of_stale_link :
    ¬ ∀ es s caller target msg s', Run step (fun _ _ => True) (new 0) es s →
      s.sendMessage caller target msg = (s', true) → s'.DeadlockReal caller target := by
  have h : (exec step (fun _ _ => True) (new 0)
      [.addProcess 0, .addProcess 0, .setCurrent 1, .sendMessage 1 2 (Message.new 7)]).any
      (fun o => (o.1.sendMessage 2 1 (Message.new 7)).2 &&
        ((o.1.sendMessage 2 1 (Message.new 7)).1.detectDeadlock 2 1 &&
        ((o.1.sendMessage 2 1 (Message.new 7)).1.getProcess 1).any fun p => decide (p.state ≠ .blocked))) = true := by
    decide
  obtain ⟨⟨s, es⟩, hexec, h⟩ := (Option.any_eq_true _ _).1 h
  obtain ⟨hsent, h⟩ := Bool.and_eq_true_iff.1 h
  obtain ⟨hdetect, hawake⟩ := Bool.and_eq_true_iff.1 h
  obtain ⟨p, hp, hawake⟩ := (Option.any_eq_true _ _).1 hawake
  intro hall
  have hreal := (hall es s 2 1 (Message.new 7) _ (run_of_exec hexec) (Prod.ext rfl hsent) hdetect).1
  obtain ⟨q, hq, hblocked⟩ := (Option.any_eq_true _ _).1 hreal
  cases hp.symm.trans hq
  exact of_decide_eq_true hawake (of_decide_eq_true hblocked)

end Send

end Scheduler

end Rost
