import Rost.Kernel.Call
import Rost.Scheduler.Selection

/-!
# The two receives

`SYS_RECV` and `SYS_RECV_MSG` share `blocking_receive` and `prepare_block_switch`.  They part at a poll: with timeout 0
and an empty mailbox the process is not marked blocked, and `SYS_RECV` returns at once, but `SYS_RECV_MSG` leaves the
CPU for the next process.  With any other timeout, or with a message to read, both make the same step of the scheduler.
-/

namespace Rost

namespace Scheduler

/-- Without a process that is ready or running, nobody is entered and nothing changes. -/
theorem prepareBlockSwitch_idle {s : Scheduler} (h : s.processTable.getReadyWithPriority = []) (pid : Nat) :
    s.prepareBlockSwitch pid = (s, none) := by
  have hpick : s.pickNextPriority = (s, none) := by
    unfold pickNextPriority
    rw [h]
    rfl
  unfold prepareBlockSwitch
  rw [hpick]

/-- With such a process, a live caller is left for another process. -/
theorem prepareBlockSwitch_leaves {s : Scheduler} (h : s.processTable.getReadyWithPriority ≠ []) {pid : Nat} {p : Pcb}
    (hp : s.getProcess pid = some p) : ∃ s' sw, s.prepareBlockSwitch pid = (s', some sw) := by
  obtain ⟨c, hc⟩ := List.exists_mem_of_ne_nil _ h
  obtain ⟨q, hq, hrun, -⟩ := mem_getReadyWithPriority hc
  obtain ⟨next, hnext⟩ := pickNextPriority_isSome hq hrun
  obtain ⟨x, hx, -⟩ := pickNextPriority_runnable hnext
  obtain ⟨i, hi⟩ := s.pickNextPriority_fst
  have hpick : s.pickNextPriority = ({ s with queueIndex := i }, some next) := Prod.ext hi hnext
  have hp' : ({ s with queueIndex := i } : Scheduler).getProcess pid = some p := hp
  have hx' : ({ s with queueIndex := i } : Scheduler).getProcess next = some x := hx
  unfold prepareBlockSwitch
  rw [hpick]
  simp only [hp']
  unfold enter
  rw [hx']
  exact ⟨_, _, rfl⟩

end Scheduler

namespace Kernel

/-- The buffer at `ptr` lies in user space, and the caller's page tables let the kernel write the message there that a
receive with timeout `a0` returns. -/
def ValidBuffer (k : Kernel) (a0 ptr : Word) : Prop :=
  validateUserPtr ptr messageSize messageAlign = true ∧
    (k.sched.blockingReceive k.currentPid a0.toNat).2.all
      (fun msg => (k.mem.storeBytes k.cr3 ptr msg.toBytes).isSome) = true

instance (k : Kernel) (a0 ptr : Word) : Decidable (k.ValidBuffer a0 ptr) :=
  inferInstanceAs (Decidable (_ ∧ _))

/-- Two syscalls leave the same scheduler behind, and both or neither of them leave the CPU. -/
def SameStep (r₁ r₂ : Option (Kernel × Ret)) : Prop :=
  ∃ k₁ v₁ k₂ v₂, r₁ = some (k₁, v₁) ∧ r₂ = some (k₂, v₂) ∧ k₁.sched = k₂.sched ∧ (v₁ = .parked ↔ v₂ = .parked)

private theorem sysRecv_none {k : Kernel} {a0 : Word} {s : Scheduler}
    (h : k.sched.blockingReceive k.currentPid a0.toNat = (s, none)) :
    k.sysRecv a0 =
      if a0 = 0 then some ({ k with sched := s }, .value (BitVec.ofNat 64 u64Max))
      else
        match ({ k with sched := s } : Kernel).blockSwitch .recv with
        | (k, true) => some (k, .parked)
        | (k, false) => some (k, .value (BitVec.ofNat 64 u64Max)) := by
  unfold sysRecv
  exact h ▸ rfl

private theorem sysRecvMsg_none {k : Kernel} {a0 a1 : Word} {s : Scheduler}
    (hptr : validateUserPtr a1 messageSize messageAlign = true)
    (h : k.sched.blockingReceive k.currentPid a0.toNat = (s, none)) :
    k.sysRecvMsg a0 a1 =
      match ({ k with sched := s } : Kernel).blockSwitch .recv with
      | (k, true) => some (k, .parked)
      | (k, false) => some (k, .value (BitVec.ofNat 64 u64Max)) := by
  unfold sysRecvMsg
  rw [hptr, h]
  rfl

/-- A message that is there is delivered by both calls. -/
private theorem sameStep_message {k : Kernel} {a0 a1 : Word} (hbuf : k.ValidBuffer a0 a1) {s : Scheduler} {msg : Message}
    (h : k.sched.blockingReceive k.currentPid a0.toNat = (s, some msg)) :
    SameStep (k.sysRecv a0) (k.sysRecvMsg a0 a1) := by
  have hcr3 : ({ k with sched := s } : Kernel).cr3 = k.cr3 := by
    unfold cr3
    have hkeep := pml4_blockingReceive k.sched k.currentPid a0.toNat k.currentPid
    rw [h] at hkeep
    exact congrArg (·.getD k.kernelPml4) hkeep
  obtain ⟨hptr, hmapped⟩ := hbuf
  rw [h] at hmapped
  obtain ⟨m, hm⟩ := Option.isSome_iff_exists.1 hmapped
  have hwrite : ({ k with sched := s } : Kernel).writeMessage a1 msg = some { k with sched := s, mem := m } := by
    unfold writeMessage
    rw [hcr3, hm]
    rfl
  refine ⟨{ k with sched := s }, .value (msg.getData 0), { k with sched := s, mem := m }, .value 0, ?_, ?_, rfl, ?_⟩
  · unfold sysRecv
    rw [h]
  · unfold sysRecvMsg
    rw [hptr, h]
    show (({ k with sched := s } : Kernel).writeMessage a1 msg).map _ = _
    rw [hwrite]
    rfl
  · exact ⟨nofun, nofun⟩

/-- The receives make the same step exactly when the call is no poll, or a message is there, or no process is ready or
running. -/
theorem recv_sameStep_iff (k : Kernel) (a0 a1 : Word) {p : Pcb} (hp : k.sched.getProcess k.currentPid = some p)
    (hbuf : k.ValidBuffer a0 a1) :
    SameStep (k.sysRecv a0) (k.sysRecvMsg a0 a1) ↔
      a0 ≠ 0 ∨ p.mailbox.contents ≠ [] ∨ k.sched.processTable.getReadyWithPriority = [] := by
  rcases k.sched.blockingReceive_cases k.currentPid a0.toNat with
    ⟨hnone, -⟩ | ⟨x, hx, ⟨msg, rest, hbox, heq⟩ | ⟨hbox, hzero, heq⟩ | ⟨hbox, hne, heq⟩⟩
  · rw [hp] at hnone; cases hnone
  · cases Option.some.inj (hp.symm.trans hx)
    refine ⟨fun _ => Or.inr (Or.inl ?_), fun _ => sameStep_message hbuf heq⟩
    rw [hbox]
    exact List.cons_ne_nil msg rest
  · cases Option.some.inj (hp.symm.trans hx)
    have ha0 : a0 = 0 := BitVec.eq_of_toNat_eq hzero
    have hrecv := sysRecv_none heq
    rw [if_pos ha0] at hrecv
    have hmsg := sysRecvMsg_none hbuf.1 heq
    rw [hrecv, hmsg]
    by_cases hready : k.sched.processTable.getReadyWithPriority = []
    · have hidle := Scheduler.prepareBlockSwitch_idle hready k.currentPid
      refine ⟨fun _ => Or.inr (Or.inr hready), fun _ => ?_⟩
      unfold blockSwitch
      rw [hidle]
      exact ⟨_, _, _, _, rfl, rfl, rfl, Iff.rfl⟩
    · obtain ⟨s', sw, hleave⟩ := Scheduler.prepareBlockSwitch_leaves hready hp
      constructor
      · rintro ⟨k₁, v₁, k₂, v₂, h₁, h₂, -, hparked⟩
        unfold blockSwitch at h₂
        rw [hleave] at h₂
        cases h₁
        cases h₂
        cases hparked.2 rfl
      · rintro (hne | hne | hno)
        · exact absurd ha0 hne
        · exact absurd hbox hne
        · exact absurd hno hready
  · have ha0 : a0 ≠ 0 := fun h => hne (by rw [h]; rfl)
    have hrecv := sysRecv_none heq
    rw [if_neg ha0] at hrecv
    rw [hrecv, sysRecvMsg_none hbuf.1 heq]
    refine ⟨fun _ => Or.inl ha0, fun _ => ?_⟩
    cases hswitch : ({ k with sched := _ } : Kernel).blockSwitch .recv with
    | mk k' b =>
      cases b with
      | true => exact ⟨k', _, k', _, rfl, rfl, rfl, Iff.rfl⟩
      | false => exact ⟨k', _, k', _, rfl, rfl, rfl, Iff.rfl⟩

/-- Process 2 of the small kernel after process 1 has sent it a message. -/
def smallWithMessage : Kernel :=
  { Kernel.small with sched := (Kernel.small.sched.sendMessage 1 2 (Message.new 1)).1 }

/-- A poll that finds a message makes the same step in both calls. -/
theorem recv_sameStep_iff_message : ∃ p, smallWithMessage.sched.getProcess smallWithMessage.currentPid = some p ∧
    p.mailbox.contents ≠ [] ∧
    SameStep (smallWithMessage.sysRecv 0) (smallWithMessage.sysRecvMsg 0 0x5000) := by
  have hproc : (smallWithMessage.sched.getProcess smallWithMessage.currentPid).any
      (fun p => decide (p.mailbox.contents ≠ [])) = true := by decide +kernel
  have hbuf : smallWithMessage.ValidBuffer 0 0x5000 := by decide +kernel
  obtain ⟨p, hp, hbox⟩ := (Option.any_eq_true _ _).1 hproc
  have hbox := of_decide_eq_true hbox
  exact ⟨p, hp, hbox, (recv_sameStep_iff smallWithMessage 0 0x5000 hp hbuf).2 (Or.inr (Or.inl hbox))⟩

/-- Process 2 polls its empty mailbox: `SYS_RECV` leaves everything as it is, `SYS_RECV_MSG` leaves the CPU. -/
theorem poll_leaves_cpu : Kernel.small.ValidBuffer 0 0x5000 ∧
    ¬ SameStep (Kernel.small.sysRecv 0) (Kernel.small.sysRecvMsg 0 0x5000) := by
  have hrecv : (Kernel.small.sysRecv 0).any (fun out => decide (out.2 ≠ .parked)) = true := by decide +kernel
  have hmsg : (Kernel.small.sysRecvMsg 0 0x5000).any (fun out => decide (out.2 = .parked)) = true := by decide +kernel
  refine ⟨by decide, ?_⟩
  rintro ⟨k₁, v₁, k₂, v₂, h₁, h₂, -, hparked⟩
  rw [h₁] at hrecv
  rw [h₂] at hmsg
  exact of_decide_eq_true hrecv (hparked.2 (of_decide_eq_true hmsg))

end Kernel

end Rost
