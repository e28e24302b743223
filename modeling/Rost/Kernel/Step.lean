import Rost.Kernel.Syscall
import Rost.Lib.Run
import Rost.Scheduler.Records

/-!
# The kernel as a state machine

The events of the kernel (syscalls of the current process, the rest of a parked syscall, interrupts) as the steps of
one machine, and what a syscall may do to the scheduler: `MayDo` lists the scheduler operations of every syscall, and
`dispatch_run` shows that a syscall is a run of these operations.  So a fact about the operations of the scheduler is
a fact about all syscalls.
-/

namespace Rost

open Lib (Run)

namespace Scheduler

/-- A run of scheduler operations that meet `P`. -/
def Runs (P : Op → Prop) (s s' : Scheduler) : Prop := ∃ es, Run step (fun _ op => P op) s es s'

namespace Runs

variable {P : Op → Prop} {s₁ s₂ s₃ : Scheduler}

theorem refl (s : Scheduler) : Runs P s s := ⟨[], Run.nil s⟩

theorem single {op : Op} {r : Scheduler.Ret} (hop : P op) (h : s₁.step op = some (s₂, r)) : Runs P s₁ s₂ :=
  ⟨[(op, r)], Run.single hop h⟩

theorem trans (h : Runs P s₁ s₂) (h' : Runs P s₂ s₃) : Runs P s₁ s₃ := by
  obtain ⟨es, hes⟩ := h
  obtain ⟨fs, hfs⟩ := h'
  exact ⟨es ++ fs, hes.append hfs⟩

theorem invariant {I : Scheduler → Prop} (hI : ∀ {t u op r}, I t → P op → t.step op = some (u, r) → I u)
    (h : Runs P s₁ s₂) (hs : I s₁) : I s₂ := by
  obtain ⟨es, hes⟩ := h
  exact hes.invariant hI hs

theorem addProcess {base : Word} {r : Option Nat} (hop : P (.addProcess base))
    (h : s₁.addProcess base = some (s₂, r)) : Runs P s₁ s₂ := by
  have hstep : s₁.step (.addProcess base) = some (s₂, .pid r) := by simp only [step, h, Option.map_some]
  exact single hop hstep

theorem addRing3Process {base : Word} {r : Option Nat} (hop : P (.addRing3Process base))
    (h : s₁.addRing3Process base = some (s₂, r)) : Runs P s₁ s₂ := by
  have hstep : s₁.step (.addRing3Process base) = some (s₂, .pid r) := by simp only [step, h, Option.map_some]
  exact single hop hstep

/-- Without sends to `q`, the mailbox of `q` holds a rest of what it held. -/
theorem mail_suffix {q : Nat} (hP : ∀ op, P op → ∀ fromPid msg, op ≠ .sendMessage fromPid q msg)
    (h : Runs P s₁ s₂) : s₂.mail q <:+ s₁.mail q :=
  h.invariant (I := fun u => u.mail q <:+ s₁.mail q) (fun hu hop hstep => (mail_step hstep (hP _ hop)).trans hu)
    (List.suffix_refl _)

end Runs

end Scheduler

namespace Kernel

open Scheduler (Op Runs)

/-! ### Steps -/

/-- What happens next on the CPU. -/
inductive Event where
  | syscall (r : Request)
  | resume
  | tick
  | pciIrq (gsi : Nat)
  | uartIrq (bytes : List Byte)
  | userFault (faultCode : Word)

/-- One event; `none` when the kernel halts.  User code runs, and so calls or faults, only when its process is not
inside a syscall. -/
def step (k : Kernel) : Event → Option (Kernel × Ret)
  | .syscall r => if k.parked k.currentPid = none then k.dispatch r else none
  | .resume => k.resume
  | .tick => some (k.tick, .value 0)
  | .pciIrq gsi => some (k.pciIrq gsi, .value 0)
  | .uartIrq bytes => some (k.uartIrq bytes, .value 0)
  | .userFault code => if k.parked k.currentPid = none then some (k.userFault code, .exited) else none

/-! ### The scheduler operations of a syscall -/

/-- The scheduler operations that a syscall of the current process consists of. -/
def MayDo (k : Kernel) (r : Request) (op : Op) : Prop :=
  match r.sys with
  | .yield => op = .yieldSwitch
  | .exit => op = .terminateProcess k.currentPid ∨ op = .forceScheduleNext
  | .send | .sendMsg => ∃ msg, op = .sendMessage k.currentPid (u32 r.a0) msg
  | .recv | .recvMsg => (∃ t, op = .blockingReceive k.currentPid t) ∨ op = .prepareBlockSwitch k.currentPid
  | .notify => op = .notifyProcess (u32 r.a0) r.a1
  | .spawn => (∃ base, op = .addProcess base) ∨ ∃ pid prio, op = .setPriority pid prio
  | .setprio => ∃ pid prio, op = .setPriority pid prio
  | .setrt => ∃ pid period, op = .setRealtime pid period
  | .setquota => ∃ pid mem cpu ipc, op = .setQuotas pid mem cpu ipc
  | .call =>
    (∃ msg, op = .sendMessage k.currentPid (u32 r.a0) msg) ∨ (∃ t, op = .blockingReceive k.currentPid t) ∨
      op = .prepareBlockSwitch k.currentPid
  | .capGrant => op = .capGrant k.currentPid r.a0.toNat (u32 r.a1)
  | .chanBind => op = .capAlloc k.currentPid ⟨.channel, bindRights r.a1, u32 r.a0⟩
  | .sendCap => ∃ target msg, k.sendTarget r.a0.toNat = some target ∧ op = .sendMessage k.currentPid target msg
  | .map => op = .useMemoryPage k.currentPid
  | .mapShare => op = .useMemoryPage k.currentPid ∨
      ∃ pfn, op = .capAlloc k.currentPid ⟨.memory, capR ||| capW ||| capG, pfn⟩
  | .lookupCap => ∃ name pid, k.readName r.a0 = some name ∧ k.registry.lookup name = some pid ∧
      op = .capAlloc k.currentPid ⟨.channel, capW, pid⟩
  | .spawnElf | .restartServer | .spawnWithVas =>
    (∃ base, op = .addRing3Process base) ∨ (∃ pid prio, op = .setPriority pid prio) ∨
      ∃ pid frames, op = .registerUserFrames pid frames
  | .registerFrames => ∃ frames, op = .appendUserFrames (u32 r.a0) frames
  | _ => False

/-- The syscalls that suspend or end their caller, and those that change the tables of names and of interrupts. -/
def reachesFar : Sys → Bool
  | .yield | .exit | .recv | .recvMsg | .call | .register | .irqRegister => true
  | _ => false

/-- The scheduler has made a run of operations that meet `P`; besides it, at most the memory has changed. -/
structure Does (P : Op → Prop) (k k' : Kernel) : Prop where
  run : Runs P k.sched k'.sched
  rest : k' = { k with sched := k'.sched, mem := k'.mem }

section Handlers

variable {k k' : Kernel} {ret : Ret} {P : Op → Prop}

@[simp] theorem switched_sched (k : Kernel) (r : Scheduler × Option Switch) : (k.switched r).sched = r.1 := by
  unfold switched
  split <;> rfl

@[simp] theorem park_sched (k : Kernel) (pid : Nat) (p : Parked) : (k.park pid p).sched = k.sched := rfl

@[simp] theorem unpark_sched (k : Kernel) (pid : Nat) : (k.unpark pid).sched = k.sched := rfl

private theorem sendFrom_does {toPid : Nat} {msg : Message} {refused : Word}
    (hP : P (.sendMessage k.currentPid toPid msg)) (h : k.sendFrom toPid msg refused = (k', ret)) : Does P k k' := by
  have hsched : k' = { k with sched := (k.sched.sendMessage k.currentPid toPid msg).1 } := by
    unfold sendFrom at h
    split at h <;> rename_i heq <;> cases h <;> rw [heq]
  rw [hsched]
  exact ⟨Runs.single hP rfl, rfl⟩

private theorem capFor_does {cap : Capability} {full : Word} (hP : P (.capAlloc k.currentPid cap))
    (h : k.capFor cap full = (k', ret)) : Does P k k' := by
  have hsched : k' = { k with sched := (k.sched.capAlloc k.currentPid cap).1 } := by
    unfold capFor at h
    split at h <;> rename_i heq <;> cases h <;> rw [heq]
  rw [hsched]
  exact ⟨Runs.single hP rfl, rfl⟩

@[simp] theorem writeMessage_sched {ptr : Word} {msg : Message} (h : k.writeMessage ptr msg = some k') :
    k'.sched = k.sched := by
  obtain ⟨m, -, rfl⟩ := Option.map_eq_some_iff.1 h
  rfl

private theorem blockSwitch_runs {p : Parked} (hP : P (.prepareBlockSwitch k.currentPid)) :
    Runs P k.sched (k.blockSwitch p).1.sched := by
  have hsched : (k.blockSwitch p).1.sched = (k.sched.prepareBlockSwitch k.currentPid).1 := by
    unfold blockSwitch
    split
    · rename_i heq; rw [heq]
    · rename_i heq; rw [heq, switched_sched]
  rw [hsched]
  exact Runs.single hP rfl

/-- A receive whose message, if any, is written to a user buffer. -/
private theorem receive_runs {t : Nat} (hP : P (.blockingReceive k.currentPid t)) :
    Runs P k.sched (k.sched.blockingReceive k.currentPid t).1 := Runs.single hP rfl

theorem finishCall_runs {a2 : Word} (hP : P (.blockingReceive k.currentPid 0))
    (h : k.finishCall a2 = some (k', ret)) : Runs P k.sched k'.sched := by
  have hrecv := receive_runs (k := k) (P := P) hP
  unfold finishCall at h
  split at h
  · rename_i s reply heq
    rw [heq] at hrecv
    obtain ⟨k₂, hw, heq₂⟩ := Option.map_eq_some_iff.1 h
    cases heq₂
    rw [writeMessage_sched hw]
    exact hrecv
  · rename_i s heq
    rw [heq] at hrecv
    cases h
    exact hrecv

private theorem sysYield_runs (hP : P .yieldSwitch) (h : k.sysYield = some (k', ret)) : Runs P k.sched k'.sched := by
  have hsched : k'.sched = k.sched.yieldSwitch.1 := by
    unfold sysYield at h
    split at h <;> rename_i heq <;> cases h <;> rw [heq]
    exact switched_sched _ _
  rw [hsched]
  exact Runs.single hP rfl

private theorem sysExit_runs (hterm : P (.terminateProcess k.currentPid)) (hforce : P .forceScheduleNext)
    (h : k.sysExit = some (k', ret)) : Runs P k.sched k'.sched := by
  cases h
  have h₁ : Runs P k.sched (k.terminateProcess k.currentPid).sched := Runs.single hterm rfl
  refine h₁.trans ?_
  rw [switched_sched]
  exact Runs.single hforce rfl

private theorem sysRecv_runs {a0 : Word} (hrecv : ∀ t, P (.blockingReceive k.currentPid t))
    (hblock : P (.prepareBlockSwitch k.currentPid)) (h : k.sysRecv a0 = some (k', ret)) : Runs P k.sched k'.sched := by
  have hr := receive_runs (hrecv a0.toNat)
  unfold sysRecv at h
  split at h
  · rename_i heq
    rw [heq] at hr
    cases h
    exact hr
  · rename_i s heq
    rw [heq] at hr
    simp only at h
    split at h
    · cases h
      exact hr
    · have hb := blockSwitch_runs (k := { k with sched := s }) (P := P) (p := .recv) hblock
      split at h <;> rename_i heq₂ <;> rw [heq₂] at hb <;> cases h <;> exact hr.trans hb

private theorem sysRecvMsg_runs {a0 a1 : Word} (hrecv : ∀ t, P (.blockingReceive k.currentPid t))
    (hblock : P (.prepareBlockSwitch k.currentPid)) (h : k.sysRecvMsg a0 a1 = some (k', ret)) :
    Runs P k.sched k'.sched := by
  have hr := receive_runs (hrecv a0.toNat)
  unfold sysRecvMsg at h
  split at h
  · cases h
    exact Runs.refl _
  · split at h
    · rename_i s msg heq
      rw [heq] at hr
      obtain ⟨k₂, hw, heq₂⟩ := Option.map_eq_some_iff.1 h
      cases heq₂
      rw [writeMessage_sched hw]
      exact hr
    · rename_i s heq
      rw [heq] at hr
      have hb := blockSwitch_runs (k := { k with sched := s }) (P := P) (p := .recv) hblock
      split at h <;> rename_i heq₂ <;> rw [heq₂] at hb <;> cases h <;> exact hr.trans hb

private theorem sysCall_runs {a0 a1 a2 a3 : Word} (hsend : ∀ msg, P (.sendMessage k.currentPid (u32 a0) msg))
    (hrecv : ∀ t, P (.blockingReceive k.currentPid t)) (hblock : P (.prepareBlockSwitch k.currentPid))
    (h : k.sysCall a0 a1 a2 a3 = some (k', ret)) : Runs P k.sched k'.sched := by
  unfold sysCall at h
  split at h
  · cases h; exact Runs.refl _
  · split at h
    · cases h; exact Runs.refl _
    · split at h
      · cases h
      · rename_i msg _
        have hs : Runs P k.sched (k.sched.sendMessage k.currentPid (u32 a0) msg).1 := Runs.single (hsend msg) rfl
        split at h
        · rename_i heq
          rw [heq] at hs
          cases h
          exact hs
        · rename_i s heq
          rw [heq] at hs
          simp only at h
          split at h
          · cases h; exact hs
          · have hr := receive_runs (k := { k with sched := s }) (P := P) (hrecv (if a3 = 0 then u64Max else a3.toNat))
            simp only at hr
            split at h
            · rename_i s₂ reply heq₂
              rw [heq₂] at hr
              obtain ⟨k₂, hw, heq₃⟩ := Option.map_eq_some_iff.1 h
              cases heq₃
              rw [writeMessage_sched hw]
              exact hs.trans hr
            · rename_i s₂ heq₂
              rw [heq₂] at hr
              have hb := blockSwitch_runs (k := { k with sched := s₂ }) (P := P) (p := .call a2) hblock
              split at h
              · rename_i heq₃
                rw [heq₃] at hb
                cases h
                exact (hs.trans hr).trans hb
              · rename_i k₂ heq₃
                have hcur : k₂.currentPid = k.currentPid := by
                  have : k₂ = (({ k with sched := s₂ } : Kernel).blockSwitch (.call a2)).1 := by rw [heq₃]
                  rw [this]
                  unfold blockSwitch at heq₃ ⊢
                  split at heq₃
                  · rfl
                  · cases heq₃
                rw [heq₃] at hb
                refine ((hs.trans hr).trans hb).trans (finishCall_runs ?_ h)
                rw [hcur]
                exact hrecv 0

private theorem sysSpawn_does {a1 a2 : Word} (hadd : ∀ base, P (.addProcess base))
    (hprio : ∀ pid prio, P (.setPriority pid prio)) (h : k.sysSpawn a1 a2 = some (k', ret)) : Does P k k' := by
  unfold sysSpawn at h
  generalize (if a1 ≠ 0 then a1 else k.kernelPml4) = base at h
  split at h
  · cases h
  · rename_i s heq
    cases h
    exact ⟨Runs.addProcess (hadd base) heq, rfl⟩
  · rename_i s pid heq
    have h₁ := Runs.addProcess (hadd base) heq
    cases h
    refine ⟨h₁.trans ?_, rfl⟩
    simp only
    split
    · exact Runs.single (hprio pid a2.toNat) rfl
    · exact Runs.refl s

private theorem spawnElf_runs {m m' : Memory} {s s' : Scheduler} {kernelPml4 : Word} {img : Image} {priority : Nat}
    {pid : Option Nat} (hadd : ∀ base, P (.addRing3Process base)) (hprio : ∀ pid prio, P (.setPriority pid prio))
    (hreg : ∀ pid frames, P (.registerUserFrames pid frames))
    (h : Elf.spawnElf m s kernelPml4 img priority = some (m', s', pid)) : Runs P s s' := by
  unfold Elf.spawnElf at h
  split at h
  · cases h
  · cases h; exact Runs.refl s
  · rename_i m₁ loaded _
    split at h
    · cases h; exact Runs.refl s
    · rename_i m₂ frames _
      simp only at h
      split at h
      · cases h
      · rename_i s₁ heq
        cases h
        exact Runs.addRing3Process (hadd loaded.pml4Phys) heq
      · rename_i s₁ newPid heq
        have h₁ := Runs.addRing3Process (hadd loaded.pml4Phys) heq
        cases h
        refine (h₁.trans ?_).trans (Runs.single (hreg newPid frames) rfl)
        split
        · exact Runs.single (hprio newPid priority) rfl
        · exact Runs.refl s₁

private theorem spawnImage_does {img : Image} {priority : Nat} (hadd : ∀ base, P (.addRing3Process base))
    (hprio : ∀ pid prio, P (.setPriority pid prio)) (hreg : ∀ pid frames, P (.registerUserFrames pid frames))
    (h : k.spawnImage img priority = some (k', ret)) : Does P k k' := by
  unfold spawnImage at h
  split at h
  · cases h
  · rename_i m s pid heq
    have hrun := spawnElf_runs hadd hprio hreg heq
    simp only at h
    split at h <;> cases h <;> exact ⟨hrun, rfl⟩

private theorem sysSpawnWithVas_does {a0 a1 a2 : Word} (hadd : ∀ base, P (.addRing3Process base))
    (hprio : ∀ pid prio, P (.setPriority pid prio)) (hreg : ∀ pid frames, P (.registerUserFrames pid frames))
    (h : k.sysSpawnWithVas a0 a1 a2 = some (k', ret)) : Does P k k' := by
  unfold sysSpawnWithVas at h
  split at h
  · cases h; exact ⟨Runs.refl _, rfl⟩
  · split at h
    · cases h; exact ⟨Runs.refl _, rfl⟩
    · rename_i m frames _
      split at h
      · cases h
      · rename_i s heq
        cases h
        exact ⟨Runs.addRing3Process (hadd a0) heq, rfl⟩
      · rename_i s pid heq
        have h₁ := Runs.addRing3Process (hadd a0) heq
        cases h
        exact ⟨(h₁.trans (Runs.single (hprio pid _) rfl)).trans (Runs.single (hreg pid frames) rfl), rfl⟩

private theorem sysMap_does {a0 a1 a2 : Word} (hP : P (.useMemoryPage k.currentPid))
    (h : k.sysMap a0 a1 a2 = some (k', ret)) : Does P k k' := by
  unfold sysMap at h
  split at h
  · cases h; exact ⟨Runs.refl _, rfl⟩
  · split at h
    · cases h; exact ⟨Runs.refl _, rfl⟩
    · split at h
      · cases h; exact ⟨Runs.refl _, rfl⟩
      · generalize (if a1 ≠ 0 then (k.mem, some a1) else _ : Memory × Option Word) = source at h
        simp only at h
        split at h
        · cases h; exact ⟨Runs.refl _, rfl⟩
        · split at h
          · cases h
            exact ⟨Runs.single hP rfl, rfl⟩
          · cases h; exact ⟨Runs.refl _, rfl⟩

private theorem sysMapShare_does {a0 a1 : Word} (hP : P (.useMemoryPage k.currentPid))
    (hcap : ∀ pfn, P (.capAlloc k.currentPid ⟨.memory, capR ||| capW ||| capG, pfn⟩))
    (h : k.sysMapShare a0 a1 = some (k', ret)) : Does P k k' := by
  unfold sysMapShare at h
  split at h
  · cases h; exact ⟨Runs.refl _, rfl⟩
  · split at h
    · cases h; exact ⟨Runs.refl _, rfl⟩
    · split at h
      · cases h; exact ⟨Runs.refl _, rfl⟩
      · rename_i m phys _
        simp only at h
        split at h
        · cases h; exact ⟨Runs.refl _, rfl⟩
        · rename_i m₂ _
          have h₁ : Runs P k.sched (k.sched.useMemoryPage k.currentPid) := Runs.single hP rfl
          have hcap' := hcap (u32 (phys >>> 12))
          have hdoes := capFor_does (k := { k with mem := m₂, sched := k.sched.useMemoryPage k.currentPid }) hcap'
            (Option.some.inj h)
          exact ⟨h₁.trans hdoes.run, hdoes.rest⟩

private theorem sysMapCap_does {a0 a1 a2 : Word} (h : k.sysMapCap a0 a1 a2 = some (k', ret)) : Does P k k' := by
  unfold sysMapCap at h
  split at h
  · cases h; exact ⟨Runs.refl _, rfl⟩
  · split at h
    · cases h; exact ⟨Runs.refl _, rfl⟩
    · split at h
      · simp only at h
        split at h <;> cases h <;> exact ⟨Runs.refl _, rfl⟩
      · cases h; exact ⟨Runs.refl _, rfl⟩

end Handlers

/-- A syscall that does not suspend or end its caller, and changes no table, is a run of the operations listed for it, and
changes nothing else but the memory. -/
theorem dispatch_does {k k' : Kernel} {r : Request} {ret : Ret} (h : k.dispatch r = some (k', ret))
    (hsys : reachesFar r.sys = false) : Does (k.MayDo r) k k' := by
  obtain ⟨sys, a0, a1, a2, a3, device⟩ := r
  unfold dispatch at h
  cases sys <;> simp only at h hsys
  case yield | exit | recv | recvMsg | call | register | irqRegister => cases hsys
  case getpid | uartWrite | uartRead | clock | other => cases h; exact ⟨Runs.refl _, rfl⟩
  case send => exact sendFrom_does ⟨_, rfl⟩ (Option.some.inj h)
  case notify =>
    unfold sysNotify at h
    have hrun : Runs (k.MayDo ⟨.notify, a0, a1, a2, a3, device⟩) k.sched (k.sched.notifyProcess (u32 a0) a1).1 :=
      Runs.single rfl rfl
    split at h <;> rename_i heq <;> rw [heq] at hrun <;> cases h <;> exact ⟨hrun, rfl⟩
  case sendMsg =>
    unfold sysSendMsg at h
    split at h
    · cases h; exact ⟨Runs.refl _, rfl⟩
    · obtain ⟨msg, -, heq⟩ := Option.map_eq_some_iff.1 h
      exact sendFrom_does ⟨msg, rfl⟩ heq
  case spawn => exact sysSpawn_does (fun base => Or.inl ⟨base, rfl⟩) (fun pid prio => Or.inr ⟨pid, prio, rfl⟩) h
  case map => exact sysMap_does rfl h
  case lookup =>
    unfold sysLookup at h
    split at h
    · cases h; exact ⟨Runs.refl _, rfl⟩
    · obtain ⟨name, -, heq⟩ := Option.map_eq_some_iff.1 h
      split at heq <;> cases heq <;> exact ⟨Runs.refl _, rfl⟩
  case setprio => cases h; exact ⟨Runs.single ⟨_, _, rfl⟩ rfl, rfl⟩
  case setrt => cases h; exact ⟨Runs.single ⟨_, _, rfl⟩ rfl, rfl⟩
  case setquota => cases h; exact ⟨Runs.single ⟨_, _, _, _, rfl⟩ rfl, rfl⟩
  case capGrant =>
    unfold sysCapGrant at h
    have hrun : Runs (k.MayDo ⟨.capGrant, a0, a1, a2, a3, device⟩) k.sched
        (k.sched.capGrant k.currentPid a0.toNat (u32 a1)).1 := Runs.single rfl rfl
    split at h
    · rename_i heq
      rw [heq] at hrun
      cases h
      exact ⟨hrun, rfl⟩
    · rename_i heq
      rw [heq] at hrun
      simp only at h
      split at h <;> cases h <;> exact ⟨hrun, rfl⟩
  case chanBind =>
    unfold sysChanBind at h
    split at h
    · cases h; exact ⟨Runs.refl _, rfl⟩
    · exact capFor_does rfl (Option.some.inj h)
  case sendCap =>
    unfold sysSendCap at h
    split at h
    · cases h; exact ⟨Runs.refl _, rfl⟩
    · split at h
      · cases h; exact ⟨Runs.refl _, rfl⟩
      · rename_i target htarget
        obtain ⟨msg, -, heq⟩ := Option.map_eq_some_iff.1 h
        exact sendFrom_does ⟨target, msg, htarget, rfl⟩ heq
  case mapShare => exact sysMapShare_does (Or.inl rfl) (fun pfn => Or.inr ⟨pfn, rfl⟩) h
  case mapCap => exact sysMapCap_does h
  case lookupCap =>
    unfold sysLookupCap at h
    split at h
    · cases h; exact ⟨Runs.refl _, rfl⟩
    · obtain ⟨name, hname, heq⟩ := Option.map_eq_some_iff.1 h
      split at heq
      · cases heq; exact ⟨Runs.refl _, rfl⟩
      · rename_i pid hpid
        exact capFor_does ⟨name, pid, hname, hpid, rfl⟩ heq
  case spawnElf =>
    unfold sysSpawnElf at h
    split at h
    · cases h; exact ⟨Runs.refl _, rfl⟩
    · split at h
      · exact spawnImage_does (fun base => Or.inl ⟨base, rfl⟩) (fun pid prio => Or.inr (Or.inl ⟨pid, prio, rfl⟩))
          (fun pid frames => Or.inr (Or.inr ⟨pid, frames, rfl⟩)) h
      · cases h; exact ⟨Runs.refl _, rfl⟩
  case restartServer =>
    unfold sysRestartServer at h
    split at h
    · cases h; exact ⟨Runs.refl _, rfl⟩
    · split at h
      · cases h
      · split at h
        · cases h; exact ⟨Runs.refl _, rfl⟩
        · exact spawnImage_does (fun base => Or.inl ⟨base, rfl⟩) (fun pid prio => Or.inr (Or.inl ⟨pid, prio, rfl⟩))
            (fun pid frames => Or.inr (Or.inr ⟨pid, frames, rfl⟩)) h
  case listProcs =>
    unfold sysListProcs at h
    simp only at h
    split at h
    · cases h; exact ⟨Runs.refl _, rfl⟩
    · obtain ⟨m, -, heq⟩ := Option.map_eq_some_iff.1 h
      cases heq; exact ⟨Runs.refl _, rfl⟩
  case ioportOut | ioportIn =>
    unfold sysIoport at h
    split at h <;> cases h <;> exact ⟨Runs.refl _, rfl⟩
  case physAddr =>
    unfold sysPhysAddr at h
    split at h <;> cases h <;> exact ⟨Runs.refl _, rfl⟩
  case getFramebuf =>
    unfold sysGetFramebuf at h
    split at h
    · cases h; exact ⟨Runs.refl _, rfl⟩
    · split at h
      · cases h; exact ⟨Runs.refl _, rfl⟩
      · obtain ⟨m, -, heq⟩ := Option.map_eq_some_iff.1 h
        cases heq; exact ⟨Runs.refl _, rfl⟩
  case allocPhys =>
    unfold sysAllocPhys at h
    split at h <;> cases h <;> exact ⟨Runs.refl _, rfl⟩
  case createVas =>
    unfold sysCreateVas at h
    split at h <;> cases h <;> exact ⟨Runs.refl _, rfl⟩
  case mapIntoVas =>
    unfold sysMapIntoVas at h
    split at h
    · cases h; exact ⟨Runs.refl _, rfl⟩
    · split at h
      · cases h; exact ⟨Runs.refl _, rfl⟩
      · simp only at h
        split at h <;> cases h <;> exact ⟨Runs.refl _, rfl⟩
  case spawnWithVas =>
    exact sysSpawnWithVas_does (fun base => Or.inl ⟨base, rfl⟩) (fun pid prio => Or.inr (Or.inl ⟨pid, prio, rfl⟩))
      (fun pid frames => Or.inr (Or.inr ⟨pid, frames, rfl⟩)) h
  case registerFrames =>
    unfold sysRegisterFrames at h
    simp only at h
    split at h
    · cases h; exact ⟨Runs.refl _, rfl⟩
    · split at h
      · cases h; exact ⟨Runs.refl _, rfl⟩
      · obtain ⟨bytes, -, heq⟩ := Option.map_eq_some_iff.1 h
        cases heq
        exact ⟨Runs.single ⟨_, rfl⟩ rfl, rfl⟩

/-- A syscall is a run of the scheduler operations listed for it. -/
theorem dispatch_run {k k' : Kernel} {r : Request} {ret : Ret} (h : k.dispatch r = some (k', ret)) :
    Runs (k.MayDo r) k.sched k'.sched := by
  by_cases hsys : reachesFar r.sys = false
  · exact (dispatch_does h hsys).run
  -- the seven that reach further
  obtain ⟨sys, a0, a1, a2, a3, device⟩ := r
  unfold dispatch at h
  cases sys <;> simp only at h <;> try exact absurd rfl hsys
  case yield => exact sysYield_runs rfl h
  case exit => exact sysExit_runs (Or.inl rfl) (Or.inr rfl) h
  case recv => exact sysRecv_runs (fun t => Or.inl ⟨t, rfl⟩) (Or.inr rfl) h
  case recvMsg => exact sysRecvMsg_runs (fun t => Or.inl ⟨t, rfl⟩) (Or.inr rfl) h
  case call =>
    exact sysCall_runs (fun msg => Or.inl ⟨msg, rfl⟩) (fun t => Or.inr (Or.inl ⟨t, rfl⟩)) (Or.inr (Or.inr rfl)) h
  case register =>
    unfold sysRegister at h
    split at h
    · cases h; exact Runs.refl _
    · obtain ⟨name, -, heq⟩ := Option.map_eq_some_iff.1 h
      split at heq <;> cases heq <;> exact Runs.refl _
  case irqRegister =>
    unfold sysIrqRegister at h
    simp only at h
    split at h <;> cases h <;> exact Runs.refl _

/-! ### The scheduler operations of an event -/

/-- The scheduler operations that an event consists of. -/
def EventDoes (k : Kernel) (e : Event) (op : Op) : Prop :=
  match e with
  | .syscall r => k.MayDo r op
  | .resume => op = .blockingReceive k.currentPid 0
  | .tick => op = .timerTick
  | .pciIrq _ | .uartIrq _ => (∃ pid msg, op = .sendMessage 0 pid msg) ∨ op = .rescheduleIsr
  | .userFault _ =>
    (∃ msg, op = .sendMessage k.currentPid 1 msg) ∨ op = .terminateProcess k.currentPid ∨ op = .forceScheduleNext

private theorem resume_runs {k k' : Kernel} {ret : Ret} (h : k.resume = some (k', ret)) :
    Runs (k.EventDoes .resume) k.sched k'.sched := by
  unfold resume at h
  split at h
  · cases h
  · cases h; exact Runs.refl _
  · cases h; exact Runs.refl _
  · exact finishCall_runs (k := k.unpark k.currentPid) rfl h

private theorem pciIrq_runs (k : Kernel) (gsi : Nat) : Runs (k.EventDoes (.pciIrq gsi)) k.sched (k.pciIrq gsi).sched := by
  unfold pciIrq
  rw [switched_sched]
  split
  · exact Runs.single (Or.inr rfl) rfl
  · rename_i pid _
    generalize (Message.new 0).setData 0 (BitVec.ofNat 64 (0xFFFF0000 ||| gsi)) = msg
    have hsend : Runs (k.EventDoes (.pciIrq gsi)) k.sched (k.sched.sendMessage 0 pid msg).1 :=
      Runs.single (Or.inl ⟨pid, msg, rfl⟩) rfl
    exact hsend.trans (Runs.single (Or.inr rfl) rfl)

private theorem foldl_send_runs {P : Op → Prop} (pid : Nat) (hP : ∀ msg, P (.sendMessage 0 pid msg))
    (msg : Byte → Message) (bytes : List Byte) (s : Scheduler) :
    Runs P s (bytes.foldl (fun s b => (s.sendMessage 0 pid (msg b)).1) s) := by
  induction bytes generalizing s with
  | nil => exact Runs.refl s
  | cons b bytes ih =>
    have hsend : Runs P s (s.sendMessage 0 pid (msg b)).1 := Runs.single (hP (msg b)) rfl
    exact hsend.trans (ih _)

private theorem uartIrq_runs (k : Kernel) (bytes : List Byte) :
    Runs (k.EventDoes (.uartIrq bytes)) k.sched (k.uartIrq bytes).sched := by
  unfold uartIrq
  rw [switched_sched]
  split
  · exact Runs.single (Or.inr rfl) rfl
  · rename_i pid _
    have hsends := foldl_send_runs (P := k.EventDoes (.uartIrq bytes)) pid (fun msg => Or.inl ⟨pid, msg, rfl⟩)
      (fun b => ((Message.new 0).setData 0 2).setData 1 (b.setWidth 64)) bytes k.sched
    exact hsends.trans (Runs.single (Or.inr rfl) rfl)

private theorem userFault_runs (k : Kernel) (code : Word) :
    Runs (k.EventDoes (.userFault code)) k.sched (k.userFault code).sched := by
  unfold userFault
  simp only [switched_sched]
  generalize ((Message.new k.currentPid).setData 0 code).setData 1 (BitVec.ofNat 64 k.currentPid) = msg
  have hsend : Runs (k.EventDoes (.userFault code)) k.sched (k.sched.sendMessage k.currentPid 1 msg).1 :=
    Runs.single (Or.inl ⟨msg, rfl⟩) rfl
  have hterm : Runs (k.EventDoes (.userFault code)) (k.sched.sendMessage k.currentPid 1 msg).1
      ((k.sched.sendMessage k.currentPid 1 msg).1.terminateProcess k.currentPid).1 :=
    Runs.single (Or.inr (Or.inl rfl)) rfl
  exact (hsend.trans hterm).trans (Runs.single (Or.inr (Or.inr rfl)) rfl)

/-- An event is a run of the scheduler operations listed for it. -/
theorem step_run {k k' : Kernel} {e : Event} {ret : Ret} (h : k.step e = some (k', ret)) :
    Runs (k.EventDoes e) k.sched k'.sched := by
  cases e with
  | syscall r =>
    simp only [step] at h
    split at h
    · exact dispatch_run h
    · cases h
  | resume => exact resume_runs h
  | tick =>
    simp only [step, Option.some.injEq, Prod.mk.injEq] at h
    obtain ⟨rfl, -⟩ := h
    unfold tick
    rw [switched_sched]
    exact Runs.single rfl rfl
  | pciIrq gsi =>
    simp only [step, Option.some.injEq, Prod.mk.injEq] at h
    obtain ⟨rfl, -⟩ := h
    exact pciIrq_runs k gsi
  | uartIrq bytes =>
    simp only [step, Option.some.injEq, Prod.mk.injEq] at h
    obtain ⟨rfl, -⟩ := h
    exact uartIrq_runs k bytes
  | userFault code =>
    simp only [step] at h
    split at h
    · simp only [Option.some.injEq, Prod.mk.injEq] at h
      obtain ⟨rfl, -⟩ := h
      exact userFault_runs k code
    · cases h

end Kernel

end Rost
