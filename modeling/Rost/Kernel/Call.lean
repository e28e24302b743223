import Rost.Kernel.Step
import Rost.Scheduler.Refinement

/-!
# Calls and replies

`SYS_CALL` sends a request and takes the next message of the caller's mailbox for the reply.  The kernel is run together
with the number of messages that have been put into and taken from every mailbox (`Numbered`): a mailbox is first-in
first-out, so the messages in it have the numbers from `taken` up to `arrived`.  A call that had to wait returns a
message that arrived after its request; a call that found a message waiting returns that one.
-/

namespace Rost

open Lib (Run)

namespace Kernel

open Scheduler (Op Runs)

/-! ### Syscalls in which a process is suspended -/

section Parked

variable {k k' : Kernel} {ret : Ret}

@[simp] theorem switched_parked (k : Kernel) (r : Scheduler × Option Switch) : (k.switched r).parked = k.parked := by
  unfold switched
  split <;> rfl

theorem blockSwitch_parked (k : Kernel) (p : Parked) (q : Nat) :
    (k.blockSwitch p).1.parked q =
      if (k.blockSwitch p).2 = true ∧ q = k.currentPid then some p else k.parked q := by
  unfold blockSwitch
  split
  · simp
  · simp [park]

/-- No process gets into a call. -/
private def NoNewCall (k k' : Kernel) : Prop :=
  ∀ q ptr, k'.parked q = some (.call ptr) → k.parked q = some (.call ptr)

private theorem noNewCall_of_eq (h : k'.parked = k.parked) : NoNewCall k k' := by
  intro q ptr hq
  rwa [h] at hq

private theorem noNewCall_blockSwitch {s : Scheduler} :
    NoNewCall k (({ k with sched := s } : Kernel).blockSwitch .recv).1 := by
  intro q ptr hq
  rw [blockSwitch_parked] at hq
  split at hq
  · cases hq
  · exact hq

theorem writeMessage_parked {ptr : Word} {msg : Message} (h : k.writeMessage ptr msg = some k') :
    k'.parked = k.parked := by
  obtain ⟨m, -, rfl⟩ := Option.map_eq_some_iff.1 h
  rfl

private theorem noNewCall_sysYield (h : k.sysYield = some (k', ret)) : NoNewCall k k' := by
  unfold sysYield at h
  split at h
  · cases h; exact noNewCall_of_eq rfl
  · cases h
    intro q ptr hq
    rw [switched_parked] at hq
    simp only [park] at hq
    split at hq
    · cases hq
    · exact hq

private theorem noNewCall_sysExit (h : k.sysExit = some (k', ret)) : NoNewCall k k' := by
  cases h
  intro q ptr hq
  rw [switched_parked] at hq
  simp only [terminateProcess] at hq
  split at hq
  · cases hq
  · exact hq

private theorem noNewCall_sysRecv {a0 : Word} (h : k.sysRecv a0 = some (k', ret)) : NoNewCall k k' := by
  unfold sysRecv at h
  split at h
  · cases h; exact noNewCall_of_eq rfl
  · rename_i s heq
    simp only at h
    split at h
    · cases h; exact noNewCall_of_eq rfl
    · have hblock := noNewCall_blockSwitch (k := k) (s := s)
      split at h <;> rename_i heq₂ <;> rw [heq₂] at hblock <;> cases h <;> exact hblock

private theorem noNewCall_sysRecvMsg {a0 a1 : Word} (h : k.sysRecvMsg a0 a1 = some (k', ret)) : NoNewCall k k' := by
  unfold sysRecvMsg at h
  split at h
  · cases h; exact noNewCall_of_eq rfl
  · split at h
    · obtain ⟨k₂, hw, heq⟩ := Option.map_eq_some_iff.1 h
      cases heq
      have hparked := writeMessage_parked hw
      exact noNewCall_of_eq hparked
    · rename_i s heq
      have hblock := noNewCall_blockSwitch (k := k) (s := s)
      split at h <;> rename_i heq₂ <;> rw [heq₂] at hblock <;> cases h <;> exact hblock

/-- A syscall other than `SYS_CALL` leaves its caller outside of a call. -/
private theorem noNewCall_dispatch {r : Request} (hr : r.sys ≠ .call) (h : k.dispatch r = some (k', ret)) :
    NoNewCall k k' := by
  by_cases hsys : reachesFar r.sys = false
  · have hparked := congrArg Kernel.parked (dispatch_does h hsys).rest
    exact noNewCall_of_eq hparked
  obtain ⟨sys, a0, a1, a2, a3, device⟩ := r
  unfold dispatch at h
  cases sys <;> simp only at h <;> try exact absurd rfl hsys
  case call => exact absurd rfl hr
  case yield => exact noNewCall_sysYield h
  case exit => exact noNewCall_sysExit h
  case recv => exact noNewCall_sysRecv h
  case recvMsg => exact noNewCall_sysRecvMsg h
  case register =>
    refine noNewCall_of_eq ?_
    unfold sysRegister at h
    split at h
    · cases h; rfl
    · obtain ⟨name, -, heq⟩ := Option.map_eq_some_iff.1 h
      split at heq <;> cases heq <;> rfl
  case irqRegister =>
    refine noNewCall_of_eq ?_
    unfold sysIrqRegister at h
    simp only at h
    split at h <;> cases h <;> rfl

end Parked

/-! ### What an event does to a mailbox -/

section Mail

variable {k k' : Kernel} {ret : Ret}

/-- The operations give the mailbox of `q`, if it lives on, no less than it had. -/
private theorem prefix_of_runs {P : Op → Prop} {s s' : Scheduler} {q : Nat}
    (hP : ∀ op, P op → ∀ t, op ≠ .blockingReceive q t) (h : Runs P s s') :
    s.mail q <+: s'.mail q ∨ s'.mail q = [] := by
  cases hx : s.getProcess q with
  | none => rw [Scheduler.mail_of_none hx]; exact Or.inl (List.nil_prefix)
  | some x =>
    have hnext := ProcessTable.lt_nextPid_of_getProcess hx
    have hinv := h.invariant (I := fun u => s.processTable.nextPid ≤ u.processTable.nextPid ∧
      ∀ y, u.getProcess q = some y → x.mailbox.contents <+: y.mailbox.contents) ?_ ?_
    · cases hx' : s'.getProcess q with
      | none => exact Or.inr (Scheduler.mail_of_none hx')
      | some x' =>
        rw [Scheduler.mail_eq hx, Scheduler.mail_eq hx']
        exact Or.inl (hinv.2 x' hx')
    · intro u v op r hu hop hstep
      refine ⟨Nat.le_trans hu.1 (Scheduler.nextPid_step hstep), fun z hz => ?_⟩
      rcases Scheduler.record_step hstep q z hz with ⟨y, hy, -⟩ | ⟨-, hfresh, -⟩
      · exact (hu.2 y hy).trans (Scheduler.contents_prefix_step hstep (hP op hop) hy hz)
      · -- pids are not used again
        have := hu.1
        omega
    · refine ⟨Nat.le_refl _, fun y hy => ?_⟩
      rw [hx] at hy
      cases hy
      exact List.prefix_refl _

/-! ### The page table of the caller -/

private theorem pml4_update (s : Scheduler) (pid : Nat) {f : Pcb → Pcb} {hf : ∀ p, (f p).pid = p.pid}
    (h : ∀ x, (f x).pageTableBase = x.pageTableBase) (q : Nat) :
    (s.update pid f hf).getProcessPml4 q = s.getProcessPml4 q := by
  unfold Scheduler.getProcessPml4
  rw [Scheduler.getProcess_update]
  split
  · cases s.getProcess q with
    | none => rfl
    | some x => exact congrArg some (h x)
  · rfl

private theorem pml4_sendMessage (s : Scheduler) (fromPid toPid : Nat) (msg : Message) (q : Nat) :
    (s.sendMessage fromPid toPid msg).1.getProcessPml4 q = s.getProcessPml4 q := by
  have hcharge : (s.update fromPid (Scheduler.chargeSend toPid) (Scheduler.chargeSend_pid toPid)).getProcessPml4 q =
      s.getProcessPml4 q := by
    refine pml4_update s fromPid ?_ q
    exact fun _ => rfl
  rcases s.sendMessage_cases fromPid toPid msg with ⟨-, heq⟩ | ⟨p, -, -, ⟨-, heq⟩ | ⟨-, heq⟩⟩
  · rw [heq]
  · rw [heq]; exact hcharge
  · rw [heq]
    refine (pml4_update _ toPid (fun x => ?_) q).trans hcharge
    unfold Scheduler.deliver
    simp only
    split <;> rfl

/-- A receive keeps the page table of every process. -/
theorem pml4_blockingReceive (s : Scheduler) (pid t q : Nat) :
    (s.blockingReceive pid t).1.getProcessPml4 q = s.getProcessPml4 q := by
  rcases s.blockingReceive_cases pid t with ⟨-, heq⟩ | ⟨p, -, ⟨msg, rest, -, heq⟩ | ⟨-, -, heq⟩ | ⟨-, -, heq⟩⟩
  · rw [heq]
  · rw [heq]
    refine pml4_update s pid ?_ q
    exact fun _ => rfl
  · rw [heq]
  · rw [heq]
    refine pml4_update s pid ?_ q
    exact fun _ => rfl

/-! ### The stages of a call -/

/-- The current process takes `reply`, the first message of its mailbox after `new` has arrived, and the kernel writes
it to `ptr`. -/
def HandsBack (k k' : Kernel) (ptr : Word) (new : List Message) (reply : Message) : Prop :=
  k.sched.mail k.currentPid ++ new = reply :: k'.sched.mail k.currentPid ∧
    k.mem.storeBytes k.cr3 ptr reply.toBytes = some k'.mem

theorem finishCall_cases {a2 : Word} (h : k.finishCall a2 = some (k', ret)) :
    k'.parked = k.parked ∧
      ((ret = .value 0 ∧ ∃ reply, HandsBack k k' a2 [] reply) ∨
       (ret = .value etimedout ∧ k.sched.mail k.currentPid = [])) := by
  have hpml4 := pml4_blockingReceive k.sched k.currentPid 0 k.currentPid
  unfold finishCall at h
  split at h
  · rename_i s reply heq
    rw [heq] at hpml4
    obtain ⟨k₂, hw, heq₂⟩ := Option.map_eq_some_iff.1 h
    cases heq₂
    have hparked := writeMessage_parked hw
    refine ⟨hparked, Or.inl ⟨rfl, reply, ?_, ?_⟩⟩
    · rw [List.append_nil, writeMessage_sched hw]
      exact Scheduler.mail_blockingReceive heq
    · obtain ⟨m, hm, rfl⟩ := Option.map_eq_some_iff.1 hw
      unfold cr3 at hm
      rw [hpml4] at hm
      exact hm
  · rename_i s heq
    cases h
    exact ⟨rfl, Or.inr ⟨rfl, (Scheduler.mail_blockingReceive_none heq).1⟩⟩

private theorem mail_prepareBlockSwitch {s : Scheduler} (pid : Nat) {q : Nat} (h : s.mail q = []) :
    (s.prepareBlockSwitch pid).1.mail q = [] := by
  have hstep : s.step (.prepareBlockSwitch pid) =
      some ((s.prepareBlockSwitch pid).1, .switch (s.prepareBlockSwitch pid).2) := rfl
  have hsuffix := Scheduler.mail_step (q := q) hstep fun _ _ hop => by cases hop
  rw [h] at hsuffix
  exact List.suffix_nil.1 hsuffix

private theorem blockSwitch_sched (k : Kernel) (p : Parked) :
    (k.blockSwitch p).1.sched = (k.sched.prepareBlockSwitch k.currentPid).1 := by
  unfold blockSwitch
  split
  · rename_i heq; rw [heq]
  · rename_i heq; rw [heq, switched_sched]

/-- A call ends at once with the first waiting message, parks its caller after finding no message, or fails. -/
theorem sysCall_cases {a0 a1 a2 a3 : Word} (h : k.sysCall a0 a1 a2 a3 = some (k', ret)) :
    (ret = .value 0 ∧ k'.parked = k.parked ∧ ∃ new reply, HandsBack k k' a2 new reply ∧
      new.length = if u32 a0 = k.currentPid then 1 else 0) ∨
    (ret = .parked ∧ u32 a0 ≠ k.currentPid ∧ k.sched.mail k.currentPid = [] ∧ k'.sched.mail k.currentPid = [] ∧
      ∀ q, q ≠ k.currentPid → k'.parked q = k.parked q) ∨
    ((∃ v, v ≠ 0 ∧ ret = .value v) ∧ k'.parked = k.parked ∧ k.sched.mail k.currentPid <+: k'.sched.mail k.currentPid) := by
  have herror : ∀ {k₂ : Kernel} {v : Word}, v ≠ 0 → k₂.parked = k.parked →
      k.sched.mail k.currentPid <+: k₂.sched.mail k.currentPid →
      (∃ w, w ≠ 0 ∧ Ret.value v = .value w) ∧ k₂.parked = k.parked ∧
        k.sched.mail k.currentPid <+: k₂.sched.mail k.currentPid := fun hv hp hm => ⟨⟨_, hv, rfl⟩, hp, hm⟩
  unfold sysCall at h
  split at h
  · cases h; exact Or.inr (Or.inr (herror (by decide) rfl (List.prefix_refl _)))
  · split at h
    · cases h; exact Or.inr (Or.inr (herror (by decide) rfl (List.prefix_refl _)))
    · split at h
      · cases h
      · rename_i msg _
        have hpml4 := pml4_sendMessage k.sched k.currentPid (u32 a0) msg k.currentPid
        split at h
        · rename_i s hsend
          cases h
          refine Or.inr (Or.inr (herror (by decide) rfl ?_))
          exact ⟨[], by rw [List.append_nil, Scheduler.mail_sendMessage_refused hsend]⟩
        · rename_i s hsend
          have hmail := Scheduler.mail_sendMessage hsend k.currentPid
          rw [hsend] at hpml4
          simp only at h
          split at h
          · cases h
            refine Or.inr (Or.inr (herror (by decide) rfl ?_))
            rw [hmail]
            exact List.prefix_append _ _
          · generalize (if a3 = 0 then u64Max else a3.toNat) = timeout at h
            have hpml4' := pml4_blockingReceive s k.currentPid timeout k.currentPid
            split at h
            · -- a message is waiting
              rename_i s₂ reply hrecv
              rw [hrecv] at hpml4'
              obtain ⟨k₂, hw, heq⟩ := Option.map_eq_some_iff.1 h
              cases heq
              have hparked := writeMessage_parked hw
              refine Or.inl ⟨rfl, hparked, if k.currentPid = u32 a0 then [{ msg with sender := k.currentPid }] else [],
                reply, ⟨?_, ?_⟩, ?_⟩
              · rw [← hmail, writeMessage_sched hw]
                exact Scheduler.mail_blockingReceive hrecv
              · obtain ⟨m, hm, rfl⟩ := Option.map_eq_some_iff.1 hw
                unfold cr3 at hm
                rw [hpml4', hpml4] at hm
                exact hm
              · by_cases hself : u32 a0 = k.currentPid
                · rw [if_pos hself, if_pos hself.symm]; rfl
                · rw [if_neg hself, if_neg fun h => hself h.symm]; rfl
            · -- the mailbox is empty, so the request went to another process
              rename_i s₂ hrecv
              obtain ⟨hempty, hsame⟩ := Scheduler.mail_blockingReceive_none hrecv
              rw [hmail] at hempty
              obtain ⟨hempty₀, hnone⟩ := List.append_eq_nil_iff.1 hempty
              have hother : u32 a0 ≠ k.currentPid := by
                intro hself
                rw [if_pos hself.symm] at hnone
                cases hnone
              have hempty₂ : s₂.mail k.currentPid = [] := by rw [hsame, hmail, hempty]
              have hparked := blockSwitch_parked ({ k with sched := s₂ } : Kernel) (.call a2)
              have hsched := blockSwitch_sched ({ k with sched := s₂ } : Kernel) (.call a2)
              have hempty₃ := mail_prepareBlockSwitch k.currentPid hempty₂
              split at h
              · rename_i k₂ hblock
                rw [hblock] at hparked hsched
                cases h
                refine Or.inr (Or.inl ⟨rfl, hother, hempty₀, ?_, fun q hq => ?_⟩)
                · rw [hsched]; exact hempty₃
                · rw [hparked, if_neg fun h => hq h.2]
              · rename_i k₂ hblock
                have hcur : k₂.currentPid = k.currentPid := by
                  unfold blockSwitch at hblock
                  split at hblock
                  · cases hblock; rfl
                  · cases hblock
                rw [hblock] at hparked hsched
                have hparked₂ : k₂.parked = k.parked := by
                  funext q
                  rw [hparked, if_neg fun h => by cases h.1]
                have hempty₄ : k₂.sched.mail k₂.currentPid = [] := by
                  rw [hcur, hsched]
                  exact hempty₃
                obtain ⟨hparked₃, ⟨-, reply, hreply, -⟩ | ⟨rfl, -⟩⟩ := finishCall_cases h
                · rw [hempty₄] at hreply; cases hreply
                · refine Or.inr (Or.inr (herror (by decide) (hparked₃.trans hparked₂) ?_))
                  rw [hempty₀]
                  exact List.nil_prefix

private theorem sysCall_of_step {r : Request} (hsys : r.sys = .call)
    (h : k.step (.syscall r) = some (k', ret)) :
    k.parked k.currentPid = none ∧ k.sysCall r.a0 r.a1 r.a2 r.a3 = some (k', ret) := by
  simp only [step] at h
  split at h
  · rename_i hidle
    refine ⟨hidle, ?_⟩
    unfold dispatch at h
    simpa only [hsys] using h
  · cases h

/-- The event ends a `SYS_CALL` of the current process with 0. -/
def endsCall (k : Kernel) : Event → Ret → Bool
  | .syscall r, .value v => decide (r.sys = .call) && decide (v = 0)
  | .resume, .value v =>
    match k.parked k.currentPid with
    | some (.call _) => decide (v = 0)
    | _ => false
  | _, _ => false

/-- The reply buffer of the call that the event makes or goes on with. -/
def replyPtr (k : Kernel) : Event → Word
  | .syscall r => r.a2
  | _ =>
    match k.parked k.currentPid with
    | some (.call ptr) => ptr
    | _ => 0

theorem handsBack_of_endsCall {e : Event} (h : k.step e = some (k', ret)) (hends : k.endsCall e ret = true) :
    ∃ new reply, HandsBack k k' (k.replyPtr e) new reply ∧
      ((e = .resume ∧ new = []) ∨ ∃ r, e = .syscall r ∧ r.sys = .call ∧
        new.length = if u32 r.a0 = k.currentPid then 1 else 0) := by
  unfold endsCall at hends
  split at hends
  · rename_i r v
    simp only [Bool.and_eq_true, decide_eq_true_eq] at hends
    obtain ⟨hsys, rfl⟩ := hends
    obtain ⟨-, hcall⟩ := sysCall_of_step hsys h
    rcases sysCall_cases hcall with ⟨-, -, new, reply, hback, hlen⟩ | ⟨hret, -⟩ | ⟨⟨v, hv, hret⟩, -⟩
    · exact ⟨new, reply, hback, Or.inr ⟨r, rfl, hsys, hlen⟩⟩
    · cases hret
    · cases hret; exact absurd rfl hv
  · rename_i v
    cases hp : k.parked k.currentPid with
    | none => rw [hp] at hends; cases hends
    | some p =>
      cases p with
      | yield | recv => rw [hp] at hends; cases hends
      | call ptr =>
        rw [hp] at hends
        simp only [decide_eq_true_eq] at hends
        subst hends
        simp only [step, resume, hp] at h
        obtain ⟨-, ⟨-, reply, hback⟩ | ⟨hret, -⟩⟩ := finishCall_cases h
        · refine ⟨[], reply, ?_, Or.inl ⟨rfl, rfl⟩⟩
          unfold replyPtr
          rw [hp]
          exact hback
        · cases hret
  · cases hends

/-- Only a call may both send to its caller and receive. -/
private theorem sysCall_of_sends_receives {e : Event} {q t fromPid : Nat} {msg : Message}
    (hsend : k.EventDoes e (.sendMessage fromPid q msg)) (hrecv : k.EventDoes e (.blockingReceive q t)) :
    ∃ r, e = .syscall r ∧ r.sys = .call ∧ q = k.currentPid := by
  cases e with
  | resume | tick => cases hsend
  | pciIrq _ | uartIrq _ =>
    rcases hrecv with ⟨pid, m, h⟩ | h
    · cases h
    · cases h
  | userFault code =>
    rcases hrecv with ⟨m, h⟩ | h | h
    · cases h
    · cases h
    · cases h
  | syscall r =>
    obtain ⟨sys, a0, a1, a2, a3, device⟩ := r
    simp only [EventDoes, MayDo] at hsend hrecv
    cases sys <;> simp only [reduceCtorEq, or_false, false_or, exists_false, and_false] at hsend hrecv
    case call =>
      obtain ⟨t', heq⟩ := hrecv
      cases heq
      exact ⟨_, rfl, rfl, rfl⟩

private theorem mail_event_shape {e : Event} {q : Nat} (h : k.step e = some (k', ret))
    (hends : ¬ (q = k.currentPid ∧ k.endsCall e ret = true)) :
    k'.sched.mail q <:+ k.sched.mail q ∨ k.sched.mail q <+: k'.sched.mail q := by
  by_cases hsend : ∃ fromPid msg, k.EventDoes e (.sendMessage fromPid q msg)
  · obtain ⟨fromPid, msg, hsend⟩ := hsend
    by_cases hrecv : ∃ t, k.EventDoes e (.blockingReceive q t)
    · obtain ⟨t, hrecv⟩ := hrecv
      obtain ⟨r, rfl, hsys, rfl⟩ := sysCall_of_sends_receives hsend hrecv
      obtain ⟨-, hcall⟩ := sysCall_of_step hsys h
      rcases sysCall_cases hcall with ⟨rfl, -⟩ | ⟨-, -, -, hempty, -⟩ | ⟨-, -, hprefix⟩
      · exact absurd ⟨rfl, by simp [endsCall, hsys]⟩ hends
      · rw [hempty]; exact Or.inl List.nil_suffix
      · exact Or.inr hprefix
    · rcases prefix_of_runs (fun op hop t heq => hrecv ⟨t, heq ▸ hop⟩) (step_run h) with hprefix | hempty
      · exact Or.inr hprefix
      · rw [hempty]; exact Or.inl List.nil_suffix
  · exact Or.inl ((step_run h).mail_suffix fun op hop fromPid msg heq => hsend ⟨fromPid, msg, heq ▸ hop⟩)

/-- How many messages an event takes from the mailbox of `q`: the reply of a call, else what the mailbox has lost. -/
def takes (k k' : Kernel) (e : Event) (ret : Ret) (q : Nat) : Nat :=
  if q = k.currentPid ∧ k.endsCall e ret = true then 1 else (k.sched.mail q).length - (k'.sched.mail q).length

/-- How many messages an event puts into the mailbox of `q`. -/
def puts (k k' : Kernel) (e : Event) (ret : Ret) (q : Nat) : Nat :=
  (k'.sched.mail q).length + k.takes k' e ret q - (k.sched.mail q).length

/-- An event puts messages at the end of a mailbox, then takes messages from its front, as many as are counted. -/
theorem mail_event {e : Event} (h : k.step e = some (k', ret)) (q : Nat) :
    ∃ new, new.length = k.puts k' e ret q ∧ k'.sched.mail q = (k.sched.mail q ++ new).drop (k.takes k' e ret q) := by
  unfold puts takes
  by_cases hends : q = k.currentPid ∧ k.endsCall e ret = true
  · rw [if_pos hends]
    obtain ⟨new, reply, ⟨hmail, -⟩, -⟩ := handsBack_of_endsCall h hends.2
    rw [← hends.1] at hmail
    refine ⟨new, ?_, by rw [hmail]; rfl⟩
    have hlen := congrArg List.length hmail
    simp only [List.length_append, List.length_cons] at hlen
    omega
  · rw [if_neg hends]
    rcases mail_event_shape h hends with hsuffix | ⟨new, hnew⟩
    · refine ⟨[], ?_, ?_⟩
      · have := hsuffix.length_le
        simp only [List.length_nil]
        omega
      · rw [List.append_nil]
        exact List.suffix_iff_eq_drop.1 hsuffix
    · have hlen := congrArg List.length hnew
      rw [List.length_append] at hlen
      refine ⟨new, by omega, ?_⟩
      rw [show (k.sched.mail q).length - (k'.sched.mail q).length = 0 by omega, List.drop_zero, hnew]

theorem length_le_of_event {e : Event} (h : k.step e = some (k', ret)) (q : Nat) :
    (k.sched.mail q).length ≤ (k'.sched.mail q).length + k.takes k' e ret q := by
  unfold takes
  by_cases hends : q = k.currentPid ∧ k.endsCall e ret = true
  · rw [if_pos hends]
    obtain ⟨new, reply, ⟨hmail, -⟩, -⟩ := handsBack_of_endsCall h hends.2
    have hlen := congrArg List.length hmail
    simp only [List.length_append, List.length_cons] at hlen
    rw [hends.1]
    omega
  · rw [if_neg hends]
    omega

end Mail

/-! ### Numbered messages -/

/-- What is noted of a `SYS_CALL` when it is made. -/
structure CallNote where
  target : Nat
  /-- The messages in the caller's mailbox before the call. -/
  waiting : List Message
  /-- How many messages had ever been put into the caller's mailbox when the request was sent. -/
  mark : Nat

/-- A kernel with the numbers of messages put into and taken from every mailbox, and the last call of every process. -/
structure Numbered where
  kernel : Kernel
  arrived : Nat → Nat
  taken : Nat → Nat
  call : Nat → CallNote

namespace Numbered

def start (k : Kernel) : Numbered := ⟨k, fun q => (k.sched.mail q).length, fun _ => 0, fun _ => ⟨0, [], 0⟩⟩

/-- The note of the call that the event makes; `arrived` counts the messages after the event. -/
def note (a : Numbered) (e : Event) (arrived : Nat → Nat) (q : Nat) : CallNote :=
  match e with
  | .syscall r =>
    if r.sys = .call ∧ q = a.kernel.currentPid then ⟨u32 r.a0, a.kernel.sched.mail q, arrived q⟩ else a.call q
  | _ => a.call q

def step (a : Numbered) (e : Event) : Option (Numbered × Ret) :=
  (a.kernel.step e).map fun out =>
    let arrived := fun q => a.arrived q + a.kernel.puts out.1 e out.2 q
    (⟨out.1, arrived, fun q => a.taken q + a.kernel.takes out.1 e out.2 q, a.note e arrived⟩, out.2)

/-- The reply that the current process takes in the state `a` arrived after the request of the call was sent. -/
def NewReply (a a' : Numbered) : Prop := (a'.call a.kernel.currentPid).mark ≤ a.taken a.kernel.currentPid

/-- The numbers fit the mailboxes, and a process that waits in a call had no message when it called another process, so
every message it can get is new. -/
structure Inv (a : Numbered) : Prop where
  count : ∀ q, a.arrived q = a.taken q + (a.kernel.sched.mail q).length
  waits : ∀ p ptr, a.kernel.parked p = some (.call ptr) →
    (a.call p).waiting = [] ∧ (a.call p).target ≠ p ∧ (a.call p).mark ≤ a.taken p

private theorem noNewCall_resume {k k' : Kernel} {ret : Ret} (h : k.resume = some (k', ret)) : NoNewCall k k' := by
  have hunpark : NoNewCall k (k.unpark k.currentPid) := by
    intro q ptr hq
    simp only [unpark] at hq
    split at hq
    · cases hq
    · exact hq
  unfold resume at h
  split at h
  · cases h
  · cases h; exact hunpark
  · cases h; exact hunpark
  · intro q ptr hq
    rw [(finishCall_cases h).1] at hq
    exact hunpark q ptr hq

private theorem noNewCall_userFault (k : Kernel) (code : Word) : NoNewCall k (k.userFault code) := by
  intro q ptr hq
  unfold userFault at hq
  simp only [switched_parked, terminateProcess] at hq
  split at hq
  · cases hq
  · exact hq

/-- Only `SYS_CALL` brings a process into a call. -/
private theorem noNewCall_step {k k' : Kernel} {e : Event} {ret : Ret} (he : ∀ r, e = .syscall r → r.sys ≠ .call)
    (h : k.step e = some (k', ret)) : NoNewCall k k' := by
  cases e with
  | syscall r =>
    simp only [Kernel.step] at h
    split at h
    · exact noNewCall_dispatch (he r rfl) h
    · cases h
  | resume => exact noNewCall_resume h
  | tick =>
    cases h
    refine noNewCall_of_eq ?_
    unfold tick
    rw [switched_parked]
  | pciIrq gsi =>
    cases h
    refine noNewCall_of_eq ?_
    unfold pciIrq
    rw [switched_parked]
  | uartIrq bytes =>
    cases h
    refine noNewCall_of_eq ?_
    unfold uartIrq
    rw [switched_parked]
  | userFault code =>
    simp only [Kernel.step] at h
    split at h
    · cases h; exact noNewCall_userFault k code
    · cases h

theorem inv_start {k : Kernel} (h : ∀ p, k.parked p = none) : (start k).Inv where
  count q := (Nat.zero_add _).symm
  waits p ptr hp := by
    have hp' : k.parked p = some (.call ptr) := hp
    rw [h p] at hp'
    cases hp'

theorem step_spec {a a' : Numbered} {e : Event} {ret : Ret} (h : a.step e = some (a', ret)) :
    a.kernel.step e = some (a'.kernel, ret) ∧ (∀ q, a'.arrived q = a.arrived q + a.kernel.puts a'.kernel e ret q) ∧
      (∀ q, a'.taken q = a.taken q + a.kernel.takes a'.kernel e ret q) ∧ ∀ q, a'.call q = a.note e a'.arrived q := by
  obtain ⟨⟨k', ret'⟩, hk, heq⟩ := Option.map_eq_some_iff.1 h
  simp only [Prod.mk.injEq] at heq
  obtain ⟨rfl, rfl⟩ := heq
  exact ⟨hk, fun q => rfl, fun q => rfl, fun q => rfl⟩

theorem inv_step {a a' : Numbered} {e : Event} {ret : Ret} (h : a.Inv) (hstep : a.step e = some (a', ret)) :
    a'.Inv := by
  obtain ⟨hk, harrived, htaken, hnote⟩ := step_spec hstep
  have hcount : ∀ q, a'.arrived q = a'.taken q + (a'.kernel.sched.mail q).length := by
    intro q
    have hlen := length_le_of_event hk q
    have hold := h.count q
    rw [harrived, htaken]
    unfold puts
    omega
  refine ⟨hcount, fun p ptr hp => ?_⟩
  -- a process that was in a call before has its note, and has taken no less
  have hkeep : a.kernel.parked p = some (.call ptr) → a'.call p = a.call p →
      (a'.call p).waiting = [] ∧ (a'.call p).target ≠ p ∧ (a'.call p).mark ≤ a'.taken p := by
    intro hold hcall
    obtain ⟨hwaiting, htarget, hmark⟩ := h.waits p ptr hold
    rw [hcall, htaken]
    exact ⟨hwaiting, htarget, Nat.le_trans hmark (Nat.le_add_right _ _)⟩
  by_cases he : ∃ r, e = .syscall r ∧ r.sys = .call
  · obtain ⟨r, rfl, hsys⟩ := he
    obtain ⟨hidle, hcall⟩ := sysCall_of_step hsys hk
    by_cases hpid : p = a.kernel.currentPid
    · subst hpid
      rcases sysCall_cases hcall with ⟨-, hparked, -⟩ | ⟨-, hother, hempty, hempty', -⟩ | ⟨-, hparked, -⟩
      · rw [hparked, hidle] at hp; cases hp
      · have hmark := hcount a.kernel.currentPid
        rw [hempty', List.length_nil, Nat.add_zero] at hmark
        rw [hnote]
        simp only [note, hsys, true_and, if_true]
        exact ⟨hempty, hother, Nat.le_of_eq hmark⟩
      · rw [hparked, hidle] at hp; cases hp
    · refine hkeep ?_ ?_
      · rcases sysCall_cases hcall with ⟨-, hparked, -⟩ | ⟨-, -, -, -, hparked⟩ | ⟨-, hparked, -⟩
        · rwa [hparked] at hp
        · rwa [hparked p hpid] at hp
        · rwa [hparked] at hp
      · rw [hnote]
        simp only [note, hpid, and_false, if_false]
  · have hne : ∀ r, e = .syscall r → r.sys ≠ .call := fun r hr hsys => he ⟨r, hr, hsys⟩
    refine hkeep (noNewCall_step hne hk p ptr hp) ?_
    rw [hnote]
    cases e with
    | syscall r => simp only [note, hne r rfl, false_and, if_false]
    | _ => rfl

theorem inv_run {k : Kernel} {a : Numbered} {es : List (Event × Ret)} (hstart : ∀ p, k.parked p = none)
    (hrun : Run step (fun _ _ => True) (start k) es a) : a.Inv :=
  hrun.invariant (fun h _ hstep => inv_step h hstep) (inv_start hstart)

/-- A call that returns 0 hands back a message of the caller's mailbox; it is a new one exactly when the caller had no
message and called another process. -/
theorem newReply_iff {k : Kernel} {a a' : Numbered} {es : List (Event × Ret)} {e : Event} {ret : Ret}
    (hstart : ∀ p, k.parked p = none) (hrun : Run step (fun _ _ => True) (start k) es a)
    (hstep : a.step e = some (a', ret)) (hends : a.kernel.endsCall e ret = true) :
    (∃ new reply, HandsBack a.kernel a'.kernel (a.kernel.replyPtr e) new reply) ∧
      (NewReply a a' ↔ (a'.call a.kernel.currentPid).waiting = [] ∧
        (a'.call a.kernel.currentPid).target ≠ a.kernel.currentPid) := by
  have hinv := inv_run hstart hrun
  obtain ⟨hk, harrived, -, hnote⟩ := step_spec hstep
  obtain ⟨new, reply, hback, hcase⟩ := handsBack_of_endsCall hk hends
  refine ⟨⟨new, reply, hback⟩, ?_⟩
  unfold NewReply
  rw [hnote]
  rcases hcase with ⟨rfl, -⟩ | ⟨r, rfl, hsys, hlen⟩
  · -- the caller was parked
    obtain ⟨ptr, hparked⟩ : ∃ ptr, a.kernel.parked a.kernel.currentPid = some (.call ptr) := by
      cases ret <;> simp only [endsCall, Bool.false_eq_true] at hends
      split at hends
      · rename_i ptr hp; exact ⟨ptr, hp⟩
      · cases hends
    obtain ⟨hwaiting, htarget, hmark⟩ := hinv.waits _ ptr hparked
    exact iff_of_true hmark ⟨hwaiting, htarget⟩
  · -- the reply was already there, or it is the request itself
    have hcount := hinv.count a.kernel.currentPid
    have hmail := congrArg List.length hback.1
    simp only [List.length_append, List.length_cons] at hmail
    have hputs : a.kernel.puts a'.kernel (.syscall r) ret a.kernel.currentPid = new.length := by
      unfold puts takes
      rw [if_pos ⟨rfl, hends⟩]
      omega
    simp only [note, hsys, true_and, if_true]
    rw [harrived, hputs, hcount]
    refine iff_of_false (by omega) ?_
    rintro ⟨hwaiting, hother⟩
    rw [hwaiting] at hmail
    rw [if_neg hother] at hlen
    simp only [List.length_nil] at hmail
    omega

/-! ### The small kernel -/

/-- The small kernel with process `p` on the CPU. -/
def small (p : Nat) : Kernel := { Kernel.small with sched := Kernel.small.sched.setCurrent p, currentPid := p }

/-- Process 2 calls process 1 and waits; process 1 takes the request, answers and waits; process 2 gets the answer. -/
theorem newReply_iff_small :
    ∃ a a' es ret, (∀ p, (small 2).parked p = none) ∧ Run step (fun _ _ => True) (start (small 2)) es a ∧
      a.step .resume = some (a', ret) ∧ a.kernel.endsCall .resume ret = true ∧ NewReply a a' := by
  have hexec : (Lib.exec step (fun _ _ => True) (start (small 2))
      [.syscall ⟨.call, 1, 0x4000, 0x5000, 0, 0⟩, .syscall ⟨.recv, 0, 0, 0, 0, 0⟩, .syscall ⟨.send, 2, 7, 0, 0, 0⟩,
        .syscall ⟨.recv, 5, 0, 0, 0, 0⟩]).any (fun out => (out.1.step .resume).any fun out' =>
          out.1.kernel.endsCall .resume out'.2 && decide ((out'.1.call out.1.kernel.currentPid).waiting.length = 0) &&
            decide ((out'.1.call out.1.kernel.currentPid).target ≠ out.1.kernel.currentPid)) = true := by
    decide +kernel
  obtain ⟨⟨a, es⟩, ha, hany⟩ := (Option.any_eq_true _ _).1 hexec
  obtain ⟨⟨a', ret⟩, hstep, hcheck⟩ := (Option.any_eq_true _ _).1 hany
  simp only [Bool.and_eq_true, decide_eq_true_eq, List.length_eq_zero_iff] at hcheck
  obtain ⟨⟨hends, hwaiting⟩, htarget⟩ := hcheck
  have hidle : ∀ p, (small 2).parked p = none := fun _ => rfl
  have hrun := Lib.run_of_exec ha
  exact ⟨a, a', es, ret, hidle, hrun, hstep, hends, (newReply_iff hidle hrun hstep hends).2.2 ⟨hwaiting, htarget⟩⟩

/-- Process 1 sends a message to process 2 and waits; process 2 calls process 1 and gets that message for the reply. -/
theorem stale_reply :
    ¬ ∀ (k : Kernel) (a a' : Numbered) (es : List (Event × Ret)) (e : Event) (ret : Ret),
      (∀ p, k.parked p = none) → Run step (fun _ _ => True) (start k) es a → a.step e = some (a', ret) →
      a.kernel.endsCall e ret = true → NewReply a a' := by
  intro hclaim
  have hexec : (Lib.exec step (fun _ _ => True) (start (small 1))
      [.syscall ⟨.send, 2, 7, 0, 0, 0⟩, .syscall ⟨.recv, 5, 0, 0, 0, 0⟩]).any (fun out =>
        (out.1.step (.syscall ⟨.call, 1, 0x4000, 0x5000, 0, 0⟩)).any fun out' =>
          out.1.kernel.endsCall (.syscall ⟨.call, 1, 0x4000, 0x5000, 0, 0⟩) out'.2 &&
            decide (out.1.taken out.1.kernel.currentPid < (out'.1.call out.1.kernel.currentPid).mark)) = true := by
    decide +kernel
  obtain ⟨⟨a, es⟩, ha, hany⟩ := (Option.any_eq_true _ _).1 hexec
  obtain ⟨⟨a', ret⟩, hstep, hcheck⟩ := (Option.any_eq_true _ _).1 hany
  simp only [Bool.and_eq_true, decide_eq_true_eq] at hcheck
  have hnew := hclaim (small 1) a a' es _ ret (fun _ => rfl) (Lib.run_of_exec ha) hstep hcheck.1
  unfold NewReply at hnew
  omega

end Numbered

end Kernel

end Rost
