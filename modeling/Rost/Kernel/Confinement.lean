import Rost.Kernel.Step

/-!
# Capability confinement

Who may send to whom.  The kernel is run together with a record of how every slot of every capability table was last
filled (`Audited`).  `SEND_CAP` checks a channel capability; `SEND`, `SEND_MSG` and `CALL` take the pid of the target
and check nothing, and `CHAN_BIND` gives its caller a capability for any pid.  So a message may be sent without a
capability; in the runs that keep to `Disciplined`, every sender holds one that it was given.
-/

namespace Rost

open Lib (Run)

namespace Kernel

open Scheduler (Op Runs KeepsCaps GainsCap)

/-! ### Where capabilities come from -/

/-- How a slot of a capability table was filled. -/
inductive Origin where
  /-- `SYS_LOOKUP_CAP` found the name of a service registered by process `service`. -/
  | lookupCap (service : Nat)
  /-- `SYS_CAP_GRANT` of `giver` copied the capability `copied`. -/
  | capGrant (giver : Nat) (copied : Capability)
  | chanBind
  | mapShare

/-- The capability that a process holds in a slot. -/
def capOf (k : Kernel) (pid slot : Nat) : Option Capability := k.sched.capSlotInfo pid slot

/-- The table slot, its owner and its origin, for a syscall that returned `v`. -/
def fills (k : Kernel) (r : Request) (v : Word) : Option (Nat × Nat × Origin) :=
  if v.toNat < capTableSize then
    match r.sys with
    | .lookupCap =>
      ((k.readName r.a0).bind k.registry.lookup).map fun service => (k.currentPid, v.toNat, .lookupCap service)
    | .capGrant => (k.capOf k.currentPid r.a0.toNat).map fun cap => (u32 r.a1, v.toNat, .capGrant k.currentPid cap)
    | .chanBind => some (k.currentPid, v.toNat, .chanBind)
    | .mapShare => some (k.currentPid, v.toNat, .mapShare)
    | _ => none
  else none

/-- A kernel with the origins of the capabilities, by pid and slot. -/
structure Audited where
  kernel : Kernel
  origin : Nat → Nat → Option Origin

namespace Audited

def note (a : Audited) : Option (Nat × Nat × Origin) → Nat → Nat → Option Origin
  | none => a.origin
  | some (pid, slot, o) => fun q i => if q = pid ∧ i = slot then some o else a.origin q i

/-- A step of the kernel; what a syscall puts into a capability table is recorded. -/
def step (a : Audited) (e : Event) : Option (Audited × Ret) :=
  (a.kernel.step e).map fun out =>
    match e, out.2 with
    | .syscall r, .value v => (⟨out.1, a.note (a.kernel.fills r v)⟩, out.2)
    | _, _ => (⟨out.1, a.origin⟩, out.2)

end Audited

/-! ### What a syscall does to the capability tables -/

section Tables

variable {k k' : Kernel} {ret : Ret}

/-- The values that stand for errors are no slots. -/
private theorem not_slot {n : Nat} (h : n < 100) : ¬ (BitVec.ofNat 64 (u64Max - n)).toNat < capTableSize := by
  unfold u64Max capTableSize
  rw [BitVec.toNat_ofNat, Nat.mod_eq_of_lt (by omega)]
  omega

private theorem toNat_slot {slot : Nat} (h : slot < capTableSize) : (BitVec.ofNat 64 slot).toNat = slot := by
  unfold capTableSize at h
  rw [BitVec.toNat_ofNat]
  exact Nat.mod_eq_of_lt (by omega)

/-- What is known of a capability from its origin. -/
private def Given (k : Kernel) (r : Request) (cap : Capability) : Origin → Prop
  | .lookupCap service => cap = ⟨.channel, capW, service⟩
  | .capGrant _ copied => cap = copied ∧ k.capOf k.currentPid r.a0.toNat = some copied ∧ copied.rights &&& capG ≠ 0
  | .chanBind => r.sys = .chanBind ∧ u32 r.a0 ≠ 0 ∧ cap = ⟨.channel, bindRights r.a1, u32 r.a0⟩
  | .mapShare => cap.kind = .memory

/-- A syscall added no capability and none is recorded, or it put one into an empty slot, which is recorded. -/
private def Fills (k k' : Kernel) (r : Request) (ret : Ret) : Prop :=
  (KeepsCaps k.sched k'.sched ∧ ∀ v, ret = .value v → k.fills r v = none) ∨
  ∃ v pid slot cap o, ret = .value v ∧ k.fills r v = some (pid, slot, o) ∧
    GainsCap k.sched k'.sched pid slot cap ∧ Given k r cap o

private theorem fills_of_error {r : Request} {n : Nat} (hn : n < 100) (hs : KeepsCaps k.sched k'.sched) :
    Fills k k' r (.value (BitVec.ofNat 64 (u64Max - n))) := by
  refine Or.inl ⟨hs, fun v hv => ?_⟩
  cases hv
  unfold fills
  rw [if_neg (not_slot hn)]

private theorem fills_of_gains {r : Request} {pid slot : Nat} {cap : Capability} {o : Origin}
    (hgains : GainsCap k.sched k'.sched pid slot cap)
    (hfills : ∀ v : Word, v.toNat = slot → k.fills r v = some (pid, slot, o)) (hgiven : Given k r cap o) :
    Fills k k' r (.value (BitVec.ofNat 64 slot)) :=
  Or.inr ⟨_, pid, slot, cap, o, rfl, hfills _ (toNat_slot hgains.1), hgains, hgiven⟩

/-- A syscall that ends in `capFor`, perhaps after scheduler operations that leave the capabilities alone. -/
private theorem capFor_fills {k₁ : Kernel} {r : Request} {cap : Capability} {n : Nat} {o : Origin} (hn : n < 100)
    (hkeep : ∀ q i, k₁.sched.capSlotInfo q i = k.sched.capSlotInfo q i) (hcur : k₁.currentPid = k.currentPid)
    (hfills : ∀ v : Word, v.toNat < capTableSize → k.fills r v = some (k.currentPid, v.toNat, o))
    (hgiven : Given k r cap o) (h : k₁.capFor cap (BitVec.ofNat 64 (u64Max - n)) = (k', ret)) : Fills k k' r ret := by
  unfold capFor at h
  split at h
  · rename_i s slot heq
    cases h
    obtain ⟨hlt, hnone, hall⟩ := Scheduler.capAlloc_some heq
    rw [hcur, hkeep] at hnone
    refine fills_of_gains ⟨hlt, hnone, fun q i c hc => ?_⟩ (fun v hv => by rw [hfills v (hv ▸ hlt), hv]) hgiven
    have hc' := hall q i c hc
    rwa [hkeep, hcur] at hc'
  · rename_i s heq
    cases h
    refine fills_of_error hn fun q i c hc => ?_
    rw [← hkeep]
    rwa [Scheduler.capAlloc_none heq] at hc

private theorem sysChanBind_fills {a0 a1 a2 a3 device : Word} (h : k.sysChanBind a0 a1 = some (k', ret)) :
    Fills k k' ⟨.chanBind, a0, a1, a2, a3, device⟩ ret := by
  unfold sysChanBind at h
  split at h
  · cases h
    exact fills_of_error (n := 1) (by omega) (KeepsCaps.refl _)
  · rename_i hpid
    refine capFor_fills (n := 1) (o := .chanBind) (by omega) (fun _ _ => rfl) rfl (fun v hv => ?_) ⟨rfl, hpid, rfl⟩
      (Option.some.inj h)
    unfold fills
    rw [if_pos hv]

private theorem sysLookupCap_fills {a0 a1 a2 a3 device : Word} (h : k.sysLookupCap a0 = some (k', ret)) :
    Fills k k' ⟨.lookupCap, a0, a1, a2, a3, device⟩ ret := by
  unfold sysLookupCap at h
  split at h
  · cases h
    exact fills_of_error (n := 1) (by omega) (KeepsCaps.refl _)
  · obtain ⟨name, hname, heq⟩ := Option.map_eq_some_iff.1 h
    split at heq
    · cases heq
      exact fills_of_error (n := 6) (by omega) (KeepsCaps.refl _)
    · rename_i service hservice
      refine capFor_fills (n := 3) (o := .lookupCap service) (by omega) (fun _ _ => rfl) rfl (fun v hv => ?_) rfl heq
      unfold fills
      rw [if_pos hv, hname]
      simp only [Option.bind_some, hservice, Option.map_some]

private theorem sysCapGrant_fills {a0 a1 a2 a3 device : Word} (h : k.sysCapGrant a0 a1 = some (k', ret)) :
    Fills k k' ⟨.capGrant, a0, a1, a2, a3, device⟩ ret := by
  unfold sysCapGrant at h
  split at h
  · rename_i s slot heq
    cases h
    rcases k.sched.capGrant_cases k.currentPid a0.toNat (u32 a1) with hnone | ⟨cap, hcap, hright, halloc⟩
    · rw [hnone] at heq; cases heq
    · rw [halloc] at heq
      refine fills_of_gains (o := .capGrant k.currentPid cap) (Scheduler.capAlloc_some heq) (fun v hv => ?_)
        ⟨rfl, hcap, hright⟩
      unfold fills capOf
      rw [if_pos (hv ▸ (Scheduler.capAlloc_some heq).1), hcap, hv]
      rfl
  · rename_i s heq
    have hs : s = k.sched := by
      rcases k.sched.capGrant_cases k.currentPid a0.toNat (u32 a1) with hnone | ⟨cap, -, -, halloc⟩
      · rw [hnone] at heq; exact (Prod.mk.inj heq).1.symm
      · rw [halloc] at heq; exact Scheduler.capAlloc_none heq
    subst hs
    simp only at h
    split at h
    · cases h
      split
      · exact fills_of_error (n := 2) (by omega) (KeepsCaps.refl _)
      · exact fills_of_error (n := 1) (by omega) (KeepsCaps.refl _)
    · cases h
      exact fills_of_error (n := 1) (by omega) (KeepsCaps.refl _)

private theorem capSlotInfo_useMemoryPage (s : Scheduler) (pid q i : Nat) :
    (s.useMemoryPage pid).capSlotInfo q i = s.capSlotInfo q i := by
  unfold Scheduler.capSlotInfo
  rw [show (s.useMemoryPage pid).getProcess q = _ from Scheduler.getProcess_update s pid _ _ q]
  cases s.getProcess q with
  | none => rw [Option.map_none, ite_self]
  | some x => by_cases hq : q = pid <;> simp [hq]

private theorem sysMapShare_fills {a0 a1 a2 a3 device : Word} (h : k.sysMapShare a0 a1 = some (k', ret)) :
    Fills k k' ⟨.mapShare, a0, a1, a2, a3, device⟩ ret := by
  unfold sysMapShare at h
  split at h
  · cases h
    exact fills_of_error (n := 1) (by omega) (KeepsCaps.refl _)
  · split at h
    · cases h
      exact fills_of_error (n := 3) (by omega) (KeepsCaps.refl _)
    · split at h
      · cases h
        exact fills_of_error (n := 3) (by omega) (KeepsCaps.refl _)
      · simp only at h
        split at h
        · cases h
          exact fills_of_error (n := 3) (by omega) (KeepsCaps.refl _)
        · refine capFor_fills (n := 1) (o := .mapShare) (by omega) ?_ ?_ (fun v hv => ?_) ?_ (Option.some.inj h)
          · exact capSlotInfo_useMemoryPage k.sched k.currentPid
          · rfl
          · unfold fills
            rw [if_pos hv]
          · rfl

/-- The syscalls that may put a capability into a table. -/
def fillsTables : Sys → Bool
  | .lookupCap | .capGrant | .chanBind | .mapShare => true
  | _ => false

private theorem capQuiet_of_mayDo {r : Request} {op : Op} (hr : fillsTables r.sys = false) (h : k.MayDo r op) :
    Scheduler.capQuiet op = true := by
  obtain ⟨sys, a0, a1, a2, a3, device⟩ := r
  unfold MayDo at h
  cases sys <;> simp only at h
  case capGrant | chanBind | mapShare | lookupCap => cases hr
  case yield | notify | map => subst h; rfl
  case exit => rcases h with rfl | rfl <;> rfl
  case send | sendMsg | registerFrames => obtain ⟨x, rfl⟩ := h; rfl
  case recv | recvMsg => rcases h with ⟨t, rfl⟩ | rfl <;> rfl
  case spawn => rcases h with ⟨base, rfl⟩ | ⟨pid, prio, rfl⟩ <;> rfl
  case setprio | setrt => obtain ⟨x, y, rfl⟩ := h; rfl
  case setquota => obtain ⟨x, y, z, w, rfl⟩ := h; rfl
  case call => rcases h with ⟨msg, rfl⟩ | ⟨t, rfl⟩ | rfl <;> rfl
  case sendCap => obtain ⟨target, msg, -, rfl⟩ := h; rfl
  case spawnElf | restartServer | spawnWithVas =>
    rcases h with ⟨base, rfl⟩ | ⟨pid, prio, rfl⟩ | ⟨pid, frames, rfl⟩ <;> rfl

private theorem keepsCaps_of_runs {P : Op → Prop} {s s' : Scheduler} (hP : ∀ op, P op → Scheduler.capQuiet op = true)
    (h : Runs P s s') : KeepsCaps s s' :=
  h.invariant (fun ht hop hstep => ht.trans (Scheduler.keepsCaps_step (hP _ hop) hstep)) (KeepsCaps.refl s)

/-- The others add no capability. -/
theorem keepsCaps_dispatch {r : Request} (hr : fillsTables r.sys = false) (h : k.dispatch r = some (k', ret)) :
    KeepsCaps k.sched k'.sched :=
  keepsCaps_of_runs (fun _ => capQuiet_of_mayDo hr) (dispatch_run h)

private theorem dispatch_fills {r : Request} (h : k.dispatch r = some (k', ret)) : Fills k k' r ret := by
  by_cases hr : fillsTables r.sys = false
  · refine Or.inl ⟨keepsCaps_dispatch hr h, fun v _ => ?_⟩
    unfold fills
    split
    · split <;> rename_i hsys <;> first | rfl | (rw [hsys] at hr; cases hr)
    · rfl
  · obtain ⟨sys, a0, a1, a2, a3, device⟩ := r
    cases sys <;> first | exact absurd rfl hr | skip
    case lookupCap => exact sysLookupCap_fills h
    case capGrant => exact sysCapGrant_fills h
    case chanBind => exact sysChanBind_fills h
    case mapShare => exact sysMapShare_fills h

end Tables

/-! ### Messages -/

section Messages

variable {k k' : Kernel} {ret : Ret} {r : Request} {t : Nat}

/-- A message was put into the mailbox of `t`: it holds more than a rest of what it held. -/
def Enqueues (k k' : Kernel) (t : Nat) : Prop := ¬ k'.sched.mail t <:+ k.sched.mail t

/-- The process to which a syscall sends a message. -/
def sendsTo (k : Kernel) (r : Request) : Option Nat :=
  match r.sys with
  | .send | .sendMsg | .call => some (u32 r.a0)
  | .sendCap => k.sendTarget r.a0.toNat
  | _ => none

private theorem sendsTo_of_mayDo {fromPid : Nat} {msg : Message} (h : k.MayDo r (.sendMessage fromPid t msg)) :
    k.sendsTo r = some t := by
  obtain ⟨sys, a0, a1, a2, a3, device⟩ := r
  unfold MayDo at h
  unfold sendsTo
  cases sys <;> simp only [reduceCtorEq, or_false, exists_const] at h
  case send | sendMsg | call =>
    obtain ⟨msg', hop⟩ := h
    cases hop
    rfl
  case sendCap =>
    obtain ⟨target, msg', htarget, hop⟩ := h
    cases hop
    exact htarget
  case lookupCap => obtain ⟨name, pid, -, -, h⟩ := h; cases h

/-- Only the sending syscalls put a message into a mailbox. -/
theorem sendsTo_of_enqueues (h : k.dispatch r = some (k', ret)) (henq : Enqueues k k' t) : k.sendsTo r = some t := by
  by_contra hne
  refine henq ((dispatch_run h).mail_suffix fun op hop fromPid msg heq => hne ?_)
  subst heq
  exact sendsTo_of_mayDo hop

/-- The rest of a parked syscall sends nothing. -/
theorem not_enqueues_resume (h : k.resume = some (k', ret)) : ¬ Enqueues k k' t := by
  have hrun : Runs (k.EventDoes .resume) k.sched k'.sched := step_run (e := .resume) h
  refine not_not.2 (hrun.mail_suffix fun op hop fromPid msg heq => ?_)
  subst heq
  cases hop

/-- A send by pid is refused whatever the message is: a pointer is rejected, the sender is over its rate, or the target
does not exist or has a full mailbox. -/
def Refuses (k : Kernel) (r : Request) : Prop :=
  (r.sys ≠ .send ∧ validateUserPtr r.a1 messageSize messageAlign = false) ∨
  (r.sys = .call ∧ validateUserPtr r.a2 messageSize messageAlign = false) ∨
  (k.sched.getProcess k.currentPid).any Scheduler.rateLimited = true ∨
  ∀ x, k.sched.getProcess (u32 r.a0) = some x → x.mailbox.contents.length = queueCapacity

private theorem sendMessage_refused {toPid : Nat} (msg : Message)
    (h : (k.sched.getProcess k.currentPid).any Scheduler.rateLimited = true ∨
      ∀ x, k.sched.getProcess toPid = some x → x.mailbox.contents.length = queueCapacity) :
    ∃ s, k.sched.sendMessage k.currentPid toPid msg = (s, false) := by
  rcases k.sched.sendMessage_cases k.currentPid toPid msg with
    ⟨-, heq⟩ | ⟨p, hp, hlim, ⟨-, heq⟩ | ⟨hroom, heq⟩⟩
  · exact ⟨_, heq⟩
  · exact ⟨_, heq⟩
  · rcases h with h | h
    · rw [h] at hlim; cases hlim
    · have := h p hp
      omega

private theorem not_enqueues_of_same (h : ∀ q, k'.sched.mail q = k.sched.mail q) : ¬ Enqueues k k' t := by
  intro henq
  rw [Enqueues, h] at henq
  exact henq (List.suffix_refl _)

private theorem not_enqueues_sendFrom {toPid : Nat} {msg : Message} {refused : Word}
    (hrefuse : (k.sched.getProcess k.currentPid).any Scheduler.rateLimited = true ∨
      ∀ x, k.sched.getProcess toPid = some x → x.mailbox.contents.length = queueCapacity)
    (h : k.sendFrom toPid msg refused = (k', ret)) : ¬ Enqueues k k' t := by
  obtain ⟨s, hsend⟩ := sendMessage_refused msg hrefuse
  unfold sendFrom at h
  rw [hsend] at h
  cases h
  exact not_enqueues_of_same (Scheduler.mail_sendMessage_refused hsend)

theorem not_enqueues_of_refuses (hr : r.sys = .send ∨ r.sys = .sendMsg ∨ r.sys = .call) (hrefuse : k.Refuses r)
    (h : k.dispatch r = some (k', ret)) : ¬ Enqueues k k' t := by
  have hid : ¬ Enqueues k k t := not_enqueues_of_same fun q => rfl
  obtain ⟨sys, a0, a1, a2, a3, device⟩ := r
  simp only at hr
  rcases hr with rfl | rfl | rfl
  · rcases hrefuse with ⟨hne, -⟩ | ⟨hcall, -⟩ | hrefuse
    · exact absurd rfl hne
    · cases hcall
    · exact not_enqueues_sendFrom hrefuse (Option.some.inj h)
  · have h' : k.sysSendMsg a0 a1 = some (k', ret) := h
    unfold sysSendMsg at h'
    split at h'
    · cases h'; exact hid
    · rename_i hptr
      rcases hrefuse with ⟨-, hbad⟩ | ⟨hcall, -⟩ | hrefuse
      · simp only at hbad
        rw [hbad] at hptr
        exact absurd rfl hptr
      · cases hcall
      · obtain ⟨msg, -, heq⟩ := Option.map_eq_some_iff.1 h'
        exact not_enqueues_sendFrom hrefuse heq
  · have h' : k.sysCall a0 a1 a2 a3 = some (k', ret) := h
    unfold sysCall at h'
    split at h'
    · cases h'; exact hid
    · rename_i hptr
      split at h'
      · cases h'; exact hid
      · rename_i hreply
        rcases hrefuse with ⟨-, hbad⟩ | ⟨-, hbad⟩ | hrefuse
        · simp only at hbad
          rw [hbad] at hptr
          exact absurd rfl hptr
        · simp only at hbad
          rw [hbad] at hreply
          exact absurd rfl hreply
        · split at h'
          · cases h'
          · rename_i msg _
            obtain ⟨s, hsend⟩ := sendMessage_refused msg hrefuse
            simp only at hsend
            rw [hsend] at h'
            cases h'
            exact not_enqueues_of_same (Scheduler.mail_sendMessage_refused hsend)

end Messages

/-! ### Confinement along a run -/

/-- The current process holds in `slot` a channel capability for `t` with the send right. -/
def MaySendTo (k : Kernel) (slot t : Nat) : Prop :=
  ∃ cap, k.capOf k.currentPid slot = some cap ∧ cap.kind = .channel ∧ cap.rights &&& capW ≠ 0 ∧ cap.objectId = t

/-- The event is part of a syscall. -/
def Event.inSyscall : Event → Bool
  | .syscall _ | .resume => true
  | _ => false

namespace Audited

/-- No process holds a capability. -/
def NoCaps (a : Audited) : Prop := ∀ pid slot, a.kernel.capOf pid slot = none

/-- The discipline: a process binds no channel with the send right, and sends by pid only to a target for which it
holds a channel capability with that right, unless the message is refused. -/
def Disciplined (a : Audited) : Event → Prop
  | .syscall r =>
    match r.sys with
    | .chanBind => u32 r.a0 = 0 ∨ bindRights r.a1 &&& capW = 0
    | .send | .sendMsg | .call => a.kernel.Refuses r ∨ ∃ slot, a.kernel.MaySendTo slot (u32 r.a0)
    | _ => True
  | _ => True

/-- The capability in `slot` of `pid` came from `SYS_LOOKUP_CAP` for the registered service `t`, or was copied by
`SYS_CAP_GRANT` from a capability that carries the grant right. -/
def Authorized (a : Audited) (pid slot t : Nat) : Prop :=
  a.origin pid slot = some (.lookupCap t) ∨
  ∃ giver copied, a.origin pid slot = some (.capGrant giver copied) ∧ copied.rights &&& capG ≠ 0

/-- The sender of a message holds an authorized channel capability for its target. -/
def SendsWithCap (a : Audited) (t : Nat) : Prop :=
  ∃ slot, a.kernel.MaySendTo slot t ∧ a.Authorized a.kernel.currentPid slot t

/-- The invariant of the disciplined runs: a channel capability with the send right has no other right, so it is never
copied, and it came from `SYS_LOOKUP_CAP`. -/
def Confined (a : Audited) : Prop :=
  ∀ pid slot cap, a.kernel.capOf pid slot = some cap → cap.kind = .channel → cap.rights &&& capW ≠ 0 →
    cap.rights = capW ∧ a.origin pid slot = some (.lookupCap cap.objectId)

private theorem confined_of_keepsCaps {a a' : Audited} (h : a.Confined)
    (hkeep : KeepsCaps a.kernel.sched a'.kernel.sched) (horigin : a'.origin = a.origin) : a'.Confined := by
  intro pid slot cap hcap hkind hright
  rw [horigin]
  exact h pid slot cap (hkeep pid slot cap hcap) hkind hright

private theorem confined_syscall {a : Audited} {k' : Kernel} {r : Request} {ret : Ret} {o : Nat → Nat → Option Origin}
    (h : a.Confined) (hguard : a.Disciplined (.syscall r)) (hfills : Fills a.kernel k' r ret)
    (ho : ∀ v, ret = .value v → o = a.note (a.kernel.fills r v)) (ho' : (∀ v, ret ≠ .value v) → o = a.origin) :
    Confined ⟨k', o⟩ := by
  rcases hfills with ⟨hkeep, hnone⟩ | ⟨v, pid, slot, cap, origin, hret, hv, ⟨hlt, hempty, hall⟩, hgiven⟩
  · refine confined_of_keepsCaps h hkeep ?_
    by_cases hval : ∃ v, ret = .value v
    · obtain ⟨v, hv⟩ := hval
      show o = a.origin
      rw [ho v hv, hnone v hv]
      rfl
    · exact ho' fun v hv => hval ⟨v, hv⟩
  · have hnote : ∀ q i, o q i = if q = pid ∧ i = slot then some origin else a.origin q i := by
      intro q i
      rw [ho v hret, hv]
      rfl
    intro q i c hc hkind hright
    show c.rights = capW ∧ o q i = some (.lookupCap c.objectId)
    rw [hnote q i]
    rcases hall q i c hc with hold | ⟨rfl, rfl, rfl⟩
    · have hne : ¬ (q = pid ∧ i = slot) := by
        rintro ⟨rfl, rfl⟩
        rw [hempty] at hold
        cases hold
      rw [if_neg hne]
      exact h q i c hold hkind hright
    · rw [if_pos ⟨rfl, rfl⟩]
      cases origin with
      | lookupCap service =>
        have hcap : c = ⟨.channel, capW, service⟩ := hgiven
        rw [hcap]
        exact ⟨rfl, rfl⟩
      | capGrant giver copied =>
        obtain ⟨rfl, hheld, hgrant⟩ := hgiven
        have hw := (h _ _ c hheld hkind hright).1
        rw [hw] at hgrant
        exact absurd (by decide) hgrant
      | chanBind =>
        obtain ⟨hsys, hpid, rfl⟩ := hgiven
        have hbind : u32 r.a0 = 0 ∨ bindRights r.a1 &&& capW = 0 := by
          unfold Disciplined at hguard
          simpa only [hsys] using hguard
        rcases hbind with hzero | hnoW
        · exact absurd hzero hpid
        · exact absurd hnoW hright
      | mapShare =>
        have hmem : c.kind = .memory := hgiven
        rw [hmem] at hkind
        cases hkind

private theorem capQuiet_of_eventDoes {k : Kernel} {e : Event} {op : Op} (he : ∀ r, e ≠ .syscall r)
    (h : k.EventDoes e op) : Scheduler.capQuiet op = true := by
  cases e with
  | syscall r => exact absurd rfl (he r)
  | resume | tick => cases h; rfl
  | pciIrq _ | uartIrq _ => rcases h with ⟨pid, msg, rfl⟩ | rfl <;> rfl
  | userFault code => rcases h with ⟨msg, rfl⟩ | rfl | rfl <;> rfl

theorem confined_step {a a' : Audited} {e : Event} {ret : Ret} (h : a.Confined) (hguard : a.Disciplined e)
    (hstep : a.step e = some (a', ret)) : a'.Confined := by
  obtain ⟨⟨k', ret'⟩, hk, heq⟩ := Option.map_eq_some_iff.1 hstep
  by_cases he : ∃ r, e = .syscall r
  · obtain ⟨r, rfl⟩ := he
    have hdispatch : a.kernel.dispatch r = some (k', ret') := by
      simp only [Kernel.step] at hk
      split at hk
      · exact hk
      · cases hk
    have hfills := dispatch_fills hdispatch
    cases ret' with
    | value v =>
      cases heq
      refine confined_syscall h hguard hfills (fun w hw => ?_) (fun hno => absurd rfl (hno v))
      cases hw
      rfl
    | parked | exited =>
      cases heq
      exact confined_syscall h hguard hfills (fun w hw => by cases hw) fun _ => rfl
  · have hne : ∀ r, e ≠ .syscall r := fun r hr => he ⟨r, hr⟩
    have hkeep : KeepsCaps a.kernel.sched k'.sched :=
      keepsCaps_of_runs (fun op => capQuiet_of_eventDoes hne) (step_run hk)
    cases e <;> first | exact absurd rfl (hne _) | (cases heq; exact confined_of_keepsCaps h hkeep rfl)

theorem confined_run {a₀ a : Audited} {es : List (Event × Ret)} (hinit : a₀.NoCaps)
    (hrun : Run step Disciplined a₀ es a) : a.Confined :=
  hrun.invariant confined_step fun pid slot cap hcap => by rw [hinit pid slot] at hcap; cases hcap

/-- In a disciplined run, a message is sent only by a holder of a channel capability for its target that it got from
`SYS_LOOKUP_CAP` or from a holder that may grant it. -/
theorem sendsWithCap_of_enqueues {a₀ a a' : Audited} {es : List (Event × Ret)} {e : Event} {ret : Ret} {t : Nat}
    (hinit : a₀.NoCaps) (hrun : Run step Disciplined a₀ es a) (hguard : a.Disciplined e) (he : e.inSyscall = true)
    (hstep : a.step e = some (a', ret)) (henq : Enqueues a.kernel a'.kernel t) : a.SendsWithCap t := by
  have hconf := confined_run hinit hrun
  have hauth : ∀ {slot}, a.kernel.MaySendTo slot t → a.SendsWithCap t := by
    rintro slot ⟨cap, hcap, hkind, hright, rfl⟩
    exact ⟨slot, ⟨cap, hcap, hkind, hright, rfl⟩, Or.inl (hconf _ slot cap hcap hkind hright).2⟩
  obtain ⟨⟨k', ret'⟩, hk, heq⟩ := Option.map_eq_some_iff.1 hstep
  have hkernel : a'.kernel = k' := by
    revert heq
    cases e <;> cases ret' <;> intro heq <;> cases heq <;> rfl
  rw [hkernel] at henq
  cases e with
  | resume => exact absurd henq (not_enqueues_resume hk)
  | tick | pciIrq _ | uartIrq _ | userFault _ => cases he
  | syscall r =>
    have hdispatch : a.kernel.dispatch r = some (k', ret') := by
      simp only [Kernel.step] at hk
      split at hk
      · exact hk
      · cases hk
    have hsends := sendsTo_of_enqueues hdispatch henq
    -- a send by pid is covered by the discipline
    have hraw : r.sys = .send ∨ r.sys = .sendMsg ∨ r.sys = .call → u32 r.a0 = t → a.SendsWithCap t := by
      rintro hsys rfl
      have hheld : a.kernel.Refuses r ∨ ∃ slot, a.kernel.MaySendTo slot (u32 r.a0) := by
        unfold Disciplined at hguard
        rcases hsys with hsys | hsys | hsys <;> simpa only [hsys] using hguard
      rcases hheld with hrefuse | ⟨slot, hslot⟩
      · exact absurd henq (not_enqueues_of_refuses hsys hrefuse hdispatch)
      · exact hauth hslot
    unfold sendsTo at hsends
    split at hsends
    · rename_i hsys; exact hraw (Or.inl hsys) (Option.some.inj hsends)
    · rename_i hsys; exact hraw (Or.inr (Or.inl hsys)) (Option.some.inj hsends)
    · rename_i hsys; exact hraw (Or.inr (Or.inr hsys)) (Option.some.inj hsends)
    · -- `SEND_CAP` has checked the capability itself
      unfold sendTarget at hsends
      split at hsends
      · cases hsends
      · rename_i cap hcap
        split at hsends
        · rename_i hcheck
          cases hsends
          exact hauth ⟨cap, hcap, hcheck.1, hcheck.2, rfl⟩
        · cases hsends
    · cases hsends

/-! ### The small kernel -/

/-- The small kernel, in which nobody holds a capability. -/
def small : Audited := ⟨.small, fun _ _ => none⟩

private theorem small_noCaps : small.NoCaps := by
  have hnew : ∀ q i, (Scheduler.new 0).capSlotInfo q i = none := by
    intro q i
    unfold Scheduler.capSlotInfo
    rw [Scheduler.getProcess_new]
    split <;> rfl
  have hadd : ∀ {s s' : Scheduler} {r}, s.addProcess 0x1000 = some (s', r) → KeepsCaps s s' := by
    intro s s' r h
    have hstep : s.step (.addProcess 0x1000) = some (s', .pid r) := by
      simp only [Scheduler.step, h, Option.map_some]
    exact Scheduler.keepsCaps_step rfl hstep
  intro pid slot
  show Scheduler.pair.capSlotInfo pid slot = none
  unfold Scheduler.pair
  cases hpair : ((Scheduler.new 0).addProcess 0x1000).bind fun r => r.1.addProcess 0x1000 with
  | none => exact hnew pid slot
  | some out =>
    obtain ⟨⟨s₁, r₁⟩, h₁, h₂⟩ := Option.bind_eq_some_iff.1 hpair
    cases hcap : out.1.capSlotInfo pid slot with
    | none => exact hcap
    | some cap =>
      have := (hadd h₁).trans (hadd h₂) pid slot cap hcap
      rw [hnew] at this
      cases this

/-- The mailbox of `t` was empty and holds one message. -/
private def arrived (k k' : Kernel) (t : Nat) : Bool :=
  (k.sched.mail t).length == 0 && (k'.sched.mail t).length == 1

private theorem enqueues_of_arrived {k k' : Kernel} {t : Nat} (h : arrived k k' t = true) : Enqueues k k' t := by
  intro hsuffix
  have hlen := hsuffix.length_le
  simp only [arrived, Bool.and_eq_true, beq_iff_eq] at h
  omega

/-- Process 2 looks up the name at `0x4000` and sends the message at `0x4000` through the slot it gets. -/
theorem sendsWithCap_of_enqueues_small :
    ∃ a a' es ret, small.NoCaps ∧ Run step Disciplined small es a ∧
      a.step (.syscall ⟨.sendCap, 0, 0x4000, 0, 0, 0⟩) = some (a', ret) ∧ Enqueues a.kernel a'.kernel 1 ∧
      a.SendsWithCap 1 := by
  have hexec : ((small.step (.syscall ⟨.lookupCap, 0x4000, 0, 0, 0, 0⟩)).bind fun out =>
      (out.1.step (.syscall ⟨.sendCap, 0, 0x4000, 0, 0, 0⟩)).map fun out' => (out, out')).any (fun outs => arrived outs.1.1.kernel outs.2.1.kernel 1) = true := by
    decide +kernel
  obtain ⟨⟨⟨a, ret₁⟩, a', ret⟩, houts, hlen⟩ := (Option.any_eq_true _ _).1 hexec
  obtain ⟨out, hlookup, hmap⟩ := Option.bind_eq_some_iff.1 houts
  obtain ⟨out', hsend, heq⟩ := Option.map_eq_some_iff.1 hmap
  cases heq
  have hrun : Run step Disciplined small [(.syscall ⟨.lookupCap, 0x4000, 0, 0, 0, 0⟩, ret₁)] a :=
    Run.single trivial hlookup
  have hguard : a.Disciplined (.syscall ⟨.sendCap, 0, 0x4000, 0, 0, 0⟩) := trivial
  have henq : Enqueues a.kernel a'.kernel 1 := enqueues_of_arrived hlen
  exact ⟨a, a', _, ret, small_noCaps, hrun, hsend, henq,
    sendsWithCap_of_enqueues small_noCaps hrun hguard rfl hsend henq⟩

/-- Process 2 holds no capability, and `SYS_SEND` puts its message into the mailbox of process 1. -/
theorem enqueues_without_cap :
    ¬ ∀ (a₀ a a' : Audited) (es : List (Event × Ret)) (e : Event) (ret : Ret) (t : Nat), a₀.NoCaps →
      Run step (fun _ _ => True) a₀ es a → e.inSyscall = true → a.step e = some (a', ret) →
      Enqueues a.kernel a'.kernel t → a.SendsWithCap t := by
  intro hclaim
  have hexec : (small.step (.syscall ⟨.send, 1, 7, 0, 0, 0⟩)).any (fun out => arrived small.kernel out.1.kernel 1) = true := by
    decide
  obtain ⟨⟨a', ret⟩, hsend, hlen⟩ := (Option.any_eq_true _ _).1 hexec
  have henq : Enqueues small.kernel a'.kernel 1 := enqueues_of_arrived hlen
  obtain ⟨slot, ⟨cap, hcap, -⟩, -⟩ := hclaim small small a' [] _ ret 1 small_noCaps (Run.nil _) rfl hsend henq
  rw [small_noCaps] at hcap
  cases hcap

end Audited

end Kernel

end Rost
