import Rost.Kernel.Step
import Rost.Scheduler.Refinement

/-!
# The routing of interrupts

The UART handler sends to the cached pid `UART_DRV_PID`, the other device handlers to the pids in `IRQ_PID`.  Both are
written by syscalls only: `SYS_REGISTER` sets the first for every name that starts with `uart-drv`, and
`SYS_IRQ_REGISTER` the second for the low byte of its argument; the end of a process clears neither.  Along the runs
in which these shortcuts are not taken (`keepsRouting`), the cache is what the registry says, and every handler is a
live process that has asked for its interrupt.
-/

namespace Rost

open Lib (Run exec run_of_exec)

namespace Kernel

open Scheduler (Op Runs)

/-! ### What changes the routing -/

/-- The tables that route names and interrupts to processes are the same. -/
structure SameRouting (k k' : Kernel) : Prop where
  registry : k'.registry = k.registry
  uartDrvPid : k'.uartDrvPid = k.uartDrvPid
  irqPid : k'.irqPid = k.irqPid

namespace SameRouting

variable {k k₁ k₂ : Kernel}

theorem trans (h : SameRouting k k₁) (h' : SameRouting k₁ k₂) : SameRouting k k₂ :=
  ⟨h'.registry.trans h.registry, h'.uartDrvPid.trans h.uartDrvPid, h'.irqPid.trans h.irqPid⟩

theorem switched (k : Kernel) (r : Scheduler × Option Switch) : SameRouting k (k.switched r) := by
  unfold Kernel.switched
  split <;> exact ⟨rfl, rfl, rfl⟩

/-- The scheduler, the memory and the parked calls have no part in the routing. -/
theorem of_sched {s : Scheduler} (h : SameRouting { k with sched := s } k₁) : SameRouting k k₁ :=
  ⟨h.registry, h.uartDrvPid, h.irqPid⟩

end SameRouting

section Handlers

variable {k k' : Kernel} {ret : Ret}

private theorem writeMessage_routing {ptr : Word} {msg : Message} (h : k.writeMessage ptr msg = some k') :
    SameRouting k k' := by
  obtain ⟨m, -, rfl⟩ := Option.map_eq_some_iff.1 h
  exact ⟨rfl, rfl, rfl⟩

private theorem blockSwitch_routing (k : Kernel) (p : Parked) : SameRouting k (k.blockSwitch p).1 := by
  unfold blockSwitch
  split
  · exact ⟨rfl, rfl, rfl⟩
  · rename_i s sw _
    have hpark : SameRouting k (k.park k.currentPid p) := ⟨rfl, rfl, rfl⟩
    exact hpark.trans (.switched _ (s, some sw))

/-- The end of a receive that found a message. -/
private theorem reply_routing {s : Scheduler} {ptr v : Word} {msg : Message}
    (h : (({ k with sched := s } : Kernel).writeMessage ptr msg).map (fun k => (k, Ret.value v)) = some (k', ret)) :
    SameRouting k k' := by
  obtain ⟨u, hu, heq⟩ := Option.map_eq_some_iff.1 h
  cases heq
  exact (writeMessage_routing hu).of_sched

private theorem finishCall_routing {a2 : Word} (h : k.finishCall a2 = some (k', ret)) : SameRouting k k' := by
  unfold finishCall at h
  split at h
  · exact reply_routing h
  · cases h; exact ⟨rfl, rfl, rfl⟩

private theorem sysYield_routing (h : k.sysYield = some (k', ret)) : SameRouting k k' := by
  unfold sysYield at h
  split at h
  · cases h; exact ⟨rfl, rfl, rfl⟩
  · cases h
    have hpark : SameRouting k (k.park k.currentPid .yield) := ⟨rfl, rfl, rfl⟩
    exact hpark.trans (.switched _ _)

private theorem sysRecv_routing {a0 : Word} (h : k.sysRecv a0 = some (k', ret)) : SameRouting k k' := by
  unfold sysRecv at h
  split at h
  · cases h; exact ⟨rfl, rfl, rfl⟩
  · rename_i s _
    dsimp only at h
    have hblock := (blockSwitch_routing { k with sched := s } .recv).of_sched
    split at h
    · cases h; exact ⟨rfl, rfl, rfl⟩
    · split at h <;> rename_i heq <;> cases h <;> rw [heq] at hblock <;> exact hblock

private theorem sysRecvMsg_routing {a0 a1 : Word} (h : k.sysRecvMsg a0 a1 = some (k', ret)) : SameRouting k k' := by
  unfold sysRecvMsg at h
  split at h
  · cases h; exact ⟨rfl, rfl, rfl⟩
  · split at h
    · exact reply_routing h
    · rename_i s _
      have hblock := (blockSwitch_routing { k with sched := s } .recv).of_sched
      split at h <;> rename_i heq <;> cases h <;> rw [heq] at hblock <;> exact hblock

private theorem sysCall_routing {a0 a1 a2 a3 : Word} (h : k.sysCall a0 a1 a2 a3 = some (k', ret)) :
    SameRouting k k' := by
  unfold sysCall at h
  split at h
  · cases h; exact ⟨rfl, rfl, rfl⟩
  · split at h
    · cases h; exact ⟨rfl, rfl, rfl⟩
    · split at h
      · cases h
      · split at h
        · cases h; exact ⟨rfl, rfl, rfl⟩
        · dsimp only at h
          split at h
          · cases h; exact ⟨rfl, rfl, rfl⟩
          · split at h
            · exact reply_routing h
            · rename_i s _
              have hblock := (blockSwitch_routing { k with sched := s } (.call a2)).of_sched
              split at h
              · rename_i heq
                cases h
                rw [heq] at hblock
                exact hblock
              · rename_i heq
                rw [heq] at hblock
                exact hblock.trans (finishCall_routing h)

end Handlers

/-- The syscalls that change the routing. -/
def routes : Sys → Bool
  | .register | .irqRegister | .exit => true
  | _ => false

theorem dispatch_routing {k k' : Kernel} {r : Request} {ret : Ret} (h : k.dispatch r = some (k', ret))
    (hsys : routes r.sys = false) : SameRouting k k' := by
  by_cases hfar : reachesFar r.sys = false
  · have hrest := (dispatch_does h hfar).rest
    have hregistry := congrArg Kernel.registry hrest
    have huart := congrArg Kernel.uartDrvPid hrest
    have hirq := congrArg Kernel.irqPid hrest
    exact ⟨hregistry, huart, hirq⟩
  obtain ⟨sys, a0, a1, a2, a3, device⟩ := r
  unfold dispatch at h
  cases sys <;> dsimp only at h hsys <;> try exact absurd rfl hfar
  case register | irqRegister | exit => cases hsys
  case «yield» => exact sysYield_routing h
  case recv => exact sysRecv_routing h
  case recvMsg => exact sysRecvMsg_routing h
  case call => exact sysCall_routing h

/-! ### Runs -/

/-- One event; the input names the process that the CPU runs when it happens. -/
def stepOf (k : Kernel) (i : Nat × Event) : Option (Kernel × Ret) := k.step i.2

/-- The event happens to the process that is named, and a process that calls or faults is live. -/
def issued (k : Kernel) (i : Nat × Event) : Bool :=
  decide (i.1 = k.currentPid) &&
    match i.2 with
    | .syscall _ | .userFault _ => (k.sched.getProcess k.currentPid).isSome
    | _ => true

/-- The first name of the process in the registry is not `uart-drv`, and it handles no interrupt. -/
def unrouted (k : Kernel) (pid : Nat) : Bool :=
  decide (trimName (k.registry.lookupByPid pid) ≠ uartDrvName) && (List.range 16).all fun g => k.irqPid g != some pid

/-- A name that starts with `uart-drv` is this name, or its caller is the driver already, or it is refused. -/
def namesDriver (k : Kernel) (name : List Byte) : Bool :=
  !uartDrvName.isPrefixOf name || decide (trimName name = uartDrvName) ||
    decide (k.registry.lookup uartDrvName = some k.currentPid) || !(k.registry.register name k.currentPid).2

/-- The events that keep the routing: a name that starts with `uart-drv` is no longer one, an interrupt number fits into
a byte unless it is refused or held by its caller, and nothing is routed to a process that ends. -/
def keepsRouting (k : Kernel) : Event → Bool
  | .syscall r =>
    match r.sys with
    | .register => !validateUserPtr r.a0 nameLen 1 || (k.readName r.a0).all k.namesDriver
    | .irqRegister =>
      let gsi := r.a0.toNat % 256
      decide (r.a0.toNat < 256) || decide (k.irqPid gsi = some k.currentPid) || !decide (gsi = 1 ∨ 8 ≤ gsi ∧ gsi ≤ 15)
    | .exit => k.unrouted k.currentPid
    | _ => true
  | .userFault _ => k.unrouted k.currentPid
  | _ => true

/-- Process `pid` has called `SYS_IRQ_REGISTER` with the number `g`, and no other process has replaced it. -/
def RegisteredFor (g pid : Nat) (es : List ((Nat × Event) × Ret)) : Prop :=
  ∃ es₁ es₂ r, es = es₁ ++ ((pid, .syscall r), .value 0) :: es₂ ∧ r.sys = .irqRegister ∧ r.a0.toNat = g ∧
    ∀ q r', ((q, .syscall r'), .value 0) ∈ es₂ → r'.sys = .irqRegister → r'.a0.toNat % 256 = g → q = pid

/-- The cached driver is the one in the registry, and every interrupt goes to a live process that asked for it. -/
structure Routed (es : List ((Nat × Event) × Ret)) (k : Kernel) : Prop where
  uart : k.uartDrvPid = k.registry.lookup uartDrvName
  irq : ∀ g pid, k.irqPid g = some pid → k.sched.getProcess pid ≠ none ∧ RegisteredFor g pid es

/-- Nobody has registered anything. -/
structure NoDrivers (k : Kernel) : Prop where
  registry : k.registry = Registry.new
  uartDrvPid : k.uartDrvPid = none
  irqPid : ∀ g, k.irqPid g = none

/-! ### One event -/

/-- Only an exit and a fault end a process, and it is the current one. -/
private theorem ends_of_eventDoes {k : Kernel} {e : Event} {pid : Nat} (h : k.EventDoes e (.terminateProcess pid)) :
    pid = k.currentPid ∧ ((∃ r, e = .syscall r ∧ r.sys = .exit) ∨ ∃ code, e = .userFault code) := by
  cases e with
  | syscall r =>
    simp only [EventDoes, MayDo] at h
    cases hsys : r.sys <;> simp only [hsys] at h <;> simp at h
    exact ⟨h, Or.inl ⟨r, rfl, hsys⟩⟩
  | resume => simp [EventDoes] at h
  | tick => simp [EventDoes] at h
  | pciIrq gsi => simp [EventDoes] at h
  | uartIrq bytes => simp [EventDoes] at h
  | userFault code =>
    simp only [EventDoes, Op.terminateProcess.injEq, reduceCtorEq, exists_false, false_or, or_false] at h
    exact ⟨h, Or.inr ⟨code, rfl⟩⟩

section Events

variable {k k' : Kernel} {e : Event} {ret : Ret} {es : List ((Nat × Event) × Ret)} {pid g : Nat}

/-- A process that is not the one that ends is live after the event. -/
private theorem live_event (h : k.step e = some (k', ret)) (hlive : k.sched.getProcess pid ≠ none)
    (hstays : k.EventDoes e (.terminateProcess pid) → False) : k'.sched.getProcess pid ≠ none :=
  (step_run h).invariant (I := fun s => s.getProcess pid ≠ none)
    (fun hs hop hstep => Scheduler.live_step hstep (fun heq => hstays (heq ▸ hop)) hs) hlive

/-- An event that changes no handler. -/
private theorem RegisteredFor.snoc {i : Nat × Event} (h : RegisteredFor g pid es)
    (hother : ∀ r, i.2 = .syscall r → r.sys = .irqRegister → ret = .value 0 → r.a0.toNat % 256 = g → i.1 = pid) :
    RegisteredFor g pid (es ++ [(i, ret)]) := by
  obtain ⟨es₁, es₂, r, rfl, hsys, ha0, hlater⟩ := h
  refine ⟨es₁, es₂ ++ [(i, ret)], r, by simp, hsys, ha0, fun q r' hmem hsys' hg => ?_⟩
  rcases List.mem_append.1 hmem with hmem | hmem
  · exact hlater q r' hmem hsys' hg
  · obtain ⟨rfl, rfl⟩ := Prod.mk.inj (List.mem_singleton.1 hmem)
    exact hother r' rfl hsys' rfl hg

/-- The events that change the routing. -/
def routesEvent : Event → Bool
  | .syscall r => routes r.sys
  | .userFault _ => true
  | _ => false

private theorem step_routing (h : k.step e = some (k', ret)) (hquiet : routesEvent e = false) : SameRouting k k' := by
  cases e with
  | syscall r =>
    simp only [step] at h
    split at h
    · exact dispatch_routing h hquiet
    · cases h
  | resume =>
    simp only [step] at h
    unfold resume at h
    split at h
    · cases h
    · cases h; exact ⟨rfl, rfl, rfl⟩
    · cases h; exact ⟨rfl, rfl, rfl⟩
    · have hsame := finishCall_routing h
      exact ⟨hsame.registry, hsame.uartDrvPid, hsame.irqPid⟩
  | tick =>
    cases h
    have hsame := SameRouting.switched { k with tickCount := k.tickCount + 1 } k.sched.timerTick
    exact ⟨hsame.registry, hsame.uartDrvPid, hsame.irqPid⟩
  | pciIrq _ | uartIrq _ => cases h; exact .switched k _
  | userFault code => cases hquiet

/-- When the current process ends, its first name is dropped; the pids of the handlers stay. -/
private theorem step_ends (h : k.step e = some (k', ret))
    (hends : (∃ r, e = .syscall r ∧ r.sys = .exit) ∨ ∃ code, e = .userFault code) :
    k'.registry = (k.registry.unregisterPid k.currentPid).1 ∧ k'.uartDrvPid = k.uartDrvPid ∧ k'.irqPid = k.irqPid := by
  rcases hends with ⟨r, rfl, hsys⟩ | ⟨code, rfl⟩
  · simp only [step] at h
    split at h
    · unfold dispatch at h
      rw [hsys] at h
      cases h
      have hsame := SameRouting.switched (k.terminateProcess k.currentPid)
        (k.terminateProcess k.currentPid).sched.forceScheduleNext
      exact ⟨hsame.registry, hsame.uartDrvPid, hsame.irqPid⟩
    · cases h
  · simp only [step] at h
    split at h
    · cases h
      unfold userFault
      exact ⟨(SameRouting.switched _ _).registry, (SameRouting.switched _ _).uartDrvPid,
        (SameRouting.switched _ _).irqPid⟩
    · cases h

/-- A registration changes nothing, or binds a name that was read to the caller. -/
private theorem step_register {r : Request} (hsys : r.sys = .register) (h : k.step (.syscall r) = some (k', ret)) :
    SameRouting k k' ∨ ∃ name t, validateUserPtr r.a0 nameLen 1 = true ∧ k.readName r.a0 = some name ∧
      k.registry.register name k.currentPid = (t, true) ∧ k'.registry = t ∧ k'.irqPid = k.irqPid ∧
      k'.uartDrvPid = if uartDrvName.isPrefixOf name then some k.currentPid else k.uartDrvPid := by
  simp only [step] at h
  split at h
  · unfold dispatch at h
    rw [hsys] at h
    dsimp only at h
    unfold sysRegister at h
    split at h
    · cases h; exact Or.inl ⟨rfl, rfl, rfl⟩
    · rename_i hptr
      obtain ⟨name, hname, heq⟩ := Option.map_eq_some_iff.1 h
      split at heq
      · cases heq; exact Or.inl ⟨rfl, rfl, rfl⟩
      · rename_i t ht
        cases heq
        exact Or.inr ⟨name, t, by simpa using hptr, hname, ht, rfl, rfl, rfl⟩
  · cases h

/-- An interrupt is refused, or given to the caller. -/
private theorem step_irqRegister {r : Request} (hsys : r.sys = .irqRegister)
    (h : k.step (.syscall r) = some (k', ret)) :
    k'.registry = k.registry ∧ k'.uartDrvPid = k.uartDrvPid ∧
      ((k'.irqPid = k.irqPid ∧ ret = .value einval) ∨ (
        (r.a0.toNat % 256 = 1 ∨ 8 ≤ r.a0.toNat % 256 ∧ r.a0.toNat % 256 ≤ 15) ∧ ret = .value 0 ∧
        k'.irqPid = fun g => if g = r.a0.toNat % 256 then some k.currentPid else k.irqPid g)) := by
  simp only [step] at h
  split at h
  · unfold dispatch at h
    rw [hsys] at h
    dsimp only at h
    unfold sysIrqRegister at h
    dsimp only at h
    split at h
    · rename_i hgsi
      cases h
      exact ⟨rfl, rfl, Or.inr ⟨hgsi, rfl, rfl⟩⟩
    · cases h; exact ⟨rfl, rfl, Or.inl ⟨rfl, rfl⟩⟩
  · cases h

end Events

/-! ### Every run -/

private theorem trimName_uartDrvName : trimName uartDrvName = uartDrvName := by decide

/-- A name other than `uart-drv` does not change what `uart-drv` looks up to. -/
private theorem lookup_uartDrv_register {t t' : Registry} {name : List Byte} {pid : Nat}
    (h : t.register name pid = (t', true)) (hne : trimName name ≠ uartDrvName) :
    t'.lookup uartDrvName = t.lookup uartDrvName := by
  have hcut : (trimName name).take (nameLen - 1) ≠ uartDrvName := by
    intro heq
    have hlen : min 15 (trimName name).length = 8 := by
      rw [← List.length_take]
      exact congrArg List.length heq
    rw [List.take_of_length_le (by show (trimName name).length ≤ 15; omega)] at heq
    exact hne heq
  have hsame : (t.register name pid).1.lookup uartDrvName = t.lookup uartDrvName :=
    Registry.lookup_register_of_ne (by rwa [trimName_uartDrvName]) (by rwa [trimName_uartDrvName])
  rwa [h] at hsame

/-- The routing, with the range of the interrupt numbers. -/
private structure Routing (es : List ((Nat × Event) × Ret)) (k : Kernel) : Prop extends Routed es k where
  range : ∀ g pid, k.irqPid g = some pid → g < 16

section Events

variable {k k' : Kernel} {i : Nat × Event} {ret : Ret} {es : List ((Nat × Event) × Ret)}

/-- The handlers stay registered over an event that neither changes them nor ends one of them. -/
private theorem irq_of_same (hk : Routing es k) (h : k.step i.2 = some (k', ret)) (hirq : k'.irqPid = k.irqPid)
    (hends : ∀ g pid, k.irqPid g = some pid → ¬ k.EventDoes i.2 (.terminateProcess pid))
    (hother : ∀ r, i.2 = .syscall r → r.sys = .irqRegister → ret ≠ .value 0) (g pid : Nat)
    (hg : k'.irqPid g = some pid) :
    k'.sched.getProcess pid ≠ none ∧ RegisteredFor g pid (es ++ [(i, ret)]) := by
  rw [hirq] at hg
  obtain ⟨hlive, hreg⟩ := hk.irq g pid hg
  exact ⟨live_event h hlive (hends g pid hg), hreg.snoc fun r hr hsys hret => absurd hret (hother r hr hsys)⟩

private theorem routing_same (hk : Routing es k) (h : k.step i.2 = some (k', ret)) (hsame : SameRouting k k')
    (hends : ∀ pid, ¬ k.EventDoes i.2 (.terminateProcess pid))
    (hother : ∀ r, i.2 = .syscall r → r.sys ≠ .irqRegister) : Routing (es ++ [(i, ret)]) k' := by
  refine ⟨⟨?_, irq_of_same hk h hsame.irqPid (fun _ pid _ => hends pid)
    fun r hr hsys => absurd hsys (hother r hr)⟩, ?_⟩
  · rw [hsame.uartDrvPid, hsame.registry]; exact hk.uart
  · rw [hsame.irqPid]; exact hk.range

private theorem routing_register {r : Request} (hsys : r.sys = .register) (hk : Routing es k)
    (hkeeps : k.keepsRouting (.syscall r) = true) (h : k.step (.syscall r) = some (k', ret)) (caller : Nat) :
    Routing (es ++ [((caller, .syscall r), ret)]) k' := by
  have hends : ∀ pid, ¬ k.EventDoes (.syscall r) (.terminateProcess pid) := by
    intro pid hdoes
    simp [EventDoes, MayDo, hsys] at hdoes
  have hother : ∀ r', Event.syscall r = .syscall r' → r'.sys ≠ .irqRegister := by
    intro r' hr
    cases hr
    simp [hsys]
  rcases step_register hsys h with hsame | ⟨name, t, hptr, hname, hreg, hregistry, hirq, huart⟩
  · exact routing_same (i := (caller, .syscall r)) hk h hsame hends hother
  · refine ⟨⟨?_, irq_of_same (i := (caller, .syscall r)) hk h hirq (fun _ pid _ => hends pid)
      fun r hr hirqSys => absurd hirqSys (hother r hr)⟩, by rw [hirq]; exact hk.range⟩
    rw [huart, hregistry]
    have hnames : k.namesDriver name = true := by
      simp only [keepsRouting, hsys, hptr, hname, Option.all_some, Bool.not_true, Bool.false_or] at hkeeps
      exact hkeeps
    by_cases htrim : trimName name = uartDrvName
    · -- the exact name: the caller is cached and registered
      have hprefix : uartDrvName.isPrefixOf name = true := by
        rw [List.isPrefixOf_iff_prefix, ← htrim]
        exact List.takeWhile_prefix _
      have hlookup := Registry.lookup_register_self hreg (by rw [htrim]; decide)
      rw [if_pos hprefix]
      unfold Registry.lookup at hlookup ⊢
      rw [trimName_uartDrvName, ← htrim]
      exact hlookup.symm
    · rw [lookup_uartDrv_register hreg htrim]
      split
      · -- a longer name, from the driver itself
        rename_i hprefix
        simp only [namesDriver, hprefix, htrim, hreg, Bool.not_true, decide_false, Bool.or_false, Bool.false_or,
          decide_eq_true_eq] at hnames
        exact hnames.symm
      · exact hk.uart

private theorem routing_irqRegister {r : Request} (hsys : r.sys = .irqRegister) (hk : Routing es k)
    (hlive : k.sched.getProcess k.currentPid ≠ none) (hkeeps : k.keepsRouting (.syscall r) = true)
    (h : k.step (.syscall r) = some (k', ret)) : Routing (es ++ [((k.currentPid, .syscall r), ret)]) k' := by
  have hends : ∀ pid, ¬ k.EventDoes (.syscall r) (.terminateProcess pid) := by
    intro pid hdoes
    simp [EventDoes, MayDo, hsys] at hdoes
  obtain ⟨hregistry, huart, ⟨hirq, hret⟩ | ⟨hallowed, rfl, hirq⟩⟩ := step_irqRegister hsys h
  · refine ⟨⟨by rw [huart, hregistry]; exact hk.uart, irq_of_same (i := (k.currentPid, .syscall r)) hk h hirq
      (fun _ pid _ => hends pid) fun r' _ _ => ?_⟩, by rw [hirq]; exact hk.range⟩
    rw [hret]
    decide
  · refine ⟨⟨by rw [huart, hregistry]; exact hk.uart, fun g pid hg => ?_⟩, fun g pid hg => ?_⟩
    · simp only [hirq] at hg
      split at hg
      · rename_i hgsi
        obtain rfl := Option.some.inj hg
        refine ⟨live_event h hlive (hends _), ?_⟩
        simp only [keepsRouting, hsys, hallowed, decide_true, Bool.not_true, Bool.or_false, Bool.or_eq_true,
          decide_eq_true_eq] at hkeeps
        rcases hkeeps with hbyte | hsame
        · exact ⟨es, [], r, rfl, hsys, by omega, by simp⟩
        · rw [← hgsi] at hsame
          exact (hk.irq g _ hsame).2.snoc fun _ _ _ _ _ => rfl
      · rename_i hgsi
        obtain ⟨hlive', hreg⟩ := hk.irq g pid hg
        refine ⟨live_event h hlive' (hends pid), hreg.snoc fun r' hr _ _ hg' => ?_⟩
        cases hr
        exact absurd hg'.symm hgsi
    · simp only [hirq] at hg
      split at hg
      · omega
      · exact hk.range g pid hg

private theorem routing_ends (hends : (∃ r, i.2 = .syscall r ∧ r.sys = .exit) ∨ ∃ code, i.2 = .userFault code)
    (hk : Routing es k) (hunrouted : k.unrouted k.currentPid = true) (h : k.step i.2 = some (k', ret)) :
    Routing (es ++ [(i, ret)]) k' := by
  obtain ⟨hname, hhandlers⟩ := Bool.and_eq_true_iff.1 hunrouted
  have hname : trimName (k.registry.lookupByPid k.currentPid) ≠ trimName uartDrvName := by
    rw [trimName_uartDrvName]
    exact of_decide_eq_true hname
  obtain ⟨hregistry, huart, hirq⟩ := step_ends h hends
  refine ⟨⟨?_, irq_of_same hk h hirq (fun g pid hg hdoes => ?_) fun r hr hsys => ?_⟩, by rw [hirq]; exact hk.range⟩
  · rw [huart, hregistry, Registry.lookup_unregisterPid_of_first hname]
    exact hk.uart
  · -- the process that ends handles no interrupt
    obtain ⟨rfl, -⟩ := ends_of_eventDoes hdoes
    have hne := List.all_eq_true.1 hhandlers g (List.mem_range.2 (hk.range g _ hg))
    simp [hg] at hne
  · rcases hends with ⟨r', hr', hexit⟩ | ⟨code, hcode⟩
    · rw [hr'] at hr
      cases hr
      rw [hsys] at hexit
      cases hexit
    · rw [hcode] at hr
      cases hr

/-- One event that keeps the routing. -/
private theorem routing_step (hissued : k.issued i = true) (hkeeps : k.keepsRouting i.2 = true) (hk : Routing es k)
    (h : k.stepOf i = some (k', ret)) : Routing (es ++ [(i, ret)]) k' := by
  obtain ⟨hcaller, hlive⟩ := Bool.and_eq_true_iff.1 hissued
  have hcaller : i.1 = k.currentPid := of_decide_eq_true hcaller
  obtain ⟨caller, e⟩ := i
  dsimp only at hcaller hlive hkeeps
  subst hcaller
  by_cases hquiet : routesEvent e = false
  · refine routing_same (i := (k.currentPid, e)) hk h (step_routing h hquiet) (fun pid hdoes => ?_) fun r hr hsys => ?_
    · obtain ⟨-, ⟨r, rfl, hsys⟩ | ⟨code, rfl⟩⟩ := ends_of_eventDoes hdoes
      · simp [routesEvent, routes, hsys] at hquiet
      · cases hquiet
    · cases hr
      simp [routesEvent, routes, hsys] at hquiet
  cases e with
  | syscall r =>
    have hlive : k.sched.getProcess k.currentPid ≠ none := Option.isSome_iff_ne_none.1 hlive
    have hsys : r.sys = .register ∨ r.sys = .irqRegister ∨ r.sys = .exit := by
      cases hsys : r.sys <;> simp [routesEvent, routes, hsys] at hquiet <;> simp
    rcases hsys with hsys | hsys | hsys
    · exact routing_register hsys hk hkeeps h _
    · exact routing_irqRegister hsys hk hlive hkeeps h
    · refine routing_ends (i := (k.currentPid, .syscall r)) (Or.inl ⟨r, rfl, hsys⟩) hk ?_ h
      simpa only [keepsRouting, hsys] using hkeeps
  | userFault code => exact routing_ends (i := (k.currentPid, .userFault code)) (Or.inr ⟨code, rfl⟩) hk hkeeps h
  | resume => exact absurd rfl hquiet
  | tick => exact absurd rfl hquiet
  | pciIrq gsi => exact absurd rfl hquiet
  | uartIrq bytes => exact absurd rfl hquiet

end Events

/-- In every run of the kernel from a state without drivers whose events keep the routing, the cached UART driver is the
process registered as `uart-drv`, and every interrupt goes to a live process that registered for it and was not
replaced. -/
theorem interrupts_routed {k₀ k : Kernel} {es : List ((Nat × Event) × Ret)} (hboot : k₀.NoDrivers)
    (h : Run stepOf (fun k i => (k.issued i && k.keepsRouting i.2) = true) k₀ es k) : Routed es k := by
  have hrouting : Routing es k := by
    refine h.history (P := Routing) (fun hk hguard hstep => ?_) ?_
    · obtain ⟨hissued, hkeeps⟩ := Bool.and_eq_true_iff.1 hguard
      exact routing_step hissued hkeeps hk hstep
    · refine ⟨⟨?_, fun g pid hg => ?_⟩, fun g pid hg => ?_⟩
      · rw [hboot.uartDrvPid, hboot.registry]
        decide
      · rw [hboot.irqPid] at hg; cases hg
      · rw [hboot.irqPid] at hg; cases hg
  exact hrouting.toRouted

/-- Two processes, and a buffer at `0x4000` with the name `uart-drv` and the bytes of `rest`. -/
def named (rest : Word) : Kernel :=
  { Kernel.small with
    registry := Registry.new
    mem :=
      { Memory.small with
        ram := fun frame i =>
          if frame = 0x4000 ∧ i = 0 then 0x7672642d74726175
          else if frame = 0x4000 ∧ i = 1 then rest
          else Memory.small.ram frame i } }

private theorem named_noDrivers (rest : Word) : (named rest).NoDrivers := ⟨rfl, rfl, fun _ => rfl⟩

/-- Process 2 registers as `uart-drv` and for the keyboard interrupt; a tick later both are still routed to it. -/
theorem interrupts_routed_two : ∃ es k, (named 0).NoDrivers ∧
    Run stepOf (fun k i => (k.issued i && k.keepsRouting i.2) = true) (named 0) es k ∧ Routed es k ∧
      k.uartDrvPid = some 2 ∧ k.irqPid 1 = some 2 := by
  have hexec : (exec stepOf (fun k i => (k.issued i && k.keepsRouting i.2) = true) (named 0)
      [(2, .syscall ⟨.register, 0x4000, 0, 0, 0, 0⟩), (2, .syscall ⟨.irqRegister, 1, 0, 0, 0, 0⟩), (2, .tick)]).any
      (fun out => decide (out.1.uartDrvPid = some 2 ∧ out.1.irqPid 1 = some 2)) = true := by decide
  obtain ⟨⟨k, es⟩, hrun, hout⟩ := (Option.any_eq_true _ _).1 hexec
  obtain ⟨huart, hirq⟩ := of_decide_eq_true hout
  have hrun := run_of_exec hrun
  exact ⟨es, k, named_noDrivers 0, hrun, interrupts_routed (named_noDrivers 0) hrun, huart, hirq⟩

/-- The name `uart-drv2` makes process 2 the cached driver, and `uart-drv` is not registered. -/
theorem longer_name_routed : ∃ es k, (named 0x32).NoDrivers ∧
    Run stepOf (fun k i => k.issued i = true) (named 0x32) es k ∧ ¬ Routed es k := by
  have hexec : (exec stepOf (fun k i => k.issued i = true) (named 0x32)
      [(2, .syscall ⟨.register, 0x4000, 0, 0, 0, 0⟩)]).any
      (fun out => decide (out.1.uartDrvPid = some 2 ∧ out.1.registry.lookup uartDrvName = none)) = true := by
    decide
  obtain ⟨⟨k, es⟩, hrun, hout⟩ := (Option.any_eq_true _ _).1 hexec
  obtain ⟨huart, hlookup⟩ := of_decide_eq_true hout
  refine ⟨es, k, named_noDrivers 0x32, run_of_exec hrun, fun hrouted => ?_⟩
  have hcached := hrouted.uart
  rw [huart, hlookup] at hcached
  cases hcached

end Kernel

end Rost
