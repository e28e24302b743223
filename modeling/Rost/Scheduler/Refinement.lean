import Rost.Lib.Mailroom
import Rost.Lib.Run
import Rost.Scheduler.Step

/-!
# The scheduler as a message-passing system

Forgetting everything but mailboxes, wait-for links, blocked states and deadlines, the scheduler is a system of parties
that exchange messages: every operation is one action of the abstract system (`step_refines`).  The properties of that
system then hold in every run of the scheduler: delivery in order, and no cycle of blocked processes.
-/

namespace Rost

namespace Scheduler

open Lib (Run exec run_of_exec Party Mailroom Action)

/-- What other processes see of a process. -/
def party (p : Pcb) : Party Message :=
  ⟨p.mailbox.contents, p.waitingFor, decide (p.state = .blocked), p.blockedDeadline⟩

/-- The processes as parties, the next pid and the tick counter. -/
def view (s : Scheduler) : Mailroom Message :=
  ⟨fun q => (s.getProcess q).map party, s.processTable.nextPid, s.tick⟩

/-- The messages of accepted sends to `p` in a history, with the sender the kernel stamped. -/
def accepted (p : Nat) (es : List (Op × Ret)) : List Message :=
  es.filterMap fun e =>
    match e with
    | (.sendMessage fromPid toPid msg, .sent true) => if toPid = p then some { msg with sender := fromPid } else none
    | _ => none

/-- The messages that receives of `p` have returned in a history. -/
def received (p : Nat) (es : List (Op × Ret)) : List Message :=
  es.filterMap fun e =>
    match e with
    | (.blockingReceive pid _, .received (some msg)) => if pid = p then some msg else none
    | _ => none

/-! ### The view after an update -/

private theorem party_eq_of_activity {p q : Pcb} (h : activity p = activity q) : party p = party q := by
  have hs : p.state = q.state := congrArg Activity.state h
  have hm : p.mailbox = q.mailbox := congrArg Activity.mailbox h
  have hw : p.waitingFor = q.waitingFor := congrArg Activity.waitingFor h
  have hd : p.blockedDeadline = q.blockedDeadline := congrArg Activity.blockedDeadline h
  unfold party
  rw [hs, hm, hw, hd]

private theorem view_quiet {s s' : Scheduler} (h : Quiet s s') : view s' = view s := by
  unfold view
  rw [h.tick, h.nextPid]
  congr 1
  funext q
  have hq := h.activity q
  cases hp : s.getProcess q with
  | none => rw [hp] at hq; rw [Option.map_eq_none_iff.1 hq]
  | some p =>
    rw [hp, Option.map_some] at hq
    obtain ⟨p', hp', hact⟩ := Option.map_eq_some_iff.1 hq
    rw [hp', Option.map_some, Option.map_some, party_eq_of_activity hact]

/-- An update of one record is a modification of one party. -/
private theorem view_update {s : Scheduler} {pid : Nat} {f : Pcb → Pcb} {hf : ∀ p, (f p).pid = p.pid}
    {g : Party Message → Party Message} (h : ∀ p, s.getProcess pid = some p → party (f p) = g (party p)) :
    view (s.update pid f hf) = (view s).modify pid g := by
  unfold view Mailroom.modify
  congr 1
  funext q
  simp only [getProcess_update]
  split
  · rename_i hq
    subst hq
    cases hp : s.getProcess q with
    | none => rfl
    | some p => simp only [Option.map_some, h p hp]
  · rfl

private theorem view_update_same {s : Scheduler} {pid : Nat} {f : Pcb → Pcb} {hf : ∀ p, (f p).pid = p.pid}
    (h : ∀ p, s.getProcess pid = some p → party (f p) = party p) : view (s.update pid f hf) = view s := by
  rw [view_update (g := id) h]
  unfold Mailroom.modify
  simp only [Option.map_id, id_eq, ite_self]

private theorem party_demote (p : Pcb) : party (demote p) = party p := by
  unfold demote
  split
  · rename_i hrun
    simp [party, hrun]
  · rfl

private theorem party_preempt (tick : Nat) (p : Pcb) : party (preempt tick p) = party p := by
  have h := party_demote { charge p with cpuTime := 0 }
  unfold preempt expire
  simp only
  split <;> exact h

private theorem party_refresh (tick : Nat) (p : Pcb) : party (refresh tick p) = (party p).expire u64Max tick := by
  have hcheck : party (refresh tick p) = party (ProcessTable.checkDeadline tick p) := by
    unfold refresh; simp only; split <;> split <;> rfl
  rw [hcheck]
  unfold ProcessTable.checkDeadline Party.expire Party.wake
  by_cases hb : p.state = .blocked <;> by_cases hd : p.blockedDeadline ≤ tick <;>
    simp [party, ProcessTable.unblocked, hb, hd]

private theorem party_deliver (msg : Message) {p : Pcb} (h : p.mailbox.contents.length < queueCapacity) :
    party (deliver msg p) = (party p).accept u64Max msg := by
  have hbox := (MessageQueue.contents_send (m := msg) h).2
  unfold deliver Party.accept Party.wake
  by_cases hb : p.state = .blocked <;> simp [party, ProcessTable.unblocked, hb, hbox]

private theorem party_deliverNotification (word : Word) (p : Pcb) :
    party (deliverNotification word p) = (party p).wake u64Max := by
  unfold deliverNotification Party.wake
  by_cases hb : p.state = .blocked <;> simp [party, ProcessTable.unblocked, hb]

/-! ### Each operation is an action -/

/-- Entering a runnable process changes no party. -/
private theorem view_enter {s : Scheduler} {next : Nat} (i : Nat) (old : Option Nat)
    (h : ∃ p, s.getProcess next = some p ∧ p.isRunnable = true) :
    view (({ s with queueIndex := i } : Scheduler).enter old next).1 = view s := by
  obtain ⟨p, hp, hrun⟩ := h
  refine view_update_same (s := { s with queueIndex := i, currentProcess := some next }) ?_
  intro p' hp'
  have heq : p' = p := Option.some.inj (hp'.symm.trans hp)
  have hnb : p'.state ≠ .blocked := by
    rw [heq]
    intro hb
    simp [Pcb.isRunnable, hb] at hrun
  simp [party, hnb]

private theorem view_switches {s s' : Scheduler} (h : Switches s s') : view s' = view s := by
  cases h with
  | stay i => rfl
  | enter i old next hpick => exact view_enter i old (pickNextPriority_runnable hpick)
  | point i next _ _ => rfl

/-- A tick of the timer is a tick of the clock. -/
theorem view_timerTick (s : Scheduler) :
    view s.timerTick.1 = (view s).act u64Max (.tick (wrapAdd 64 s.tick 1)) := by
  have hadv : view s.advanceTick = (view s).act u64Max (.tick (wrapAdd 64 s.tick 1)) := by
    unfold view Mailroom.act
    have hnext : s.advanceTick.processTable.nextPid = s.processTable.nextPid := by
      unfold advanceTick; simp only; split <;> split <;> rfl
    rw [hnext, tick_advanceTick]
    congr 1
    funext q
    rw [getProcess_advanceTick]
    simp only [Option.map_map]
    congr 1
    funext p
    exact party_refresh _ p
  have hcharge : view s.advanceTick.chargeCurrent.1 = view s.advanceTick := by
    rcases s.advanceTick.chargeCurrent_cases with ⟨-, hch⟩ | ⟨cpid, p, -, -, ⟨-, hch⟩ | ⟨-, hch⟩⟩
    · rw [hch]
    · rw [hch]; exact view_update_same (fun _ _ => rfl)
    · rw [hch]; exact view_update_same (fun p _ => party_preempt _ p)
  rw [← hadv, ← hcharge]
  rcases s.timerTick_cases with ⟨-, heq⟩ | ⟨hflag, -⟩
  · rw [heq]
  · exact view_switches (timerTick_switches hflag)

private theorem view_yieldSwitch (s : Scheduler) : view s.yieldSwitch.1 = view s := by
  rcases s.yieldSwitch_cases with ⟨-, heq⟩ | ⟨cpid, -, hsw⟩
  · rw [heq]
  · rw [view_switches hsw]
    exact view_update_same (fun p _ => party_demote { p with cpuTime := 0 })

private theorem view_rescheduleIsr (s : Scheduler) : view s.rescheduleIsr.1 = view s := by
  rcases s.rescheduleIsr_cases with ⟨i, heq⟩ | ⟨i, next, -, -, heq⟩ | ⟨cpid, next, i, -, hpick, hne, heq⟩
  · rw [heq]; rfl
  · rw [heq]; rfl
  · rw [heq]
    have hrun : ∃ p, (s.update cpid demote demote_pid).getProcess next = some p ∧ p.isRunnable = true := by
      rw [getProcess_update, if_neg hne]
      exact pickNextPriority_runnable hpick
    have henter := view_enter i (some cpid) hrun
    rw [view_update_same (fun p _ => party_demote p)] at henter
    exact henter

private theorem view_schedule (s : Scheduler) : view s.schedule.1 = view s := by
  obtain ⟨i, hi⟩ := s.pickNextPriority_fst
  unfold schedule
  rw [hi]; rfl

private theorem view_yieldCurrent (s : Scheduler) : view s.yieldCurrent = view s := by
  unfold yieldCurrent
  cases s.currentProcess with
  | none => rfl
  | some cpid => exact view_update_same (fun p _ => party_demote { p with cpuTime := p.timeSlice })

/-- The operation `op` blocks `p` until the deadline `d`. -/
def BlocksUntil (s : Scheduler) (op : Op) (p d : Nat) : Prop :=
  ∃ t, t ≠ 0 ∧ op = .blockingReceive p t ∧ d = if t = u64Max then u64Max else saturatingAdd s.tick t

/-- The operation `op` moves the same messages as the action `a`, blocks and removes the same party, and advances the
clock alike. -/
structure Matches (s : Scheduler) (op : Op) (r : Ret) (a : Action Message) : Prop where
  sent : ∀ p, Mailroom.sentTo p [a] = accepted p [(op, r)]
  read : ∀ p, Mailroom.readBy p [a] = received p [(op, r)]
  blocks : ∀ p d, a = .block p d → s.BlocksUntil op p d
  ticks : ∀ now, a = .tick now → op = .timerTick ∧ now = wrapAdd 64 s.tick 1
  leaves : ∀ p, a = .leave p → op = .terminateProcess p

/-- An operation that changes no party and moves no message is the idle action. -/
private theorem refines_idle {s s' : Scheduler} {op : Op} {r : Ret} (h : view s' = view s)
    (hop : ∀ p, accepted p [(op, r)] = [] ∧ received p [(op, r)] = []) :
    ∃ a, (view s).Enabled queueCapacity a ∧ view s' = (view s).act u64Max a ∧ s.Matches op r a :=
  ⟨.idle, trivial, h, fun p => (hop p).1.symm, fun p => (hop p).2.symm, nofun, nofun, nofun⟩

private theorem refines_adds {s s' : Scheduler} {op : Op} {base : Word} {r : Option Nat} (h : Adds base s s' r)
    (hop : ∀ p, accepted p [(op, .pid r)] = [] ∧ received p [(op, .pid r)] = []) :
    ∃ a, (view s).Enabled queueCapacity a ∧ view s' = (view s).act u64Max a ∧ s.Matches op (.pid r) a := by
  obtain ⟨-, htick, hcases⟩ := h
  rcases hcases with ⟨-, hnext, hsame⟩ | ⟨-, hnext, hnone, id, rsp, hget⟩
  · refine refines_idle ?_ hop
    unfold view
    rw [htick, hnext, funext hsame]
  · refine ⟨.join, ?_, ?_, fun p => (hop p).1.symm, fun p => (hop p).2.symm, nofun, nofun, nofun⟩
    · show (s.getProcess s.processTable.nextPid).map party = none
      rw [hnone]; rfl
    · unfold view Mailroom.act
      rw [htick, hnext]
      congr 1
      funext q
      rw [hget]
      split <;> rfl

private theorem refines_sendMessage (s : Scheduler) (fromPid toPid : Nat) (msg : Message) :
    ∃ a, (view s).Enabled queueCapacity a ∧ view (s.sendMessage fromPid toPid msg).1 = (view s).act u64Max a ∧
      s.Matches (.sendMessage fromPid toPid msg) (.sent (s.sendMessage fromPid toPid msg).2) a := by
  have hcharge : view (s.update fromPid (chargeSend toPid) (chargeSend_pid toPid)) =
      (view s).modify fromPid fun x => { x with waitingFor := some toPid } := view_update (fun _ _ => rfl)
  rcases s.sendMessage_cases fromPid toPid msg with ⟨-, heq⟩ | ⟨p, hp, -, ⟨hfull, heq⟩ | ⟨hlt, heq⟩⟩
  · rw [heq]
    exact refines_idle rfl (fun _ => ⟨rfl, rfl⟩)
  · rw [heq]
    refine ⟨.refuse fromPid toPid, ⟨party p, ?_, hfull⟩, hcharge, fun _ => rfl, fun _ => rfl, nofun, nofun, nofun⟩
    show (s.getProcess toPid).map party = some (party p)
    rw [hp]; rfl
  · rw [heq]
    refine ⟨.send fromPid toPid { msg with sender := fromPid }, ⟨party p, ?_, hlt⟩, ?_, fun _ => rfl, fun _ => rfl,
      nofun, nofun, nofun⟩
    · show (s.getProcess toPid).map party = some (party p)
      rw [hp]; rfl
    · show view ((s.update fromPid _ _).update toPid _ _) = _
      rw [view_update (g := Party.accept u64Max { msg with sender := fromPid }), hcharge]
      · rfl
      · intro p' hp'
        apply party_deliver
        rw [getProcess_update, hp] at hp'
        split at hp'
        · rw [← Option.some.inj hp']; exact hlt
        · rw [← Option.some.inj hp']; exact hlt

private theorem refines_blockingReceive (s : Scheduler) (pid t : Nat) :
    ∃ a, (view s).Enabled queueCapacity a ∧ view (s.blockingReceive pid t).1 = (view s).act u64Max a ∧
      s.Matches (.blockingReceive pid t) (.received (s.blockingReceive pid t).2) a := by
  rcases s.blockingReceive_cases pid t with
    ⟨-, heq⟩ | ⟨p, hp, ⟨msg, rest, hbox, heq⟩ | ⟨-, -, heq⟩ | ⟨hbox, hne, heq⟩⟩
  · rw [heq]
    exact refines_idle rfl (fun _ => ⟨rfl, rfl⟩)
  · rw [heq]
    have hparty : (view s).party pid = some (party p) := by
      show (s.getProcess pid).map party = some (party p)
      rw [hp]; rfl
    refine ⟨.receive pid msg, ⟨party p, rest, hparty, hbox⟩, ?_, fun _ => rfl, fun _ => rfl, nofun, nofun, nofun⟩
    refine view_update (fun q _ => ?_)
    simp only [party]
    rw [(MessageQueue.receive_eq q.mailbox).2]
  · rw [heq]
    exact refines_idle rfl (fun _ => ⟨rfl, rfl⟩)
  · rw [heq]
    have hparty : (view s).party pid = some (party p) := by
      show (s.getProcess pid).map party = some (party p)
      rw [hp]; rfl
    refine ⟨.block pid (if t = u64Max then u64Max else saturatingAdd s.tick t), ⟨party p, hparty, hbox⟩,
      view_update (fun _ _ => by simp [party]), fun _ => rfl, fun _ => rfl, fun p d h => ?_, nofun, nofun⟩
    cases h
    exact ⟨t, hne, rfl, rfl⟩

private theorem view_terminateProcess (s : Scheduler) (pid : Nat) :
    view (s.terminateProcess pid).1 = (view s).act u64Max (.leave pid) := by
  have hnext : (s.terminateProcess pid).1.processTable.nextPid = s.processTable.nextPid :=
    ProcessTable.nextPid_terminateProcess s.processTable pid
  unfold view Mailroom.act
  rw [hnext]
  congr 1
  funext q
  rw [getProcess_terminateProcess]
  split <;> rfl

private theorem view_notifyProcess (s : Scheduler) (toPid : Nat) (word : Word) :
    view (s.notifyProcess toPid word).1 = (view s).act u64Max (.notify toPid) := by
  rcases s.notifyProcess_cases toPid word with ⟨hnone, heq⟩ | ⟨p, -, heq⟩
  · rw [heq]
    unfold view Mailroom.act Mailroom.modify
    congr 1
    funext q
    by_cases hq : q = toPid
    · simp only [hq, hnone, Option.map_none, ite_self]
    · simp only [hq, if_false]
  · rw [heq]
    exact view_update (fun p _ => party_deliverNotification word p)

/-- Every operation of the scheduler is an action of the message-passing system, and moves the same messages. -/
theorem step_refines {s s' : Scheduler} {op : Op} {r : Ret} (hstep : s.step op = some (s', r)) :
    ∃ a, (view s).Enabled queueCapacity a ∧ view s' = (view s).act u64Max a ∧ s.Matches op r a := by
  by_cases hquiet : op.isQuiet = true
  · refine refines_idle (view_quiet (quiet_of_isQuiet hquiet hstep)) (fun p => ?_)
    cases op <;> first | (cases hquiet; done) | exact ⟨rfl, rfl⟩
  cases op <;> first | (exact absurd rfl hquiet) | skip
  case addProcess base =>
    obtain ⟨⟨t, r'⟩, hadd, heq⟩ := Option.map_eq_some_iff.1 hstep
    obtain ⟨rfl, rfl⟩ := Prod.mk.inj heq
    exact refines_adds (addProcess_adds hadd) (fun _ => ⟨rfl, rfl⟩)
  case addRing3Process base =>
    obtain ⟨⟨t, r'⟩, hadd, heq⟩ := Option.map_eq_some_iff.1 hstep
    obtain ⟨rfl, rfl⟩ := Prod.mk.inj heq
    exact refines_adds (addRing3Process_adds hadd) (fun _ => ⟨rfl, rfl⟩)
  all_goals
    simp only [step, Option.some.injEq, Prod.mk.injEq] at hstep
    obtain ⟨rfl, rfl⟩ := hstep
  case setQuotas pid _ _ _ => exact refines_idle (view_update_same (fun _ _ => rfl)) (fun _ => ⟨rfl, rfl⟩)
  case setCurrent pid => exact refines_idle rfl (fun _ => ⟨rfl, rfl⟩)
  case schedule => exact refines_idle s.view_schedule (fun _ => ⟨rfl, rfl⟩)
  case timerTick =>
    exact ⟨.tick _, trivial, s.view_timerTick, fun _ => rfl, fun _ => rfl, fun _ _ h => (by cases h),
      fun _ h => ⟨rfl, by cases h; rfl⟩, fun _ h => (by cases h)⟩
  case forceScheduleNext =>
    exact refines_idle (view_switches s.forceScheduleNext_switches) (fun _ => ⟨rfl, rfl⟩)
  case prepareBlockSwitch pid =>
    exact refines_idle (view_switches (s.prepareBlockSwitch_switches pid)) (fun _ => ⟨rfl, rfl⟩)
  case rescheduleIsr => exact refines_idle s.view_rescheduleIsr (fun _ => ⟨rfl, rfl⟩)
  case yieldCurrent => exact refines_idle s.view_yieldCurrent (fun _ => ⟨rfl, rfl⟩)
  case yieldSwitch => exact refines_idle s.view_yieldSwitch (fun _ => ⟨rfl, rfl⟩)
  case sendMessage fromPid toPid msg => exact refines_sendMessage s fromPid toPid msg
  case blockingReceive pid t => exact refines_blockingReceive s pid t
  case terminateProcess pid =>
    exact ⟨.leave pid, trivial, s.view_terminateProcess pid, fun _ => rfl, fun _ => rfl, fun _ _ h => (by cases h),
      fun _ h => (by cases h), fun p h => by cases h; rfl⟩
  case notifyProcess toPid word =>
    exact ⟨.notify toPid, trivial, s.view_notifyProcess toPid word, fun _ => rfl, fun _ => rfl, fun _ _ h => (by cases h),
      fun _ h => (by cases h), fun _ h => (by cases h)⟩

/-! ### Every run -/

theorem nextPid_step {s s' : Scheduler} {op : Op} {r : Ret} (hstep : s.step op = some (s', r)) :
    s.processTable.nextPid ≤ s'.processTable.nextPid := by
  obtain ⟨a, -, hview, -⟩ := step_refines hstep
  have h := Mailroom.next_le_act u64Max (view s) a
  rw [← hview] at h
  exact h

/-- Only a tick advances the clock. -/
theorem tick_step {s s' : Scheduler} {op : Op} {r : Ret} (hstep : s.step op = some (s', r)) (htick : op ≠ .timerTick) :
    s'.tick = s.tick := by
  obtain ⟨a, -, hview, hmatch⟩ := step_refines hstep
  have hclock := congrArg Mailroom.clock hview
  rw [Mailroom.clock_act u64Max (view s) fun now ha => htick (hmatch.ticks now ha).1] at hclock
  exact hclock

/-- A process stays until it is terminated. -/
theorem live_step {s s' : Scheduler} {op : Op} {r : Ret} {pid : Nat} (hstep : s.step op = some (s', r))
    (hop : op ≠ .terminateProcess pid) (hlive : s.getProcess pid ≠ none) : s'.getProcess pid ≠ none := by
  obtain ⟨a, -, hview, hmatch⟩ := step_refines hstep
  have hparty : (view s).party pid ≠ none := fun h => hlive (Option.map_eq_none_iff.1 h)
  have hstays := Mailroom.party_act_ne_none u64Max hparty fun ha => hop (hmatch.leaves pid ha)
  rw [← hview] at hstays
  exact fun h => hstays (Option.map_eq_none_iff.2 h)

theorem tick_timerTick (s : Scheduler) : s.timerTick.1.tick = wrapAdd 64 s.tick 1 :=
  congrArg Mailroom.clock s.view_timerTick

theorem view_new (base : Nat) : view (new base) = ⟨fun _ => none, 1, 0⟩ := by
  unfold view
  simp only [getProcess_new]
  rfl

/-- A blocked process waits for a blocked process. -/
def WaitEdge (s : Scheduler) (p q : Nat) : Prop :=
  ∃ x y, s.getProcess p = some x ∧ x.state = .blocked ∧ x.waitingFor = some q ∧
    s.getProcess q = some y ∧ y.state = .blocked

private theorem waitsFor_of_waitEdge {s : Scheduler} {p q : Nat} (h : s.WaitEdge p q) : (view s).WaitsFor p q := by
  obtain ⟨x, y, hx, hxb, hw, hy, hyb⟩ := h
  refine ⟨party x, party y, ?_, decide_eq_true hxb, hw, ?_, decide_eq_true hyb⟩
  · show (s.getProcess p).map party = some (party x)
    rw [hx]; rfl
  · show (s.getProcess q).map party = some (party y)
    rw [hy]; rfl

/-- In every reachable state the blocked processes form no cycle of wait-for links. -/
theorem waitEdge_acyclic {base : Nat} {es : List (Op × Ret)} {s : Scheduler}
    (h : Run step (fun _ _ => True) (new base) es s) (p : Nat) : ¬ Relation.TransGen s.WaitEdge p p := by
  have hinv : (view s).BlockedEmpty ∧ (view s).WaitOrdered := by
    refine h.invariant (P := fun t => (view t).BlockedEmpty ∧ (view t).WaitOrdered) ?_ ?_
    · intro t u op r ⟨hb, ho⟩ _ hstep
      obtain ⟨a, hen, heq, -⟩ := step_refines hstep
      rw [heq]
      exact ⟨Mailroom.blockedEmpty_act hb hen, Mailroom.waitOrdered_act (by decide) ho hen⟩
    · rw [view_new]
      refine ⟨?_, fun _ => 0, 0, fun _ => Nat.le_refl _, ?_⟩
      · intro q x hx
        cases hx
      · intro p q x y hx
        cases hx
  intro hcycle
  exact Mailroom.waitsFor_acyclic hinv.1 hinv.2 p (hcycle.lift id fun _ _ => waitsFor_of_waitEdge)

/-- Process 2 blocks on process 3 after it has read the request of process 1, which is blocked on it. -/
theorem waitEdge_acyclic_chain :
    ∃ es s, Run step (fun _ _ => True) (new 0) es s ∧
      (s.getProcess 1).any (fun x => decide (x.state = .blocked ∧ x.waitingFor = some 2)) = true ∧
      (s.getProcess 2).any (fun x => decide (x.state = .blocked ∧ x.waitingFor = some 3)) = true ∧
      ¬ Relation.TransGen s.WaitEdge 1 1 := by
  have h : (exec step (fun _ _ => True) (new 0)
      [.addProcess 0, .addProcess 0, .addProcess 0, .sendMessage 1 2 (Message.new 0), .blockingReceive 1 u64Max,
        .blockingReceive 2 u64Max, .sendMessage 2 3 (Message.new 0), .blockingReceive 2 u64Max]).any
      (fun o => (o.1.getProcess 1).any (fun x => decide (x.state = .blocked ∧ x.waitingFor = some 2)) &&
        (o.1.getProcess 2).any (fun x => decide (x.state = .blocked ∧ x.waitingFor = some 3))) = true := by decide
  obtain ⟨⟨s, es⟩, hexec, hlinks⟩ := (Option.any_eq_true _ _).1 h
  obtain ⟨h₁, h₂⟩ := Bool.and_eq_true_iff.1 hlinks
  exact ⟨es, s, run_of_exec hexec, h₁, h₂, waitEdge_acyclic (run_of_exec hexec) 1⟩

private theorem accepted_append (p : Nat) (es fs : List (Op × Ret)) :
    accepted p (es ++ fs) = accepted p es ++ accepted p fs := List.filterMap_append

private theorem received_append (p : Nat) (es fs : List (Op × Ret)) :
    received p (es ++ fs) = received p es ++ received p fs := List.filterMap_append

/-- A run is a history of the message-passing system that moves the same messages. -/
private theorem delivered_run {base : Nat} {es : List (Op × Ret)} {s : Scheduler}
    (h : Run step (fun _ _ => True) (new base) es s) :
    ∃ as, Mailroom.Delivered as (view s) ∧ (∀ p, Mailroom.readBy p as <+: Mailroom.sentTo p as) ∧
      ∀ p, Mailroom.sentTo p as = accepted p es ∧ Mailroom.readBy p as = received p es := by
  refine h.history (P := fun es t => ∃ as, Mailroom.Delivered as (view t) ∧
    (∀ p, Mailroom.readBy p as <+: Mailroom.sentTo p as) ∧
    ∀ p, Mailroom.sentTo p as = accepted p es ∧ Mailroom.readBy p as = received p es) ?_ ?_
  · intro es t u op r ⟨as, hdel, hfront, hmoved⟩ _ hstep
    obtain ⟨a, hen, heq, hobs⟩ := step_refines hstep
    refine ⟨as ++ [a], by rw [heq]; exact Mailroom.delivered_act hdel hen,
      Mailroom.readBy_prefix_act u64Max hdel hfront hen, fun p => ?_⟩
    rw [accepted_append, received_append, ← (hmoved p).1, ← (hmoved p).2, ← hobs.sent p, ← hobs.read p]
    exact ⟨List.filterMap_append, List.filterMap_append⟩
  · rw [view_new]
    refine ⟨[], ⟨?_, fun p _ => ⟨rfl, rfl, rfl⟩⟩, fun p => List.nil_prefix, fun p => ⟨rfl, rfl⟩⟩
    intro p x hx
    cases hx

/-- What a process has received, whether it still exists or not, is the beginning of what was sent to it. -/
theorem received_starts {base : Nat} {es : List (Op × Ret)} {s : Scheduler}
    (h : Run step (fun _ _ => True) (new base) es s) (p : Nat) : received p es <+: accepted p es := by
  obtain ⟨as, -, hfront, hmoved⟩ := delivered_run h
  rw [← (hmoved p).1, ← (hmoved p).2]
  exact hfront p

/-- Every process has received, and holds in its mailbox, exactly the messages whose send was accepted, in the order of
the sends and stamped with their senders; and a send to a process is refused for lack of space exactly when 16 messages
are pending. -/
theorem delivery_exact {base : Nat} {es : List (Op × Ret)} {s : Scheduler}
    (h : Run step (fun _ _ => True) (new base) es s) :
    (∀ p x, s.getProcess p = some x → received p es ++ x.mailbox.contents = accepted p es) ∧
    (∀ fromPid toPid msg x, s.getProcess toPid = some x → (s.getProcess fromPid).any rateLimited = false →
      ((s.sendMessage fromPid toPid msg).2 = false ↔ x.mailbox.contents.length = 16)) := by
  constructor
  · obtain ⟨as, hdel, -, hmoved⟩ := delivered_run h
    intro p x hx
    have hheld := hdel.held p (party x) (by show (s.getProcess p).map party = _; rw [hx]; rfl)
    rw [(hmoved p).1, (hmoved p).2] at hheld
    exact hheld
  · intro fromPid toPid msg x hx hlim
    rcases s.sendMessage_cases fromPid toPid msg with ⟨hno, -⟩ | ⟨x', hx', -, ⟨hfull, heq⟩ | ⟨hlt, heq⟩⟩
    · rw [hx, hlim] at hno
      rcases hno with hno | hno <;> cases hno
    · rw [hx] at hx'
      rw [Option.some.inj hx', heq]
      exact ⟨fun _ => hfull, fun _ => rfl⟩
    · rw [hx] at hx'
      rw [Option.some.inj hx', heq]
      constructor
      · intro hf; cases hf
      · intro hlen
        rw [hlen] at hlt
        exact absurd hlt (by decide)

/-- Process 2 reads the first of two messages of process 1; the forged sender 7 does not survive. -/
theorem delivery_exact_two :
    ∃ es s x, Run step (fun _ _ => True) (new 0) es s ∧ s.getProcess 2 = some x ∧
      received 2 es = [Message.new 1] ∧ accepted 2 es = [Message.new 1, Message.new 1] ∧
      received 2 es ++ x.mailbox.contents = accepted 2 es := by
  have h : (exec step (fun _ _ => True) (new 0)
      [.addProcess 0, .addProcess 0, .sendMessage 1 2 (Message.new 7), .sendMessage 1 2 (Message.new 7),
        .blockingReceive 2 0]).any
      (fun o => (o.1.getProcess 2).isSome && decide (received 2 o.2 = [Message.new 1]) &&
        decide (accepted 2 o.2 = [Message.new 1, Message.new 1])) = true := by decide
  obtain ⟨⟨s, es⟩, hexec, hall⟩ := (Option.any_eq_true _ _).1 h
  obtain ⟨hpre, hacc⟩ := Bool.and_eq_true_iff.1 hall
  obtain ⟨hlive, hrec⟩ := Bool.and_eq_true_iff.1 hpre
  obtain ⟨x, hx⟩ := Option.isSome_iff_exists.1 hlive
  exact ⟨es, s, x, run_of_exec hexec, hx, of_decide_eq_true hrec, of_decide_eq_true hacc,
    (delivery_exact (run_of_exec hexec)).1 2 x hx⟩

end Scheduler

end Rost
