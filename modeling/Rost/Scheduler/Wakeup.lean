import Rost.Scheduler.Refinement
import Rost.Scheduler.Records

/-!
# Sleeping and waking

A process sleeps only while it has nothing to read and its deadline has not come: messages, notifications and the timer
wake it, and all reset the deadline to `u64::MAX`.  The exception is the last tick of the clock, where `u64::MAX` is
the time and also the deadline that never comes.

A notification wakes a process that sleeps, but `blocking_receive` does not look at the pending word, so a process that
was notified before it blocks sleeps on it.
-/

namespace Rost

namespace Scheduler

open Lib (Run exec run_of_exec Party Mailroom Action)

/-! ### Deadlines -/

theorem tick_le {base : Nat} {G : Scheduler → Op → Prop} {es : List (Op × Ret)} {s : Scheduler}
    (h : Run step G (new base) es s) : s.tick ≤ u64Max := by
  refine h.invariant (P := fun t => t.tick ≤ u64Max) ?_ (Nat.zero_le _)
  intro t u op r ht _ hstep
  by_cases hop : op = .timerTick
  · subst hop
    obtain ⟨rfl, -⟩ := Prod.mk.inj (Option.some.inj hstep)
    rw [tick_timerTick]
    exact Nat.le_of_lt_succ (Nat.mod_lt _ (by decide))
  · rw [tick_step hstep hop]
    exact ht

/-- A receive blocks until a later tick, or until the tick that never comes. -/
private theorem timely_of_matches {s : Scheduler} {op : Op} {r : Ret} {a : Action Message} (hs : s.tick ≤ u64Max)
    (h : s.Matches op r a) : (view s).Timely u64Max a := by
  cases a with
  | block p d =>
    obtain ⟨t, hne, -, rfl⟩ := h.blocks p d rfl
    show s.tick < _ ∨ (s.tick = u64Max ∧ _ = u64Max)
    unfold saturatingAdd
    split <;> omega
  | _ => trivial

private theorem punctual_run {base : Nat} {es : List (Op × Ret)} {s : Scheduler}
    (h : Run step (fun _ _ => True) (new base) es s) : (view s).BlockedEmpty ∧ (view s).Punctual u64Max := by
  have hinv : s.tick ≤ u64Max ∧ (view s).BlockedEmpty ∧ (view s).Punctual u64Max := by
    induction h with
    | nil =>
      rw [view_new]
      refine ⟨Nat.zero_le _, ?_, ?_⟩
      · intro q x hx
        cases hx
      · intro q x hx
        cases hx
    | snoc hrun hguard hstep ih =>
      obtain ⟨hle, hempty, hdue⟩ := ih
      obtain ⟨a, hen, heq, hmatch⟩ := step_refines hstep
      refine ⟨tick_le (.snoc hrun hguard hstep), ?_⟩
      rw [heq]
      exact ⟨Mailroom.blockedEmpty_act hempty hen, Mailroom.punctual_act hdue (timely_of_matches hle hmatch)⟩
  exact hinv.2

private theorem party_eq {s : Scheduler} {q : Nat} {x : Pcb} (hx : s.getProcess q = some x) :
    (view s).party q = some (party x) := by
  show (s.getProcess q).map party = some (party x)
  rw [hx]
  rfl

/-- In every reachable state a blocked process has nothing to read and a deadline after the current tick (or both are
`u64::MAX`), and a process that is not blocked has none.  After a tick no process sleeps past a finite deadline. -/
theorem sleep_bounded {base : Nat} {es : List (Op × Ret)} {s : Scheduler}
    (h : Run step (fun _ _ => True) (new base) es s) :
    (∀ q x, s.getProcess q = some x →
      (x.state = .blocked → x.mailbox.contents = [] ∧
        (s.tick < x.blockedDeadline ∨ (s.tick = u64Max ∧ x.blockedDeadline = u64Max))) ∧
      (x.state ≠ .blocked → x.blockedDeadline = u64Max)) ∧
    (∀ q x, s.timerTick.1.getProcess q = some x → x.state = .blocked → x.blockedDeadline ≠ u64Max →
      s.timerTick.1.tick < x.blockedDeadline) := by
  have hstate : ∀ {es t}, Run step (fun _ _ => True) (new base) es t → ∀ q x, t.getProcess q = some x →
      (x.state = .blocked → x.mailbox.contents = [] ∧
        (t.tick < x.blockedDeadline ∨ (t.tick = u64Max ∧ x.blockedDeadline = u64Max))) ∧
      (x.state ≠ .blocked → x.blockedDeadline = u64Max) := by
    intro es t hrun q x hx
    obtain ⟨hempty, hdue⟩ := punctual_run hrun
    have hx' := hdue q (party x) (party_eq hx)
    unfold Party.Due at hx'
    refine ⟨fun hb => ?_, fun hb => ?_⟩
    · have hblocked : (party x).blocked = true := decide_eq_true hb
      rw [if_pos hblocked] at hx'
      exact ⟨hempty q (party x) (party_eq hx) hblocked, hx'⟩
    · have hawake : ¬ (party x).blocked = true := fun hd => hb (of_decide_eq_true hd)
      rw [if_neg hawake] at hx'
      exact hx'
  refine ⟨hstate h, fun q x hx hb hfinite => ?_⟩
  have htick : Run step (fun _ _ => True) (new base) (es ++ [(.timerTick, .switch s.timerTick.2)]) s.timerTick.1 :=
    .snoc h trivial rfl
  rcases ((hstate htick q x hx).1 hb).2 with hlt | ⟨-, hnever⟩
  · exact hlt
  · exact absurd hnever hfinite

/-- A process that sleeps for five ticks, after four of them. -/
theorem sleep_bounded_four :
    ∃ es s x, Run step (fun _ _ => True) (new 0) es s ∧ s.getProcess 1 = some x ∧ x.state = .blocked ∧
      x.blockedDeadline = 5 ∧ s.tick = 4 ∧ x.mailbox.contents = [] ∧
      ∀ y, s.timerTick.1.getProcess 1 = some y → y.state = .blocked → y.blockedDeadline ≠ u64Max →
        s.timerTick.1.tick < y.blockedDeadline := by
  have hexec : (exec step (fun _ _ => True) (new 0)
      [.addProcess 0, .setCurrent 1, .blockingReceive 1 5, .timerTick, .timerTick, .timerTick, .timerTick]).any
      (fun out => (out.1.getProcess 1).any fun x =>
        decide (x.state = .blocked ∧ x.blockedDeadline = 5 ∧ out.1.tick = 4)) = true := by decide
  obtain ⟨⟨s, es⟩, hrun, hout⟩ := (Option.any_eq_true _ _).1 hexec
  obtain ⟨x, hx, hpart⟩ := (Option.any_eq_true _ _).1 hout
  obtain ⟨hb, hdl, htick⟩ := of_decide_eq_true hpart
  have hrun := run_of_exec hrun
  obtain ⟨hnow, hnext⟩ := sleep_bounded hrun
  exact ⟨es, s, x, hrun, hx, hb, hdl, htick, ((hnow 1 x hx).1 hb).1, hnext 1⟩

/-! ### The last tick -/

/-- A process receives only for itself. -/
def receivesForSelf (s : Scheduler) : Op → Bool
  | .blockingReceive pid _ => decide (s.currentProcess = some pid)
  | _ => true

/-- Process 1 lives, with an empty mailbox, at every tick. -/
private theorem exists_tick (n : Nat) (hn : n ≤ u64Max) :
    ∃ es s x, Run step (fun t op => t.receivesForSelf op = true) (new 0) es s ∧ s.tick = n ∧
      s.getProcess 1 = some x ∧ x.mailbox.contents = [] := by
  induction n with
  | zero =>
    have hadd : (step (new 0) (.addProcess 0)).any (fun out => decide (out.1.tick = 0) &&
        (out.1.getProcess 1).any fun x => decide (x.mailbox.contents = [])) = true := by decide
    obtain ⟨⟨s, r⟩, hstep, hout⟩ := (Option.any_eq_true _ _).1 hadd
    obtain ⟨htick, hproc⟩ := Bool.and_eq_true_iff.1 hout
    obtain ⟨x, hx, hbox⟩ := (Option.any_eq_true _ _).1 hproc
    exact ⟨_, s, x, .single rfl hstep, of_decide_eq_true htick, hx, of_decide_eq_true hbox⟩
  | succ n ih =>
    obtain ⟨es, s, x, hrun, htick, hx, hbox⟩ := ih (by omega)
    have hview := congrArg (fun w => w.party 1) s.view_timerTick
    simp only [Mailroom.act, party_eq hx, Option.map_some] at hview
    obtain ⟨y, hy, hparty⟩ := Option.map_eq_some_iff.1 hview
    refine ⟨es ++ [(.timerTick, _)], s.timerTick.1, y, .snoc hrun rfl rfl, ?_, hy, ?_⟩
    · rw [tick_timerTick, htick]
      exact Nat.mod_eq_of_lt (by unfold u64Max at hn; omega)
    · have := congrArg Party.inbox hparty
      rw [Party.expire_inbox] at this
      exact this.trans hbox

/-- At the last tick a process blocks with its deadline already reached. -/
theorem deadline_at_last_tick :
    ∃ es s x, Run step (fun t op => t.receivesForSelf op = true) (new 0) es s ∧ s.getProcess 1 = some x ∧
      x.state = .blocked ∧ ¬ s.tick < x.blockedDeadline := by
  obtain ⟨es, s, x, hrun, htick, hx, hbox⟩ := exists_tick u64Max (Nat.le_refl _)
  have hset : Run step (fun t op => t.receivesForSelf op = true) (new 0) (es ++ [(.setCurrent 1, .unit)])
      (s.setCurrent 1) := .snoc hrun rfl rfl
  rcases (s.setCurrent 1).blockingReceive_cases 1 u64Max with ⟨hnone, -⟩ | ⟨p, hp, hcases⟩
  · have : s.getProcess 1 = none := hnone
    rw [hx] at this
    cases this
  · have hp' : s.getProcess 1 = some p := hp
    cases Option.some.inj (hx.symm.trans hp')
    rcases hcases with ⟨msg, rest, hmsg, -⟩ | ⟨-, hzero, -⟩ | ⟨-, -, heq⟩
    · rw [hbox] at hmsg; cases hmsg
    · exact absurd hzero (by decide)
    · have hguard : (s.setCurrent 1).receivesForSelf (.blockingReceive 1 u64Max) = true := by
        simp [receivesForSelf, setCurrent]
      refine ⟨_, _, { x with state := .blocked, blockedDeadline := u64Max }, .snoc hset hguard rfl, ?_, rfl, ?_⟩
      · rw [heq, getProcess_log, getProcess_update, if_pos rfl, hp]
        rfl
      · rw [heq]
        show ¬ s.tick < u64Max
        omega

/-! ### Notifications -/

/-- Only a notification changes the pending word of a process. -/
private theorem pending_touches {s : Scheduler} {op : Op} {q : Nat} {x x' : Pcb} (h : Touches s op q x x')
    (hop : ∀ w, op ≠ .notifyProcess q w) : x'.mailbox.pendingNotification = x.mailbox.pendingNotification := by
  cases hquiet : notifyQuiet op with
  | true => exact (keeps_of_touches h).pending hquiet
  | false =>
    cases op with
    | notifyProcess toPid word => exact absurd (by rw [h.1]) (hop word)
    | _ => cases hquiet

/-- A process is blocked after an operation if it was blocked before, or if it blocked on its empty mailbox. -/
theorem blocked_step {s s' : Scheduler} {op : Op} {r : Ret} (h : s.step op = some (s', r)) {q : Nat} {x' : Pcb}
    (hx' : s'.getProcess q = some x') (hb : x'.state = .blocked) :
    (∃ x, s.getProcess q = some x ∧ x.state = .blocked) ∨
    ∃ t x, t ≠ 0 ∧ op = .blockingReceive q t ∧ s.getProcess q = some x ∧ x.mailbox.contents = [] := by
  obtain ⟨a, hen, heq, hmatch⟩ := step_refines h
  have hparty := party_eq hx'
  rw [heq] at hparty
  rcases Mailroom.blocked_act hparty (decide_eq_true hb) with ⟨y, hy, hyb⟩ | ⟨d, rfl⟩
  · obtain ⟨x, hx, rfl⟩ := Option.map_eq_some_iff.1 hy
    exact Or.inl ⟨x, hx, of_decide_eq_true hyb⟩
  · obtain ⟨t, hne, hop, -⟩ := hmatch.blocks q d rfl
    obtain ⟨y, hy, hinbox⟩ := hen
    obtain ⟨x, hx, rfl⟩ := Option.map_eq_some_iff.1 hy
    exact Or.inr ⟨t, x, hne, hop, hx, hinbox⟩

/-- A process that is about to block on its empty mailbox has no pending notification. -/
def heedsNotification (s : Scheduler) : Op → Bool
  | .blockingReceive pid t =>
    (s.getProcess pid).all fun x =>
      decide (t = 0 ∨ x.mailbox.contents ≠ [] ∨ x.mailbox.pendingNotification = 0)
  | _ => true

/-- As long as no process blocks with a notification pending, no process sleeps on one. -/
theorem notification_wakes {base : Nat} {es : List (Op × Ret)} {s : Scheduler}
    (h : Run step (fun t op => t.heedsNotification op = true) (new base) es s) {p : Nat} {x : Pcb}
    (hx : s.getProcess p = some x) (hb : x.state = .blocked) : x.mailbox.pendingNotification = 0 := by
  induction h generalizing p x with
  | nil =>
    rw [getProcess_new] at hx
    cases hx
  | @snoc t u _ op r _ hguard hstep ih =>
    have hnotify : ∀ w, op ≠ .notifyProcess p w := by
      rintro w rfl
      -- a notification leaves its target awake
      obtain ⟨rfl, -⟩ := Prod.mk.inj (Option.some.inj hstep)
      rcases t.notifyProcess_cases p w with ⟨hnone, heq⟩ | ⟨y, hy, heq⟩
      · rw [heq, hnone] at hx
        cases hx
      · rw [heq, getProcess_log, getProcess_update, if_pos rfl, hy] at hx
        cases hx
        rw [deliverNotification_state] at hb
        split at hb
        · cases hb
        · contradiction
    rcases record_step hstep p x hx with ⟨y, hy, hxy⟩ | ⟨-, -, id, rsp, b, rfl, -⟩
    · have hpending : x.mailbox.pendingNotification = y.mailbox.pendingNotification := by
        rcases hxy with rfl | htouch
        · rfl
        · exact pending_touches htouch hnotify
      rw [hpending]
      rcases blocked_step hstep hx hb with ⟨z, hz, hzb⟩ | ⟨n, z, hne, rfl, hz, hbox⟩
      · cases Option.some.inj (hy.symm.trans hz)
        exact ih hy hzb
      · cases Option.some.inj (hy.symm.trans hz)
        simp only [heedsNotification, hy, Option.all_some] at hguard
        rcases of_decide_eq_true hguard with hzero | hfull | hnone
        · exact absurd hzero hne
        · exact absurd hbox hfull
        · exact hnone
    · cases hb

/-- A notification for a sleeping process wakes it; it sleeps again after it has read a message and before the next. -/
theorem notification_wakes_sleeper :
    ∃ es s x, Run step (fun t op => t.heedsNotification op = true) (new 0) es s ∧ s.getProcess 1 = some x ∧
      x.state = .blocked ∧ x.mailbox.pendingNotification = 0 ∧
      (s.notifyProcess 1 1).1.heedsNotification (.blockingReceive 1 u64Max) = false := by
  have hexec : (exec step (fun t op => t.heedsNotification op = true) (new 0)
      [.addProcess 0, .addProcess 0, .sendMessage 2 1 (Message.new 0), .blockingReceive 1 u64Max,
        .blockingReceive 1 u64Max]).any
      (fun out => ((out.1.getProcess 1).any fun x => decide (x.state = .blocked)) &&
        !(out.1.notifyProcess 1 1).1.heedsNotification (.blockingReceive 1 u64Max)) = true := by decide
  obtain ⟨⟨s, es⟩, hrun, hout⟩ := (Option.any_eq_true _ _).1 hexec
  obtain ⟨hproc, hnot⟩ := Bool.and_eq_true_iff.1 hout
  obtain ⟨x, hx, hb⟩ := (Option.any_eq_true _ _).1 hproc
  have hrun := run_of_exec hrun
  have hb := of_decide_eq_true hb
  exact ⟨es, s, x, hrun, hx, hb, notification_wakes hrun hx hb, by simpa using hnot⟩

/-- Process 1 is notified, then blocks on its empty mailbox and sleeps on the notification. -/
theorem notification_slept_on :
    ∃ es s x, Run step (fun t op => t.receivesForSelf op = true) (new 0) es s ∧ s.getProcess 1 = some x ∧
      x.state = .blocked ∧ x.mailbox.pendingNotification = 1 ∧ x.blockedDeadline = u64Max := by
  have hexec : (exec step (fun t op => t.receivesForSelf op = true) (new 0)
      [.addProcess 0, .setCurrent 1, .notifyProcess 1 1, .blockingReceive 1 u64Max]).any
      (fun out => (out.1.getProcess 1).any fun x =>
        decide (x.state = .blocked ∧ x.mailbox.pendingNotification = 1 ∧ x.blockedDeadline = u64Max)) = true := by
    decide
  obtain ⟨⟨s, es⟩, hrun, hout⟩ := (Option.any_eq_true _ _).1 hexec
  obtain ⟨x, hx, hpart⟩ := (Option.any_eq_true _ _).1 hout
  exact ⟨es, s, x, run_of_exec hrun, hx, of_decide_eq_true hpart⟩

end Scheduler

end Rost
