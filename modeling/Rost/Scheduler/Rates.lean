import Rost.Scheduler.Refinement
import Rost.Scheduler.Records
import Mathlib.Logic.Function.Basic

/-!
# The message rate

`send_message` charges the sender before it knows whether the mailbox has room, so a send that is refused by a full mailbox
leaves a trace (`refusalKeeps_iff`).  The counter of the sender is a `u16` that is reset every 100 ticks and also counts the
sends of processes without a limit.  `Counted` is the scheduler beside counters that cannot overflow: the `u16` counters
agree with them exactly as long as no process without a limit is charged more than 65535 sends between two resets
(`counter_exact_iff`), and a limit is kept in any case.
-/

namespace Rost

open Lib (Run exec run_of_exec)

namespace Scheduler

/-- The send is charged to the sender: both processes are there, and the sender is not rate-limited. -/
def chargesSend (s : Scheduler) (fromPid toPid : Nat) : Bool :=
  (s.getProcess toPid).isSome && (s.getProcess fromPid).any fun x => !rateLimited x

/-! ### Refused sends -/

/-- A send that is refused changes no record and logs nothing. -/
def RefusalKeeps (s : Scheduler) (fromPid toPid : Nat) (msg : Message) : Prop :=
  (s.sendMessage fromPid toPid msg).2 = false → (s.sendMessage fromPid toPid msg).1 = s

theorem chargesSend_iff {s : Scheduler} {fromPid toPid : Nat} : s.chargesSend fromPid toPid = true ↔
    ∃ x y, s.getProcess fromPid = some x ∧ rateLimited x = false ∧ s.getProcess toPid = some y := by
  unfold chargesSend
  rw [Bool.and_eq_true_iff, Option.any_eq_true, Option.isSome_iff_exists]
  constructor
  · rintro ⟨⟨y, hy⟩, x, hx, hfree⟩
    exact ⟨x, y, hx, by simpa using hfree, hy⟩
  · rintro ⟨x, y, hx, hfree, hy⟩
    exact ⟨⟨y, hy⟩, x, hx, by simpa using hfree⟩

/-- The counter never stays the same when it is advanced. -/
private theorem wrapAdd_ne (n : Nat) : wrapAdd 16 n 1 ≠ n := by
  unfold wrapAdd
  omega

/-- A refused send leaves a trace exactly if it is charged to the sender and the mailbox of the target is full. -/
theorem refusalKeeps_iff (s : Scheduler) (fromPid toPid : Nat) (msg : Message) :
    s.RefusalKeeps fromPid toPid msg ↔ ¬ ∃ x y, s.getProcess fromPid = some x ∧ rateLimited x = false ∧
      s.getProcess toPid = some y ∧ y.mailbox.contents.length = queueCapacity := by
  unfold RefusalKeeps
  rcases s.sendMessage_cases fromPid toPid msg with ⟨hno, heq⟩ | ⟨p, hp, hfree, ⟨hfull, heq⟩ | ⟨hroom, heq⟩⟩
  · rw [heq]
    refine iff_of_true (fun _ => rfl) ?_
    rintro ⟨x, y, hx, hx', hy, -⟩
    rcases hno with hgone | hlimited
    · rw [hgone] at hy
      cases hy
    · rw [hx, Option.any_some, hx'] at hlimited
      cases hlimited
  · rw [heq]
    cases hx : s.getProcess fromPid with
    | none =>
      refine iff_of_true (fun _ => update_of_none hx _ _) ?_
      rintro ⟨x, y, hx', -⟩
      cases hx'
    | some x =>
      rw [hx, Option.any_some] at hfree
      -- the counter of the sender has been advanced
      refine iff_of_false (fun hkeeps => ?_) (not_not_intro ⟨x, p, rfl, hfree, hp, hfull⟩)
      have hrecord := congrArg (fun t => t.getProcess fromPid) (hkeeps rfl)
      dsimp only at hrecord
      rw [getProcess_update, if_pos rfl, hx, Option.map_some, Option.some.injEq] at hrecord
      exact wrapAdd_ne x.ipcRateUsed (congrArg Pcb.ipcRateUsed hrecord)
  · rw [heq]
    refine iff_of_true (fun h => by cases h) ?_
    rintro ⟨x, y, -, -, hy, hfull⟩
    cases hp.symm.trans hy
    omega

/-- After 16 messages the mailbox of process 2 is full, and the next send is charged to process 1 although it is refused. -/
theorem refused_send_charged : ¬ ∀ es s fromPid toPid msg, Run step (fun _ _ => True) (new 0) es s →
    s.RefusalKeeps fromPid toPid msg := by
  have h : (exec step (fun _ _ => True) (new 0)
      ([.addProcess 0, .addProcess 0] ++ List.replicate 16 (.sendMessage 1 2 (Message.new 7)))).any (fun o =>
        !(o.1.sendMessage 1 2 (Message.new 7)).2 &&
        decide (((o.1.sendMessage 1 2 (Message.new 7)).1.getProcess 1).map Pcb.ipcRateUsed ≠
          (o.1.getProcess 1).map Pcb.ipcRateUsed)) = true := by decide
  obtain ⟨⟨s, es⟩, hexec, h⟩ := (Option.any_eq_true _ _).1 h
  obtain ⟨hrefused, hcharged⟩ := Bool.and_eq_true_iff.1 h
  intro hall
  have hkeeps := hall es s 1 2 (Message.new 7) (run_of_exec hexec) (by simpa using hrefused)
  exact of_decide_eq_true hcharged (by rw [hkeeps])

/-! ### What an operation does to the counter -/

/-- The tick is the last one of a window of 100 ticks, at which the counters are reset. -/
def resetsRates (s : Scheduler) : Bool := decide (wrapAdd 64 s.tick 1 % 100 = 0)

/-- The counter of process `q` after an operation, in an arithmetic with the successor `succ`. -/
def rateAfter (succ : Nat → Nat) (s : Scheduler) (op : Op) (q used : Nat) : Nat :=
  match op with
  | .sendMessage fromPid toPid _ => if fromPid = q ∧ s.chargesSend fromPid toPid = true then succ used else used
  | .timerTick => if s.resetsRates then 0 else used
  | _ => used

/-- The limit of process `q` after an operation. -/
def limitAfter (op : Op) (q limit : Nat) : Nat :=
  match op with
  | .setQuotas pid _ _ ipcRateLimit => if pid = q then ipcRateLimit else limit
  | _ => limit

private theorem deliver_rate (msg : Message) (x : Pcb) :
    (deliver msg x).ipcRateUsed = x.ipcRateUsed ∧ (deliver msg x).ipcRateLimit = x.ipcRateLimit := by
  unfold deliver
  simp only
  split <;> exact ⟨rfl, rfl⟩

private theorem rate_timerTick {s : Scheduler} {q : Nat} {x' : Pcb} (h : s.timerTick.1.getProcess q = some x') :
    ∃ x, s.getProcess q = some x ∧ x'.ipcRateUsed = (if s.resetsRates then 0 else x.ipcRateUsed) ∧
      x'.ipcRateLimit = x.ipcRateLimit := by
  obtain ⟨x, st, hx, rfl⟩ := record_timerTick h
  refine ⟨x, hx, ?_⟩
  have hrefresh : (refresh (wrapAdd 64 s.tick 1) x).ipcRateUsed = (if s.resetsRates then 0 else x.ipcRateUsed) ∧
      (refresh (wrapAdd 64 s.tick 1) x).ipcRateLimit = x.ipcRateLimit := by
    obtain ⟨st', dl, wf, heq⟩ := refresh_eq (wrapAdd 64 s.tick 1) x
    rw [heq]
    unfold resetsRates
    simp
  unfold tickRecord
  generalize refresh (wrapAdd 64 s.tick 1) x = y at hrefresh
  dsimp only
  split
  · split
    · obtain ⟨st', heq⟩ := preempt_eq (wrapAdd 64 s.tick 1) y
      rw [heq]
      exact hrefresh
    · exact hrefresh
  · exact hrefresh

private theorem rate_sendMessage {s : Scheduler} {fromPid toPid q : Nat} {msg : Message} {x' : Pcb}
    (h : (s.sendMessage fromPid toPid msg).1.getProcess q = some x') :
    ∃ x, s.getProcess q = some x ∧ x'.ipcRateLimit = x.ipcRateLimit ∧
      x'.ipcRateUsed =
        if fromPid = q ∧ s.chargesSend fromPid toPid = true then wrapAdd 16 x.ipcRateUsed 1 else x.ipcRateUsed := by
  rcases s.sendMessage_cases fromPid toPid msg with ⟨hno, heq⟩ | ⟨p, hp, hfree, hcases⟩
  · rw [heq] at h
    refine ⟨x', h, rfl, ?_⟩
    rw [if_neg]
    rintro ⟨rfl, hcharged⟩
    obtain ⟨x, y, hx, hx', hy⟩ := chargesSend_iff.1 hcharged
    rcases hno with hgone | hlimited
    · rw [hgone] at hy
      cases hy
    · rw [hx, Option.any_some, hx'] at hlimited
      cases hlimited
  · -- the record after the charge
    have hcharged : ∀ {y}, (s.update fromPid (chargeSend toPid) (chargeSend_pid toPid)).getProcess q = some y →
        ∃ x, s.getProcess q = some x ∧ y.ipcRateLimit = x.ipcRateLimit ∧
          y.ipcRateUsed =
            if fromPid = q ∧ s.chargesSend fromPid toPid = true then wrapAdd 16 x.ipcRateUsed 1 else x.ipcRateUsed := by
      intro y hy
      rw [getProcess_update] at hy
      by_cases hq : q = fromPid
      · subst hq
        rw [if_pos rfl] at hy
        obtain ⟨x, hx, rfl⟩ := Option.map_eq_some_iff.1 hy
        rw [hx, Option.any_some] at hfree
        exact ⟨x, hx, rfl, by rw [if_pos ⟨rfl, chargesSend_iff.2 ⟨x, p, hx, hfree, hp⟩⟩]; rfl⟩
      · rw [if_neg hq] at hy
        exact ⟨y, hy, rfl, by rw [if_neg fun h => hq h.1.symm]⟩
    rcases hcases with ⟨-, heq⟩ | ⟨-, heq⟩
    · rw [heq] at h
      exact hcharged h
    · rw [heq, getProcess_log, getProcess_update] at h
      split at h
      · obtain ⟨y, hy, rfl⟩ := Option.map_eq_some_iff.1 h
        obtain ⟨x, hx, hlimit, hused⟩ := hcharged hy
        exact ⟨x, hx, (deliver_rate _ _).2.trans hlimit, (deliver_rate _ _).1.trans hused⟩
      · exact hcharged h

/-- The counter and the limit of a process after an operation; a new process has neither used nor a limit. -/
theorem rate_step {s s' : Scheduler} {op : Op} {r : Ret} (h : s.step op = some (s', r)) {q : Nat} {x' : Pcb}
    (hx' : s'.getProcess q = some x') :
    (∃ x, s.getProcess q = some x ∧ x'.ipcRateUsed = rateAfter (wrapAdd 16 · 1) s op q x.ipcRateUsed ∧
        x'.ipcRateLimit = limitAfter op q x.ipcRateLimit) ∨
      (s.getProcess q = none ∧ q = s.processTable.nextPid ∧ x'.ipcRateUsed = 0 ∧ x'.ipcRateLimit = 0) := by
  -- what the other operations do
  have hother : rateQuiet op = true → quotaQuiet op = true →
      (∃ x, s.getProcess q = some x ∧ x'.ipcRateUsed = x.ipcRateUsed ∧ x'.ipcRateLimit = x.ipcRateLimit) ∨
        (s.getProcess q = none ∧ q = s.processTable.nextPid ∧ x'.ipcRateUsed = 0 ∧ x'.ipcRateLimit = 0) := by
    intro hrate hquota
    rcases keeps_step h hx' with ⟨x, hx, hkeeps⟩ | ⟨hnone, hq, _, _, _, rfl⟩
    · exact Or.inl ⟨x, hx, hkeeps.rate hrate, hkeeps.limit hquota⟩
    · exact Or.inr ⟨hnone, hq, rfl, rfl⟩
  cases op with
  | timerTick =>
    simp only [step, Option.some.injEq, Prod.mk.injEq] at h
    rw [← h.1] at hx'
    obtain ⟨x, hx, hused, hlimit⟩ := rate_timerTick hx'
    exact Or.inl ⟨x, hx, hused, hlimit⟩
  | sendMessage fromPid toPid msg =>
    simp only [step, Option.some.injEq, Prod.mk.injEq] at h
    rw [← h.1] at hx'
    obtain ⟨x, hx, hlimit, hused⟩ := rate_sendMessage hx'
    exact Or.inl ⟨x, hx, hused, hlimit⟩
  | setQuotas pid mem cpu ipc =>
    simp only [step, Option.some.injEq, Prod.mk.injEq] at h
    rw [← h.1] at hx'
    unfold setQuotas at hx'
    rw [getProcess_update] at hx'
    refine Or.inl ?_
    unfold limitAfter
    by_cases hq : q = pid
    · subst hq
      rw [if_pos rfl] at hx'
      obtain ⟨x, hx, rfl⟩ := Option.map_eq_some_iff.1 hx'
      exact ⟨x, hx, rfl, (if_pos rfl).symm⟩
    · rw [if_neg hq] at hx'
      exact ⟨x', hx', rfl, (if_neg fun h => hq h.symm).symm⟩
  | _ => exact hother rfl rfl

/-! ### The counter and an exact one -/

/-- The scheduler beside exact counters of the sends charged to each process since the last reset. -/
structure Counted where
  sched : Scheduler
  sends : Nat → Nat

namespace Counted

/-- An operation on the scheduler, and on the exact counters. -/
def step (c : Counted) (op : Op) : Option (Counted × Ret) :=
  (c.sched.step op).map fun (s, r) => (⟨s, fun q => rateAfter (· + 1) c.sched op q (c.sends q)⟩, r)

end Counted

/-- The arguments have the width of the source's types, as far as the limit of the rate goes. -/
def Op.Narrow : Op → Prop
  | .setQuotas _ _ _ ipcRateLimit => ipcRateLimit < 2 ^ 16
  | _ => True

instance (op : Op) : Decidable op.Narrow := by
  unfold Op.Narrow
  split <;> infer_instance

/-- The limits stay numbers of 16 bits. -/
private theorem limit_step {s s' : Scheduler} {op : Op} {r : Ret}
    (h : ∀ q x, s.getProcess q = some x → x.ipcRateLimit < 2 ^ 16) (hnarrow : op.Narrow)
    (hstep : s.step op = some (s', r)) {q : Nat} {x' : Pcb} (hx' : s'.getProcess q = some x') :
    x'.ipcRateLimit < 2 ^ 16 := by
  rcases rate_step hstep hx' with ⟨x, hx, -, hlimit⟩ | ⟨-, -, -, hlimit⟩
  · rw [hlimit]
    unfold limitAfter
    split
    · split
      · exact hnarrow
      · exact h q x hx
    · exact h q x hx
  · rw [hlimit]
    decide

/-- The addition to the sender's counter does not overflow. -/
def CountFits (s : Scheduler) : Op → Prop
  | .sendMessage fromPid toPid _ => s.chargesSend fromPid toPid = true →
    ∀ x, s.getProcess fromPid = some x → x.ipcRateUsed + 1 < 2 ^ 16
  | _ => True

/-- A process without a limit has been charged fewer than 65535 sends since the last reset when it sends again. -/
def Counted.FewSends (c : Counted) : Op → Prop
  | .sendMessage fromPid toPid _ => c.sched.chargesSend fromPid toPid = true →
    ∀ x, c.sched.getProcess fromPid = some x → x.ipcRateLimit = 0 → c.sends fromPid < 2 ^ 16 - 1
  | _ => True

/-- The counters agree with the exact ones, and the limits are numbers of 16 bits. -/
structure Counted.Exact (c : Counted) : Prop where
  used : ∀ q x, c.sched.getProcess q = some x → x.ipcRateUsed = c.sends q
  limit : ∀ q x, c.sched.getProcess q = some x → x.ipcRateLimit < 2 ^ 16
  fresh : ∀ q, c.sched.processTable.nextPid ≤ q → c.sends q = 0

namespace Counted

variable {c c' : Counted} {op : Op} {r : Ret}

theorem exact_new (base : Nat) : Exact ⟨new base, fun _ => 0⟩ := by
  refine ⟨fun q x hx => ?_, fun q x hx => ?_, fun _ _ => rfl⟩
  · rw [getProcess_new] at hx
    cases hx
  · rw [getProcess_new] at hx
    cases hx

theorem lt_of_not_limited {x : Pcb} (h : rateLimited x = false) (hlimit : x.ipcRateLimit ≠ 0) :
    x.ipcRateUsed < x.ipcRateLimit := by
  unfold rateLimited at h
  rw [Bool.and_eq_false_iff, decide_eq_false_iff_not, decide_eq_false_iff_not] at h
  omega

/-- While the counters are exact, an overflow needs 65535 sends without a limit. -/
theorem Exact.fits_iff (h : c.Exact) : c.sched.CountFits op ↔ c.FewSends op := by
  cases op with
  | sendMessage fromPid toPid msg =>
    unfold CountFits FewSends
    refine forall_congr' fun hcharged => forall_congr' fun x => forall_congr' fun hx => ?_
    obtain ⟨x', -, hx', hfree, -⟩ := chargesSend_iff.1 hcharged
    cases hx.symm.trans hx'
    have hused := h.used fromPid x hx
    have hlimit := h.limit fromPid x hx
    constructor
    · intro hfits _
      omega
    · intro hfew
      by_cases hzero : x.ipcRateLimit = 0
      · have := hfew hzero
        omega
      · have := lt_of_not_limited hfree hzero
        omega
  | _ => exact Iff.rfl

/-- A process that is not there is not charged. -/
private theorem rateAfter_of_none {s : Scheduler} {q : Nat} (h : s.getProcess q = none) (succ : Nat → Nat) (op : Op) :
    rateAfter succ s op q 0 = 0 := by
  cases op with
  | sendMessage fromPid toPid msg =>
    refine if_neg ?_
    rintro ⟨rfl, hcharged⟩
    obtain ⟨x, -, hx, -⟩ := chargesSend_iff.1 hcharged
    rw [h] at hx
    cases hx
  | timerTick => exact ite_self 0
  | _ => rfl

/-- Where the addition fits, the two arithmetics agree. -/
private theorem rateAfter_of_fits {s : Scheduler} (hfits : s.CountFits op) {q : Nat} {x : Pcb}
    (hx : s.getProcess q = some x) :
    rateAfter (wrapAdd 16 · 1) s op q x.ipcRateUsed = rateAfter (· + 1) s op q x.ipcRateUsed := by
  cases op with
  | sendMessage fromPid toPid msg =>
    dsimp only [rateAfter]
    by_cases hcharged : fromPid = q ∧ s.chargesSend fromPid toPid = true
    · rw [if_pos hcharged, if_pos hcharged]
      obtain ⟨rfl, hcharged⟩ := hcharged
      exact Nat.mod_eq_of_lt (hfits hcharged x hx)
    · rw [if_neg hcharged, if_neg hcharged]
  | _ => rfl

/-- A step without an overflow keeps the counters exact. -/
theorem Exact.step (h : c.Exact) (hnarrow : op.Narrow) (hfits : c.sched.CountFits op)
    (hstep : c.step op = some (c', r)) : c'.Exact := by
  obtain ⟨⟨s', r'⟩, hs, heq⟩ := Option.map_eq_some_iff.1 hstep
  simp only [Prod.mk.injEq] at heq
  obtain ⟨rfl, rfl⟩ := heq
  refine ⟨fun q x' hx' => ?_, fun q x' hx' => ?_, fun q hq => ?_⟩
  · rcases rate_step hs hx' with ⟨x, hx, hused, -⟩ | ⟨hnone, hq, hused, -⟩
    · rw [hused, rateAfter_of_fits hfits hx, h.used q x hx]
    · show _ = rateAfter (· + 1) c.sched op q (c.sends q)
      rw [hused, h.fresh q (le_of_eq hq.symm), rateAfter_of_none hnone]
  · exact limit_step h.limit hnarrow hs hx'
  · have hq' : c.sched.processTable.nextPid ≤ q := (nextPid_step hs).trans hq
    have hnone : c.sched.getProcess q = none := by
      by_contra hlive
      obtain ⟨x, hx⟩ := Option.ne_none_iff_exists'.1 hlive
      exact absurd (c.sched.processTable.lt_nextPid_of_getProcess hx) (by omega)
    show rateAfter (· + 1) c.sched op q (c.sends q) = 0
    rw [h.fresh q hq', rateAfter_of_none hnone]

/-- The runs of the scheduler are those of the scheduler beside the counters. -/
theorem run_iff {G : Scheduler → Op → Prop} {s t : Scheduler} {es : List (Op × Ret)} (sends : Nat → Nat) :
    (∃ sends', Run Counted.step (fun c op => G c.sched op) ⟨s, sends⟩ es ⟨t, sends'⟩) ↔ Run Scheduler.step G s es t := by
  constructor
  · rintro ⟨sends', hrun⟩
    generalize hc : (⟨t, sends'⟩ : Counted) = c at hrun
    have hsched : t = c.sched := by rw [← hc]
    rw [hsched]
    clear hc hsched
    induction hrun with
    | nil => exact Run.nil _
    | snoc _ hguard hstep ih =>
      obtain ⟨⟨t', r'⟩, ht, heq⟩ := Option.map_eq_some_iff.1 hstep
      simp only [Prod.mk.injEq] at heq
      obtain ⟨rfl, rfl⟩ := heq
      exact ih.snoc hguard ht
  · intro hrun
    induction hrun with
    | nil => exact ⟨sends, Run.nil _⟩
    | snoc _ hguard hstep ih =>
      obtain ⟨sends', hrun⟩ := ih
      exact ⟨_, hrun.snoc hguard (Option.map_eq_some_iff.2 ⟨_, hstep, rfl⟩)⟩

end Counted

/-! ### The limit -/

/-- The sends of process `p` that succeeded. -/
def sentBy (p : Nat) (es : List (Op × Ret)) : Nat :=
  es.countP fun
    | (.sendMessage fromPid _ _, .sent true) => fromPid == p
    | _ => false

/-- The operation does not end the window of 100 ticks, and `p` keeps its limit. -/
def Op.InWindow (p limit : Nat) (s : Scheduler) : Op → Prop
  | .timerTick => s.resetsRates = false
  | .setQuotas pid _ _ ipcRateLimit => pid = p → ipcRateLimit = limit
  | .terminateProcess pid => pid ≠ p
  | _ => True

instance (p limit : Nat) (s : Scheduler) (op : Op) : Decidable (op.InWindow p limit s) :=
  match op with
  | .timerTick => inferInstanceAs (Decidable (s.resetsRates = false))
  | .setQuotas pid _ _ ipcRateLimit => inferInstanceAs (Decidable (pid = p → ipcRateLimit = limit))
  | .terminateProcess pid => inferInstanceAs (Decidable (pid ≠ p))
  | .addProcess _ | .addRing3Process _ | .registerUserFrames _ _ | .appendUserFrames _ _ | .setPriority _ _
  | .setRealtime _ _ | .setCurrent _ | .schedule | .forceScheduleNext | .prepareBlockSwitch _ | .rescheduleIsr
  | .yieldCurrent | .yieldSwitch | .sendMessage _ _ _ | .blockingReceive _ _ | .notifyProcess _ _ | .useMemoryPage _
  | .capAlloc _ _ | .capGrant _ _ _ | .capRevoke _ _ => isTrue trivial

private theorem sentBy_append (p : Nat) (es : List (Op × Ret)) (op : Op) (r : Ret) :
    sentBy p (es ++ [(op, r)]) = sentBy p es + sentBy p [(op, r)] :=
  List.countP_append

/-- A send that succeeds was charged to its sender, if that is there. -/
private theorem chargesSend_of_sent {s : Scheduler} {fromPid toPid : Nat} {msg : Message} {x : Pcb}
    (hx : s.getProcess fromPid = some x) (hsent : (s.sendMessage fromPid toPid msg).2 = true) :
    s.chargesSend fromPid toPid = true ∧ rateLimited x = false := by
  rcases s.sendMessage_cases fromPid toPid msg with ⟨-, heq⟩ | ⟨y, hy, hfree, -⟩
  · rw [heq] at hsent
    cases hsent
  · rw [hx, Option.any_some] at hfree
    exact ⟨chargesSend_iff.2 ⟨x, y, hx, hfree, hy⟩, hfree⟩

/-- In a window the limit stays, and what succeeded in the window is counted. -/
private theorem sentBy_step {s s' : Scheduler} {op : Op} {r : Ret} {p n limit : Nat} {x : Pcb}
    (h : s.step op = some (s', r)) (hop : op.InWindow p limit s) (hlimit : 0 < limit) (hlt : limit < 2 ^ 16)
    (hx : s.getProcess p = some x) (hxl : x.ipcRateLimit = limit)
    (hn : n = 0 ∨ n ≤ x.ipcRateUsed ∧ x.ipcRateUsed ≤ limit) :
    ∃ x', s'.getProcess p = some x' ∧ x'.ipcRateLimit = limit ∧
      (n + sentBy p [(op, r)] = 0 ∨ n + sentBy p [(op, r)] ≤ x'.ipcRateUsed ∧ x'.ipcRateUsed ≤ limit) := by
  have hnoend : op ≠ .terminateProcess p := by
    rintro rfl
    exact hop rfl
  obtain ⟨x', hx'⟩ := Option.ne_none_iff_exists'.1 (live_step h hnoend (by rw [hx]; exact Option.some_ne_none x))
  rcases rate_step h hx' with ⟨y, hy, hused, hl⟩ | ⟨hnone, -⟩
  · cases hx.symm.trans hy
    refine ⟨x', hx', ?_, ?_⟩
    · rw [hl, hxl]
      unfold limitAfter
      split
      · split
        · rename_i hp
          exact hop hp
        · rfl
      · rfl
    · rw [hused]
      cases op with
      | sendMessage fromPid toPid msg =>
        simp only [step, Option.some.injEq, Prod.mk.injEq] at h
        obtain ⟨-, rfl⟩ := h
        dsimp only [rateAfter]
        by_cases hcharged : fromPid = p ∧ s.chargesSend fromPid toPid = true
        · rw [if_pos hcharged]
          obtain ⟨rfl, hcharged⟩ := hcharged
          have hone : sentBy fromPid [(Op.sendMessage fromPid toPid msg, Ret.sent (s.sendMessage fromPid toPid msg).2)] ≤ 1 :=
            List.countP_le_length
          obtain ⟨z, y, hz, hfree, -⟩ := chargesSend_iff.1 hcharged
          cases hx.symm.trans hz
          -- the sender was below its limit, so the counter moves by one
          have hroom : x.ipcRateUsed < limit := hxl ▸ Counted.lt_of_not_limited hfree (by omega)
          have hfits : wrapAdd 16 x.ipcRateUsed 1 = x.ipcRateUsed + 1 := Nat.mod_eq_of_lt (by omega)
          omega
        · rw [if_neg hcharged]
          have hzero : sentBy p [(Op.sendMessage fromPid toPid msg, Ret.sent (s.sendMessage fromPid toPid msg).2)] = 0 := by
            refine List.countP_eq_zero.2 fun e he => ?_
            cases List.mem_singleton.1 he
            cases hsent : (s.sendMessage fromPid toPid msg).2 with
            | false => simp
            | true =>
              refine fun hp => hcharged ?_
              have hp := eq_of_beq hp
              subst hp
              exact ⟨rfl, (chargesSend_of_sent hx hsent).1⟩
          omega
      | timerTick =>
        have hreset : s.resetsRates = false := hop
        dsimp only [rateAfter]
        rw [hreset]
        exact hn
      | _ => exact hn
  · rw [hx] at hnone
    cases hnone

/-- A sender with a limit has at most that many sends that succeed, from any state to the next reset. -/
theorem sentBy_le {s t : Scheduler} {p : Nat} {x : Pcb} {es : List (Op × Ret)} (hx : s.getProcess p = some x)
    (hlimit : 0 < x.ipcRateLimit) (hlt : x.ipcRateLimit < 2 ^ 16)
    (hrun : Run step (fun s op => op.InWindow p x.ipcRateLimit s) s es t) : sentBy p es ≤ x.ipcRateLimit := by
  have hall : ∃ y, t.getProcess p = some y ∧ y.ipcRateLimit = x.ipcRateLimit ∧
      (sentBy p es = 0 ∨ sentBy p es ≤ y.ipcRateUsed ∧ y.ipcRateUsed ≤ x.ipcRateLimit) := by
    refine hrun.history (P := fun es t => ∃ y, t.getProcess p = some y ∧ y.ipcRateLimit = x.ipcRateLimit ∧
      (sentBy p es = 0 ∨ sentBy p es ≤ y.ipcRateUsed ∧ y.ipcRateUsed ≤ x.ipcRateLimit)) ?_ ⟨x, hx, rfl, Or.inl rfl⟩
    rintro es t u op r ⟨y, hy, hyl, hn⟩ hop hstep
    rw [sentBy_append]
    exact sentBy_step hstep hop hlimit hlt hy hyl hn
  obtain ⟨y, -, -, hzero | ⟨hle, hle'⟩⟩ := hall
  · omega
  · omega

/-- No send overflows the counter of its sender exactly if no process without a limit is charged more than 65535 sends
between two resets; and a sender with a limit never has more sends that succeed between two resets. -/
theorem counter_exact_iff (base : Nat) :
    (∀ es c, Run Counted.step (fun c op => op.Narrow ∧ c.sched.CountFits op) ⟨new base, fun _ => 0⟩ es c ↔
      Run Counted.step (fun c op => op.Narrow ∧ c.FewSends op) ⟨new base, fun _ => 0⟩ es c) ∧
    ∀ es s p x, Run step (fun _ op => op.Narrow) (new base) es s → s.getProcess p = some x → 0 < x.ipcRateLimit →
      ∀ fs t, Run step (fun s op => op.InWindow p x.ipcRateLimit s) s fs t → sentBy p fs ≤ x.ipcRateLimit := by
  refine ⟨fun es c => ?_, fun es s p x hrun hx hlimit fs t hfs => ?_⟩
  · exact Run.iff_of_invariant (Counted.exact_new base) (fun h _ => and_congr_right fun _ => h.fits_iff)
      fun h hguard hstep => h.step hguard.1 hguard.2 hstep
  · have hnarrow : ∀ q y, s.getProcess q = some y → y.ipcRateLimit < 2 ^ 16 := by
      refine hrun.invariant (P := fun s => ∀ q y, s.getProcess q = some y → y.ipcRateLimit < 2 ^ 16) ?_ ?_
      · intro s s' op r h hop hstep q y hy
        exact limit_step h hop hstep hy
      · intro q y hy
        rw [getProcess_new] at hy
        cases hy
    exact sentBy_le hx hlimit (hnarrow p x hx) hfs

/-- With a limit of one message, the second of two sends in a window is refused. -/
theorem counter_exact_two : ∃ es s x fs t, Run step (fun _ op => op.Narrow) (new 0) es s ∧
    s.getProcess 1 = some x ∧ x.ipcRateLimit = 1 ∧ Run step (fun s op => op.InWindow 1 x.ipcRateLimit s) s fs t ∧
    fs.length = 2 ∧ sentBy 1 fs ≤ x.ipcRateLimit := by
  have h : (exec step (fun _ op => op.Narrow) (new 0)
      [.addProcess 0, .addProcess 0, .setQuotas 1 0 0 1]).any (fun o => (o.1.getProcess 1).any fun x =>
        x.ipcRateLimit == 1 && (exec step (fun s op => op.InWindow 1 x.ipcRateLimit s) o.1
          [.sendMessage 1 2 (Message.new 7), .sendMessage 1 2 (Message.new 7)]).any fun o' =>
            o'.2.length == 2) = true := by decide
  obtain ⟨⟨s, es⟩, hexec, h⟩ := (Option.any_eq_true _ _).1 h
  obtain ⟨x, hx, h⟩ := (Option.any_eq_true _ _).1 h
  obtain ⟨hlimit, h⟩ := Bool.and_eq_true_iff.1 h
  obtain ⟨⟨t, fs⟩, hexec', hlen⟩ := (Option.any_eq_true _ _).1 h
  have hlimit := eq_of_beq hlimit
  exact ⟨es, s, x, fs, t, run_of_exec hexec, hx, hlimit, run_of_exec hexec', eq_of_beq hlen,
    (counter_exact_iff 0).2 es s 1 x (run_of_exec hexec) hx (by omega) fs t (run_of_exec hexec')⟩

/-- A process without a limit reaches every value of the counter before the next tick. -/
private theorem rate_reached (n : Nat) (hn : n < 2 ^ 16) : ∃ es s x, Run step (fun _ op => op.Narrow) (new 0) es s ∧
    s.getProcess 1 = some x ∧ x.ipcRateUsed = n ∧ x.ipcRateLimit = 0 ∧ s.getProcess 2 ≠ none := by
  induction n with
  | zero =>
    have h : (exec step (fun _ op => op.Narrow) (new 0) [.addProcess 0, .addProcess 0]).any (fun o =>
        (o.1.getProcess 1).any (fun x => x.ipcRateUsed == 0 && x.ipcRateLimit == 0) &&
          (o.1.getProcess 2).isSome) = true := by decide
    obtain ⟨⟨s, es⟩, hexec, h⟩ := (Option.any_eq_true _ _).1 h
    obtain ⟨hone, htwo⟩ := Bool.and_eq_true_iff.1 h
    obtain ⟨x, hx, hx'⟩ := (Option.any_eq_true _ _).1 hone
    obtain ⟨hused, hlimit⟩ := Bool.and_eq_true_iff.1 hx'
    exact ⟨es, s, x, run_of_exec hexec, hx, eq_of_beq hused, eq_of_beq hlimit, Option.isSome_iff_ne_none.1 htwo⟩
  | succ n ih =>
    obtain ⟨es, s, x, hrun, hx, hused, hlimit, htwo⟩ := ih (by omega)
    have hstep : s.step (.sendMessage 1 2 (Message.new 7)) =
        some ((s.sendMessage 1 2 (Message.new 7)).1, .sent (s.sendMessage 1 2 (Message.new 7)).2) := rfl
    have hlive : ∀ q, s.getProcess q ≠ none → (s.sendMessage 1 2 (Message.new 7)).1.getProcess q ≠ none :=
      fun q => live_step hstep (by nofun)
    obtain ⟨x', hx'⟩ := Option.ne_none_iff_exists'.1 (hlive 1 (by rw [hx]; exact Option.some_ne_none x))
    have hnarrow : Op.Narrow (.sendMessage 1 2 (Message.new 7)) := trivial
    refine ⟨_, _, x', hrun.snoc hnarrow hstep, hx', ?_, ?_, hlive 2 htwo⟩
    all_goals rcases rate_step hstep hx' with ⟨y, hy, hused', hlimit'⟩ | ⟨hnone, -⟩
    · cases hx.symm.trans hy
      obtain ⟨z, hz⟩ := Option.ne_none_iff_exists'.1 htwo
      have hfree : rateLimited x = false := by
        unfold rateLimited
        rw [hlimit]
        rfl
      rw [hused', hused]
      exact (if_pos ⟨rfl, chargesSend_iff.2 ⟨x, z, hx, hfree, hz⟩⟩).trans (Nat.mod_eq_of_lt (by omega))
    · rw [hx] at hnone
      cases hnone
    · cases hx.symm.trans hy
      exact hlimit'.trans hlimit
    · rw [hx] at hnone
      cases hnone

/-- The send number 65536 of a process without a limit overflows its counter. -/
theorem counter_overflows : ¬ ∀ es s op, Run step (fun _ op => op.Narrow) (new 0) es s → op.Narrow → s.CountFits op := by
  intro hall
  obtain ⟨es, s, x, hrun, hx, hused, hlimit, htwo⟩ := rate_reached (2 ^ 16 - 1) (by decide)
  obtain ⟨z, hz⟩ := Option.ne_none_iff_exists'.1 htwo
  have hfree : rateLimited x = false := by
    unfold rateLimited
    rw [hlimit]
    rfl
  have hfits := hall es s (.sendMessage 1 2 (Message.new 7)) hrun trivial (chargesSend_iff.2 ⟨x, z, hx, hfree, hz⟩) x hx
  rw [hused] at hfits
  exact absurd hfits (by decide)

end Scheduler

end Rost
