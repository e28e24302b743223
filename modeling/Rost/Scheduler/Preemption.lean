import Rost.Scheduler.Rotation
import Mathlib.Data.Prod.Lex

/-!
# Preemption by a device interrupt

`pick_next_priority` orders the processes by `rank`: real-time processes come first, by their deadlines, then the others
by their effective priorities.  `reschedule_isr` asks it for the first process, but then compares the natural priorities
of that process and of the current one (`switch_iff`).  It preempts by the scheduler's own order exactly where the two
comparisons agree (`preemptsByRank_iff`).
-/

namespace Rost

open Lib (Run exec run_of_exec)

namespace Scheduler

/-! ### The order -/

/-- The priority of a process with what is donated to it, as `pick_next_priority` computes it. -/
def effective (s : Scheduler) (x : Pcb) : Nat :=
  effectivePrio (donationsOf s.processTable.getReadyWithPriority s.processTable.getBlockedWaiters) x.pid x.priority

/-- The place of a process in the order of `pick_next_priority`. -/
def rank (s : Scheduler) (x : Pcb) : Nat ×ₗ Nat :=
  if 0 < x.rtPeriod then toLex (0, x.rtDeadline) else toLex (1, s.effective x)

/-- A process outranks another as a real-time process before the others, by an earlier deadline or by a lower effective
priority. -/
theorem rank_lt_iff {s : Scheduler} {y x : Pcb} : s.rank y < s.rank x ↔
    (0 < y.rtPeriod ∧ x.rtPeriod = 0) ∨ (0 < y.rtPeriod ∧ 0 < x.rtPeriod ∧ y.rtDeadline < x.rtDeadline) ∨
      (y.rtPeriod = 0 ∧ x.rtPeriod = 0 ∧ s.effective y < s.effective x) := by
  unfold rank
  by_cases hy : 0 < y.rtPeriod
  · by_cases hx : 0 < x.rtPeriod
    · rw [if_pos hy, if_pos hx, Prod.Lex.toLex_lt_toLex]
      simp [hy, hx, Nat.ne_of_gt hx]
    · rw [if_pos hy, if_neg hx, Prod.Lex.toLex_lt_toLex]
      have hx' : x.rtPeriod = 0 := by omega
      simp [hy, hx']
  · have hy' : y.rtPeriod = 0 := by omega
    by_cases hx : 0 < x.rtPeriod
    · rw [if_neg hy, if_pos hx, Prod.Lex.toLex_lt_toLex]
      simp [hy', Nat.ne_of_gt hx]
    · rw [if_neg hy, if_neg hx, Prod.Lex.toLex_lt_toLex]
      have hx' : x.rtPeriod = 0 := by omega
      simp [hy', hx']

/-- No candidate outranks the selected process. -/
theorem rank_le_of_pick {s : Scheduler} {p : Nat} {y : Pcb} (hpick : s.pickNextPriority.2 = some p)
    (hy : s.getProcess p = some y) : ∀ q ∈ candidates s.processTable, s.rank y ≤ s.rank q := by
  intro q hq
  obtain ⟨z, hz, hpid, hrt, hbest⟩ := s.pickNextPriority_spec.2 p hpick
  have hlive := (List.mem_filter.1 hz).1
  have hzy : z = y := by
    have hget := ProcessTable.mem_live_iff.1 hlive
    rw [hpid] at hget
    exact Option.some.inj (hget.symm.trans hy)
  subst hzy
  by_contra hlt
  rcases rank_lt_iff.1 (not_le.1 hlt) with ⟨hq', hz'⟩ | ⟨hq', -, hdeadline⟩ | ⟨hq', hz', heff⟩
  · have := (hrt ⟨q, hq, hq'⟩).1
    omega
  · have := (hrt ⟨q, hq, hq'⟩).2 q hq hq'
    omega
  · -- the priorities decide only where no candidate is a real-time process
    by_cases hany : ∃ r ∈ candidates s.processTable, 0 < r.rtPeriod
    · have := (hrt hany).1
      omega
    · have hle := hbest hany q hq
      rw [← effectivePrio_eq hz, ← effectivePrio_eq hq] at hle
      unfold effective at heff
      omega

/-! ### The preemption -/

private theorem naturalPrio_eq {s : Scheduler} {pid : Nat} {x : Pcb} (h : s.getProcess pid = some x) :
    s.naturalPrio (some pid) = x.priority := by
  unfold naturalPrio
  rw [Option.bind_some, h]

/-- `reschedule_isr` switches to the selected process exactly if that has the lower natural priority. -/
theorem switch_iff {s : Scheduler} {c : Nat} {x : Pcb} (hcur : s.currentProcess = some c)
    (hx : s.getProcess c = some x) (p : Nat) : (∃ sw, s.rescheduleIsr.2 = some sw ∧ sw.new = p) ↔
      ∃ y, s.pickNextPriority.2 = some p ∧ s.getProcess p = some y ∧ y.priority < x.priority := by
  have hthere : s.currentProcess.bind s.getProcess = some x := by rw [hcur, Option.bind_some, hx]
  have hxprio : s.naturalPrio s.currentProcess = x.priority := by rw [hcur, naturalPrio_eq hx]
  obtain ⟨i, hi⟩ := s.pick_eq
  cases hpick : s.pickNextPriority.2 with
  | none =>
    have hnone : s.rescheduleIsr.2 = none := by
      unfold rescheduleIsr
      rw [hi, hpick]
    rw [hnone]
    simp
  | some next =>
    obtain ⟨y, hy, -⟩ := pickNextPriority_runnable hpick
    have hyprio := naturalPrio_eq hy
    rw [hpick] at hi
    by_cases hkept : s.naturalPrio s.currentProcess ≤ s.naturalPrio (some next) ∨ some next = s.currentProcess
    · rw [rescheduleIsr_kept hi hkept]
      constructor
      · rintro ⟨sw, hsw, -⟩
        cases hsw
      · rintro ⟨z, hp, hz, hlt⟩
        cases hp
        cases hy.symm.trans hz
        rcases hkept with hle | hsame
        · omega
        · -- the current process itself was selected
          cases hsame.trans hcur
          cases hx.symm.trans hy
          omega
    · obtain ⟨sw', hsw', hnew⟩ := rescheduleIsr_preempts hpick hkept hthere
      have hlt : y.priority < x.priority := by
        rw [not_or] at hkept
        omega
      rw [hsw']
      constructor
      · rintro ⟨sw, hsw, rfl⟩
        cases hsw
        exact ⟨y, by rw [hnew], by rw [hnew]; exact hy, hlt⟩
      · rintro ⟨z, hp, -, -⟩
        cases hp
        exact ⟨sw', rfl, hnew⟩

/-- `reschedule_isr` switches exactly to the first process in the scheduler's order, if that outranks the current one. -/
def PreemptsByRank (s : Scheduler) (x : Pcb) : Prop :=
  ∀ p, (∃ sw, s.rescheduleIsr.2 = some sw ∧ sw.new = p) ↔
    ∃ y, s.pickNextPriority.2 = some p ∧ s.getProcess p = some y ∧ s.rank y < s.rank x

/-- The natural priority of `y` is lower than that of `x` exactly where `y` outranks `x`. -/
def OrdersAgree (s : Scheduler) (y x : Pcb) : Prop :=
  (0 < y.rtPeriod ∧ x.rtPeriod = 0 ∧ y.priority < x.priority) ∨
  (0 < y.rtPeriod ∧ 0 < x.rtPeriod ∧ (y.priority < x.priority ↔ y.rtDeadline < x.rtDeadline)) ∨
  (y.rtPeriod = 0 ∧ 0 < x.rtPeriod ∧ x.priority ≤ y.priority) ∨
  (y.rtPeriod = 0 ∧ x.rtPeriod = 0 ∧ (y.priority < x.priority ↔ s.effective y < s.effective x))

theorem ordersAgree_iff {s : Scheduler} {y x : Pcb} :
    s.OrdersAgree y x ↔ (y.priority < x.priority ↔ s.rank y < s.rank x) := by
  rw [rank_lt_iff]
  unfold OrdersAgree
  by_cases hy : 0 < y.rtPeriod
  · by_cases hx : 0 < x.rtPeriod
    · simp [hy, hx, Nat.ne_of_gt hx, Nat.ne_of_gt hy]
    · have hx' : x.rtPeriod = 0 := by omega
      simp [hy, hx', Nat.ne_of_gt hy]
  · have hy' : y.rtPeriod = 0 := by omega
    by_cases hx : 0 < x.rtPeriod
    · simp [hy', hx, Nat.ne_of_gt hx]
    · have hx' : x.rtPeriod = 0 := by omega
      simp [hy', hx']

/-- A device interrupt preempts by the scheduler's order exactly if the order agrees with the natural priorities of the
current process and the process whose turn it is. -/
theorem preemptsByRank_iff {s : Scheduler} {c : Nat} {x : Pcb} (hcur : s.currentProcess = some c)
    (hx : s.getProcess c = some x) :
    s.PreemptsByRank x ↔ ∀ p y, s.HasTurn p → s.getProcess p = some y → s.OrdersAgree y x := by
  unfold PreemptsByRank
  constructor
  · intro h p y hturn hy
    have hpick := (pickNextPriority_eq_some_iff s p).2 hturn
    have hp := (switch_iff hcur hx p).symm.trans (h p)
    rw [ordersAgree_iff]
    constructor
    · intro hlt
      obtain ⟨z, -, hz, hrank⟩ := hp.1 ⟨y, hpick, hy, hlt⟩
      cases hy.symm.trans hz
      exact hrank
    · intro hrank
      obtain ⟨z, -, hz, hlt⟩ := hp.2 ⟨y, hpick, hy, hrank⟩
      cases hy.symm.trans hz
      exact hlt
  · intro h p
    rw [switch_iff hcur hx p]
    refine exists_congr fun y => and_congr_right fun hpick => and_congr_right fun hy => ?_
    exact ordersAgree_iff.1 (h p y ((pickNextPriority_eq_some_iff s p).1 hpick) hy)

/-- Process 2 runs as a real-time process that was given the better priority too: a process of priority 128 runs, and
is preempted by it. -/
theorem preemptsByRank_two : ∃ es s x, Run step (fun _ _ => True) (new 0) es s ∧ s.currentProcess = some 1 ∧
    s.getProcess 1 = some x ∧ s.rescheduleIsr.2.isSome = true ∧
    (s.PreemptsByRank x ↔ ∀ p y, s.HasTurn p → s.getProcess p = some y → s.OrdersAgree y x) := by
  have h : (exec step (fun _ _ => True) (new 0)
      [.addProcess 0, .addProcess 0, .setCurrent 1, .setPriority 2 10, .setRealtime 2 100]).any (fun o =>
        decide (o.1.currentProcess = some 1) && (o.1.getProcess 1).isSome && o.1.rescheduleIsr.2.isSome) = true := by
    decide
  obtain ⟨⟨s, es⟩, hexec, h⟩ := (Option.any_eq_true _ _).1 h
  obtain ⟨h, hswitch⟩ := Bool.and_eq_true_iff.1 h
  obtain ⟨hcur, hlive⟩ := Bool.and_eq_true_iff.1 h
  obtain ⟨x, hx⟩ := Option.isSome_iff_exists.1 hlive
  have hcur := of_decide_eq_true hcur
  exact ⟨es, s, x, run_of_exec hexec, hcur, hx, hswitch, preemptsByRank_iff hcur hx⟩

/-- A real-time process of the default priority does not preempt a best-effort process of priority 10. -/
theorem realtime_not_preempting : ¬ ∀ es s c x, Run step (fun _ _ => True) (new 0) es s → s.currentProcess = some c →
    s.getProcess c = some x → s.PreemptsByRank x := by
  have h : (exec step (fun _ _ => True) (new 0)
      [.addProcess 0, .addProcess 0, .setPriority 1 10, .setCurrent 1, .setRealtime 2 100]).any (fun o =>
        decide (o.1.currentProcess = some 1) && o.1.rescheduleIsr.2.isNone &&
          decide (o.1.pickNextPriority.2 = some 2) && (o.1.getProcess 1).any (fun x =>
            (o.1.getProcess 2).any fun y => decide (0 < y.rtPeriod ∧ x.rtPeriod = 0))) = true := by decide
  obtain ⟨⟨s, es⟩, hexec, h⟩ := (Option.any_eq_true _ _).1 h
  obtain ⟨h, hrecords⟩ := Bool.and_eq_true_iff.1 h
  obtain ⟨h, hpick⟩ := Bool.and_eq_true_iff.1 h
  obtain ⟨hcur, hnone⟩ := Bool.and_eq_true_iff.1 h
  obtain ⟨x, hx, hrecords⟩ := (Option.any_eq_true _ _).1 hrecords
  obtain ⟨y, hy, hperiods⟩ := (Option.any_eq_true _ _).1 hrecords
  intro hall
  have hrank : s.rank y < s.rank x := rank_lt_iff.2 (Or.inl (of_decide_eq_true hperiods))
  obtain ⟨sw, hsw, -⟩ := (hall es s 1 x (run_of_exec hexec) (of_decide_eq_true hcur) hx 2).2
    ⟨y, of_decide_eq_true hpick, hy, hrank⟩
  rw [Option.isNone_iff_eq_none.1 hnone] at hsw
  cases hsw

end Scheduler

end Rost
