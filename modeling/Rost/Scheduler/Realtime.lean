import Rost.Scheduler.Refinement
import Rost.Scheduler.Records

/-!
# Real-time deadlines

A real-time process starts with a deadline one period ahead.  At the end of its quantum a deadline that has passed is moved
on by one period, however long ago it passed; so the deadlines stay ahead exactly if every quantum of the process ends
less than a period after its deadline (`keepsPace_iff`).  The same renewal never overflows the clock when the first
deadline did not (`clockFits_iff`).
-/

namespace Rost

open Lib (Run exec run_of_exec)

namespace Scheduler

/-! ### The deadline after an operation -/

/-- The number of the tick that comes. -/
def nextTick (s : Scheduler) : Nat := wrapAdd 64 s.tick 1

/-- The coming tick ends the quantum of process `q` with record `x`. -/
def EndsQuantum (s : Scheduler) (q : Nat) (x : Pcb) : Prop :=
  s.currentProcess = some q ∧ quantumOver (charge (refresh s.nextTick x)) = true

instance (s : Scheduler) (q : Nat) (x : Pcb) : Decidable (s.EndsQuantum q x) := instDecidableAnd

/-- The coming tick renews the deadline of process `q` with record `x`. -/
def Renews (s : Scheduler) (q : Nat) (x : Pcb) : Prop :=
  s.EndsQuantum q x ∧ 0 < x.rtPeriod ∧ x.rtDeadline ≤ s.nextTick

instance (s : Scheduler) (q : Nat) (x : Pcb) : Decidable (s.Renews q x) := instDecidableAnd

/-- A tick keeps the period of a process, and moves its deadline on exactly if it renews it. -/
theorem realtime_timerTick {s : Scheduler} {q : Nat} {x' : Pcb} (h : s.timerTick.1.getProcess q = some x') :
    ∃ x, s.getProcess q = some x ∧ x'.rtPeriod = x.rtPeriod ∧
      x'.rtDeadline = if s.Renews q x then wrapAdd 64 x.rtDeadline x.rtPeriod else x.rtDeadline := by
  obtain ⟨x, st, hx, rfl⟩ := record_timerTick h
  refine ⟨x, hx, ?_⟩
  have hrefresh : (refresh (wrapAdd 64 s.tick 1) x).rtPeriod = x.rtPeriod ∧
      (refresh (wrapAdd 64 s.tick 1) x).rtDeadline = x.rtDeadline := by
    obtain ⟨st', dl, wf, heq⟩ := refresh_eq (wrapAdd 64 s.tick 1) x
    rw [heq]
    exact ⟨rfl, rfl⟩
  have hcharge : (charge (refresh (wrapAdd 64 s.tick 1) x)).rtPeriod = x.rtPeriod ∧
      (charge (refresh (wrapAdd 64 s.tick 1) x)).rtDeadline = x.rtDeadline := hrefresh
  have hpreempt : (preempt (wrapAdd 64 s.tick 1) (refresh (wrapAdd 64 s.tick 1) x)).rtPeriod = x.rtPeriod ∧
      (preempt (wrapAdd 64 s.tick 1) (refresh (wrapAdd 64 s.tick 1) x)).rtDeadline =
        if 0 < x.rtPeriod ∧ x.rtDeadline ≤ wrapAdd 64 s.tick 1 then wrapAdd 64 x.rtDeadline x.rtPeriod
        else x.rtDeadline := by
    obtain ⟨st', heq⟩ := preempt_eq (wrapAdd 64 s.tick 1) (refresh (wrapAdd 64 s.tick 1) x)
    rw [heq, ← hrefresh.1, ← hrefresh.2]
    exact ⟨rfl, rfl⟩
  unfold tickRecord Renews EndsQuantum nextTick
  dsimp only
  by_cases hc : s.currentProcess = some q
  · rw [if_pos hc]
    by_cases hover : quantumOver (charge (refresh (wrapAdd 64 s.tick 1) x)) = true
    · rw [if_pos hover]
      simpa [hc, hover] using hpreempt
    · rw [if_neg hover]
      simpa [hover] using hcharge
  · rw [if_neg hc]
    simpa [hc] using hrefresh

theorem realtime_setRealtime {s : Scheduler} {pid period q : Nat} {x' : Pcb}
    (h : (s.setRealtime pid period).getProcess q = some x') : ∃ x, s.getProcess q = some x ∧
      if pid = q then x'.rtPeriod = period ∧ x'.rtDeadline = (if 0 < period then wrapAdd 64 s.tick period else 0)
      else x'.rtPeriod = x.rtPeriod ∧ x'.rtDeadline = x.rtDeadline := by
  unfold setRealtime at h
  rw [getProcess_update] at h
  by_cases hq : q = pid
  · rw [if_pos hq] at h
    obtain ⟨x, hx, rfl⟩ := Option.map_eq_some_iff.1 h
    exact ⟨x, hx, by rw [if_pos hq.symm]; exact ⟨rfl, rfl⟩⟩
  · rw [if_neg hq] at h
    exact ⟨x', h, by rw [if_neg fun e => hq e.symm]; exact ⟨rfl, rfl⟩⟩

/-! ### The period grid -/

/-- The deadlines of `p` lie on the grid of period `P` after `t0`. -/
def OnGrid (p t0 P : Nat) (s : Scheduler) : Prop :=
  ∀ x, s.getProcess p = some x → ∃ k, 1 ≤ k ∧ x.rtDeadline = t0 + k * P

/-- The deadline of `p` has not passed. -/
def Ahead (p : Nat) (s : Scheduler) : Prop := ∀ x, s.getProcess p = some x → s.tick < x.rtDeadline

/-- After the operation the deadline is on the grid, and ahead if the operation is a tick that ended the quantum. -/
def KeepsPace (p t0 P : Nat) (s : Scheduler) (op : Op) : Prop :=
  ∀ s' r, s.step op = some (s', r) → s'.OnGrid p t0 P ∧
    (op = .timerTick → (∃ x, s.getProcess p = some x ∧ s.EndsQuantum p x) → s'.Ahead p)

/-- Every tick that ends the quantum of `p` comes less than a period after its deadline, and the clock has room for the
next deadline. -/
def InPace (p P : Nat) (s : Scheduler) : Op → Prop
  | .timerTick => ∀ x, s.getProcess p = some x → s.EndsQuantum p x →
    s.nextTick < x.rtDeadline + P ∧ (x.rtDeadline ≤ s.nextTick → x.rtDeadline + P < 2 ^ 64)
  | _ => True

instance (p P : Nat) (s : Scheduler) (op : Op) : Decidable (s.InPace p P op) := by
  unfold InPace
  split
  · exact decidable_of_iff ((s.getProcess p).all fun x => decide (s.EndsQuantum p x →
      s.nextTick < x.rtDeadline + P ∧ (x.rtDeadline ≤ s.nextTick → x.rtDeadline + P < 2 ^ 64)))
      (by simp only [Option.all_eq_true, decide_eq_true_eq])
  · infer_instance

/-- The operation gives `p` no other period. -/
def Op.KeepsPeriod (p : Nat) : Op → Prop
  | .setRealtime pid _ => pid ≠ p
  | _ => True

instance (p : Nat) (op : Op) : Decidable (op.KeepsPeriod p) := by
  unfold Op.KeepsPeriod
  split <;> infer_instance

/-- A process that is there has period `P` and a deadline on the grid that fits in 64 bits. -/
def Periodic (p t0 P : Nat) (s : Scheduler) : Prop :=
  p < s.processTable.nextPid ∧
    ∀ x, s.getProcess p = some x → x.rtPeriod = P ∧ x.rtDeadline < 2 ^ 64 ∧ ∃ k, 1 ≤ k ∧ x.rtDeadline = t0 + k * P

section

variable {s s' : Scheduler} {op : Op} {r : Ret} {p t0 P : Nat}

private theorem Periodic.onGrid (h : s.Periodic p t0 P) : s.OnGrid p t0 P := fun x hx => (h.2 x hx).2.2

/-- An overflowing renewal leaves the grid: the sum is less than a period. -/
private theorem wrap_lt {d P : Nat} (hd : d < 2 ^ 64) (hP : P < 2 ^ 64) (hwrap : ¬ d + P < 2 ^ 64) :
    wrapAdd 64 d P < P := by
  unfold wrapAdd
  rw [Nat.mod_eq_sub_mod (by omega), Nat.mod_eq_of_lt (by omega)]
  omega

private theorem not_grid_of_lt {d : Nat} (h : d < P) : ¬ ∃ k, 1 ≤ k ∧ d = t0 + k * P := by
  rintro ⟨k, hk, rfl⟩
  have : 1 * P ≤ k * P := Nat.mul_le_mul_right P hk
  omega

/-- What an operation other than a tick leaves of the deadline. -/
private theorem Periodic.step_of_ne (h : s.Periodic p t0 P) (hop : op.KeepsPeriod p) (htick : op ≠ .timerTick)
    (hstep : s.step op = some (s', r)) : s'.Periodic p t0 P := by
  refine ⟨lt_of_lt_of_le h.1 (nextPid_step hstep), fun x' hx' => ?_⟩
  obtain ⟨x, hx, hperiod, hdeadline⟩ : ∃ x, s.getProcess p = some x ∧ x'.rtPeriod = x.rtPeriod ∧
      x'.rtDeadline = x.rtDeadline := by
    by_cases hquiet : realtimeQuiet op = true
    · rcases keeps_step hstep hx' with ⟨x, hx, hkeeps⟩ | ⟨-, hq, -⟩
      · exact ⟨x, hx, hkeeps.realtime hquiet⟩
      · exact absurd h.1 (by omega)
    · cases op with
      | timerTick => exact absurd rfl htick
      | setRealtime pid period =>
        simp only [step, Option.some.injEq, Prod.mk.injEq] at hstep
        rw [← hstep.1] at hx'
        obtain ⟨x, hx, hsame⟩ := realtime_setRealtime hx'
        rw [if_neg hop] at hsame
        exact ⟨x, hx, hsame⟩
      | _ => exact absurd rfl hquiet
  rw [hperiod, hdeadline]
  exact h.2 x hx

/-- The deadline after a renewal that is in pace. -/
private theorem Periodic.renewed (h : s.Periodic p t0 P) {x : Pcb} (hx : s.getProcess p = some x)
    (hfits : x.rtDeadline + P < 2 ^ 64) :
    wrapAdd 64 x.rtDeadline x.rtPeriod = x.rtDeadline + P ∧ ∃ k, 1 ≤ k ∧ x.rtDeadline + P = t0 + k * P := by
  obtain ⟨hperiod, -, k, hk, hgrid⟩ := h.2 x hx
  refine ⟨by rw [hperiod]; exact Nat.mod_eq_of_lt hfits, k + 1, by omega, ?_⟩
  rw [hgrid, Nat.add_mul, Nat.one_mul, Nat.add_assoc]

/-- A tick in pace keeps the deadline on the grid. -/
private theorem Periodic.tick (h : s.Periodic p t0 P) (hpace : s.InPace p P .timerTick) :
    s.timerTick.1.Periodic p t0 P := by
  have hstep : s.step .timerTick = some (s.timerTick.1, .switch s.timerTick.2) := rfl
  refine ⟨lt_of_lt_of_le h.1 (nextPid_step hstep), fun x' hx' => ?_⟩
  obtain ⟨x, hx, hperiod, hdeadline⟩ := realtime_timerTick hx'
  rw [hperiod, hdeadline]
  obtain ⟨hP, hlt, hgrid⟩ := h.2 x hx
  by_cases hrenew : s.Renews p x
  · have hfits := (hpace x hx hrenew.1).2 hrenew.2.2
    obtain ⟨hsum, hnext⟩ := h.renewed hx hfits
    rw [if_pos hrenew, hsum]
    exact ⟨hP, hfits, hnext⟩
  · rw [if_neg hrenew]
    exact ⟨hP, hlt, hgrid⟩

/-- A tick in pace keeps the deadline on the grid and ahead, and no other tick does. -/
private theorem Periodic.tick_iff (h : s.Periodic p t0 P) (hpos : 0 < P) (hP : P < 2 ^ 64) :
    s.KeepsPace p t0 P .timerTick ↔ s.InPace p P .timerTick := by
  have hstep : s.step .timerTick = some (s.timerTick.1, .switch s.timerTick.2) := rfl
  constructor
  · intro hkeeps x hx hends
    obtain ⟨hgrid, hahead⟩ := hkeeps _ _ hstep
    obtain ⟨x', hx'⟩ := Option.ne_none_iff_exists'.1
      (live_step hstep (by nofun) (by rw [hx]; exact Option.some_ne_none x))
    obtain ⟨y, hy, -, hdeadline⟩ := realtime_timerTick hx'
    cases hx.symm.trans hy
    obtain ⟨hperiod, hlt, -⟩ := h.2 x hx
    by_cases hpassed : x.rtDeadline ≤ s.nextTick
    · rw [if_pos ⟨hends, by omega, hpassed⟩, hperiod] at hdeadline
      -- an overflow would leave the grid
      have hfits : x.rtDeadline + P < 2 ^ 64 := by
        by_contra hwrap
        refine not_grid_of_lt ?_ (hgrid x' hx')
        rw [hdeadline]
        exact wrap_lt hlt hP hwrap
      have hlate := hahead rfl ⟨x, hx, hends⟩ x' hx'
      rw [hdeadline, tick_timerTick] at hlate
      have hsum : wrapAdd 64 x.rtDeadline P = x.rtDeadline + P := Nat.mod_eq_of_lt hfits
      rw [hsum] at hlate
      exact ⟨hlate, fun _ => hfits⟩
    · exact ⟨by omega, fun hle => absurd hle hpassed⟩
  · intro hpace s' r hs'
    cases hs'
    refine ⟨(h.tick hpace).onGrid, ?_⟩
    rintro - ⟨x, hx, hends⟩ x' hx'
    obtain ⟨y, hy, -, hdeadline⟩ := realtime_timerTick hx'
    cases hx.symm.trans hy
    rw [hdeadline, tick_timerTick]
    obtain ⟨hnext, hfits⟩ := hpace x hx hends
    by_cases hrenew : s.Renews p x
    · rw [if_pos hrenew, (h.renewed hx (hfits hrenew.2.2)).1]
      exact hnext
    · rw [if_neg hrenew]
      have hpassed : ¬ x.rtDeadline ≤ s.nextTick := fun hle => hrenew ⟨hends, by rw [(h.2 x hx).1]; exact hpos, hle⟩
      exact not_le.1 hpassed

private theorem Periodic.pace_iff (h : s.Periodic p t0 P) (hpos : 0 < P) (hP : P < 2 ^ 64)
    (hop : op.KeepsPeriod p) : s.KeepsPace p t0 P op ↔ s.InPace p P op := by
  by_cases htick : op = .timerTick
  · rw [htick]
    exact h.tick_iff hpos hP
  · refine iff_of_true (fun s' r hs' => ?_) ?_
    · exact ⟨(h.step_of_ne hop htick hs').onGrid, fun e => absurd e htick⟩
    · unfold InPace
      split
      · exact absurd rfl htick
      · trivial

private theorem Periodic.step (h : s.Periodic p t0 P) (hop : op.KeepsPeriod p) (hpace : s.InPace p P op)
    (hstep : s.step op = some (s', r)) : s'.Periodic p t0 P := by
  by_cases htick : op = .timerTick
  · subst htick
    cases hstep
    exact h.tick hpace
  · exact h.step_of_ne hop htick hstep

private theorem live_setRealtime (hp : s.getProcess p ≠ none) : ∃ x, (s.setRealtime p P).getProcess p = some x := by
  obtain ⟨y, hy⟩ := Option.ne_none_iff_exists'.1 hp
  unfold setRealtime
  rw [getProcess_update, if_pos rfl, hy]
  exact ⟨_, rfl⟩

/-- A first deadline that fits in 64 bits is on the grid. -/
private theorem periodic_setRealtime (hp : s.getProcess p ≠ none) (hpos : 0 < P) (hfits : s.tick + P < 2 ^ 64) :
    (s.setRealtime p P).Periodic p s.tick P := by
  obtain ⟨y, hy⟩ := live_setRealtime hp
  refine ⟨ProcessTable.lt_nextPid_of_getProcess hy, fun x hx => ?_⟩
  obtain ⟨_, -, hset⟩ := realtime_setRealtime hx
  rw [if_pos rfl, if_pos hpos] at hset
  have hsum : wrapAdd 64 s.tick P = s.tick + P := Nat.mod_eq_of_lt hfits
  rw [hsum] at hset
  exact ⟨hset.1, by omega, 1, Nat.le_refl 1, by rw [hset.2, Nat.one_mul]⟩

/-- A first deadline that overflows is not on the grid. -/
private theorem fits_of_onGrid (hp : s.getProcess p ≠ none) (hpos : 0 < P) (hP : P < 2 ^ 64) (htick : s.tick < 2 ^ 64)
    (hgrid : (s.setRealtime p P).OnGrid p s.tick P) : s.tick + P < 2 ^ 64 := by
  obtain ⟨x, hx⟩ := live_setRealtime hp
  obtain ⟨_, -, hset⟩ := realtime_setRealtime hx
  rw [if_pos rfl, if_pos hpos] at hset
  by_contra hwrap
  refine not_grid_of_lt ?_ (hgrid x hx)
  rw [hset.2]
  exact wrap_lt htick hP hwrap

/-- After `set_realtime` the deadlines stay on the period grid, and ahead after every tick that ends the quantum, exactly
if the first deadline fits in 64 bits and every tick that ends the quantum comes less than a period after the deadline. -/
theorem keepsPace_iff (hp : s.getProcess p ≠ none) (hpos : 0 < P) (hP : P < 2 ^ 64) (htick : s.tick < 2 ^ 64)
    (es : List (Op × Ret)) (t : Scheduler) :
    ((s.setRealtime p P).OnGrid p s.tick P ∧
        Run step (fun u op => op.KeepsPeriod p ∧ u.KeepsPace p s.tick P op) (s.setRealtime p P) es t) ↔
      s.tick + P < 2 ^ 64 ∧ Run step (fun u op => op.KeepsPeriod p ∧ u.InPace p P op) (s.setRealtime p P) es t := by
  have hrun : s.tick + P < 2 ^ 64 →
      (Run step (fun u op => op.KeepsPeriod p ∧ u.KeepsPace p s.tick P op) (s.setRealtime p P) es t ↔
        Run step (fun u op => op.KeepsPeriod p ∧ u.InPace p P op) (s.setRealtime p P) es t) := by
    intro hfits
    refine Run.iff_of_invariant (P := fun u => u.Periodic p s.tick P) (periodic_setRealtime hp hpos hfits) ?_ ?_
    · exact fun h _ => and_congr_right fun hop => h.pace_iff hpos hP hop
    · exact fun h hguard hstep => h.step hguard.1 ((h.pace_iff hpos hP hguard.1).1 hguard.2) hstep
  constructor
  · rintro ⟨hgrid, hpace⟩
    have hfits := fits_of_onGrid hp hpos hP htick hgrid
    exact ⟨hfits, (hrun hfits).1 hpace⟩
  · rintro ⟨hfits, hpace⟩
    exact ⟨(periodic_setRealtime hp hpos hfits).onGrid, (hrun hfits).2 hpace⟩

end

/-- A process of period 20 runs for two quanta of 10 ticks: its deadline moves from 20 to 40 at tick 20. -/
theorem keepsPace_twenty : ∃ es s fs t, Run step (fun _ _ => True) (new 0) es s ∧ fs.length = 20 ∧
    (t.getProcess 1).map Pcb.rtDeadline = some 40 ∧ (s.setRealtime 1 20).OnGrid 1 s.tick 20 ∧
    Run step (fun u op => op.KeepsPeriod 1 ∧ u.KeepsPace 1 s.tick 20 op) (s.setRealtime 1 20) fs t := by
  have h : (exec step (fun _ _ => True) (new 0) [.addProcess 0, .schedule]).any (fun o =>
      (o.1.getProcess 1).isSome && decide (o.1.tick = 0) && (exec step (fun u op => op.KeepsPeriod 1 ∧ u.InPace 1 20 op)
        (o.1.setRealtime 1 20) (List.replicate 20 .timerTick)).any fun o' =>
          o'.2.length == 20 && decide ((o'.1.getProcess 1).map Pcb.rtDeadline = some 40)) = true := by decide
  obtain ⟨⟨s, es⟩, hexec, h⟩ := (Option.any_eq_true _ _).1 h
  obtain ⟨h, hafter⟩ := Bool.and_eq_true_iff.1 h
  obtain ⟨hlive, htick⟩ := Bool.and_eq_true_iff.1 h
  obtain ⟨⟨t, fs⟩, hexec', h'⟩ := (Option.any_eq_true _ _).1 hafter
  obtain ⟨hlen, hdeadline⟩ := Bool.and_eq_true_iff.1 h'
  have htick : s.tick = 0 := of_decide_eq_true htick
  obtain ⟨hgrid, hrun⟩ := (keepsPace_iff (Option.isSome_iff_ne_none.1 hlive) (by decide) (by decide) (by rw [htick]; decide)
    fs t).2 ⟨by rw [htick]; decide, run_of_exec hexec'⟩
  exact ⟨es, s, fs, t, run_of_exec hexec, eq_of_beq hlen, of_decide_eq_true hdeadline, hgrid, hrun⟩

/-- A process of period 3 has its deadline moved from 3 to 6 at tick 10, the end of its first quantum. -/
theorem deadline_behind : ¬ ∀ es s p P fs t op, Run step (fun _ _ => True) (new 0) es s → s.getProcess p ≠ none →
    0 < P → P < 2 ^ 64 → Run step (fun _ op => op.KeepsPeriod p) (s.setRealtime p P) fs t → op.KeepsPeriod p →
    t.KeepsPace p s.tick P op := by
  have h : (exec step (fun _ _ => True) (new 0) [.addProcess 0, .schedule]).any (fun o =>
      (o.1.getProcess 1).isSome && (exec step (fun _ op => op.KeepsPeriod 1) (o.1.setRealtime 1 3)
        (List.replicate 9 .timerTick)).any fun o' =>
          (o'.1.getProcess 1).any (fun x => decide (o'.1.EndsQuantum 1 x)) &&
            (o'.1.timerTick.1.getProcess 1).any fun x => decide (x.rtDeadline ≤ o'.1.timerTick.1.tick)) = true := by
    decide
  obtain ⟨⟨s, es⟩, hexec, h⟩ := (Option.any_eq_true _ _).1 h
  obtain ⟨hlive, hafter⟩ := Bool.and_eq_true_iff.1 h
  obtain ⟨⟨t, fs⟩, hexec', h'⟩ := (Option.any_eq_true _ _).1 hafter
  obtain ⟨hends, hbehind⟩ := Bool.and_eq_true_iff.1 h'
  obtain ⟨x, hx, hends⟩ := (Option.any_eq_true _ _).1 hends
  obtain ⟨x', hx', hbehind⟩ := (Option.any_eq_true _ _).1 hbehind
  intro hall
  have hstep : t.step .timerTick = some (t.timerTick.1, .switch t.timerTick.2) := rfl
  have hahead := (hall es s 1 3 fs t .timerTick (run_of_exec hexec) (Option.isSome_iff_ne_none.1 hlive) (by decide)
    (by decide) (run_of_exec hexec') trivial _ _ hstep).2 rfl ⟨x, hx, of_decide_eq_true hends⟩ x' hx'
  exact absurd (of_decide_eq_true hbehind) (not_le.2 hahead)

/-! ### The additions on the clock -/

/-- The additions of the operation on the tick counter and the deadlines fit in 64 bits.  The one of `blocking_receive`
saturates; its result is the deadline of the process. -/
def ClockFits (s : Scheduler) : Op → Prop
  | .setRealtime pid period => s.getProcess pid ≠ none → 0 < period → s.tick + period ≤ u64Max
  | .timerTick => s.tick + 1 ≤ u64Max ∧
    ∀ q x, s.getProcess q = some x → s.Renews q x → x.rtDeadline + x.rtPeriod ≤ u64Max
  | .blockingReceive pid t => ∀ x x', s.getProcess pid = some x → x.mailbox.contents = [] → 0 < t →
    (s.blockingReceive pid t).1.getProcess pid = some x' → x'.blockedDeadline ≤ u64Max
  | _ => True

/-- Every period that is set fits between the current tick and the end of the clock. -/
def SetsInTime (s : Scheduler) : Op → Prop
  | .setRealtime pid period => s.getProcess pid ≠ none → 0 < period → s.tick + period ≤ u64Max
  | _ => True

/-- Fewer than 2^63 ticks elapse. -/
def Op.Elapses (s : Scheduler) : Op → Prop
  | .timerTick => s.tick + 1 < 2 ^ 63
  | _ => True

instance (s : Scheduler) (op : Op) : Decidable (op.Elapses s) := by
  unfold Op.Elapses
  split <;> infer_instance

/-- The deadline of a real-time process is at least its period, for both grew from zero. -/
def DeadlinesGrown (s : Scheduler) : Prop :=
  ∀ q x, s.getProcess q = some x → 0 < x.rtPeriod → x.rtPeriod ≤ x.rtDeadline

section

variable {s s' : Scheduler} {op : Op} {r : Ret}

/-- The deadline of a process that blocks is a saturating sum. -/
private theorem blockedDeadline_le {pid t : Nat} {x x' : Pcb} (hx : s.getProcess pid = some x)
    (hempty : x.mailbox.contents = []) (ht : 0 < t)
    (hx' : (s.blockingReceive pid t).1.getProcess pid = some x') : x'.blockedDeadline ≤ u64Max := by
  rcases s.blockingReceive_cases pid t with ⟨hnone, -⟩ | ⟨y, hy, ⟨msg, rest, hmsg, -⟩ | ⟨-, hzero, -⟩ | ⟨-, -, heq⟩⟩
  · rw [hx] at hnone
    cases hnone
  · cases hx.symm.trans hy
    rw [hempty] at hmsg
    cases hmsg
  · omega
  · rw [heq, getProcess_log, getProcess_update, if_pos rfl] at hx'
    obtain ⟨z, -, rfl⟩ := Option.map_eq_some_iff.1 hx'
    dsimp only
    split
    · exact Nat.le_refl u64Max
    · exact Nat.min_le_right _ _

/-- A deadline that has passed is below 2^63, so that a renewal by a period that is no longer fits. -/
private theorem renewal_fits (h : s.DeadlinesGrown) (htick : s.tick + 1 < 2 ^ 63) {q : Nat} {x : Pcb}
    (hx : s.getProcess q = some x) (hrenew : s.Renews q x) : x.rtDeadline + x.rtPeriod < 2 ^ 64 := by
  obtain ⟨-, hpos, hpassed⟩ := hrenew
  have hgrown := h q x hx hpos
  have hnext : s.nextTick = s.tick + 1 := Nat.mod_eq_of_lt (by omega)
  omega

private theorem DeadlinesGrown.fits_iff (h : s.DeadlinesGrown) (hop : op.Elapses s) :
    s.ClockFits op ↔ s.SetsInTime op := by
  cases op with
  | timerTick =>
    have htick : s.tick + 1 < 2 ^ 63 := hop
    refine iff_of_true ⟨?_, fun q x hx hrenew => ?_⟩ trivial
    · unfold u64Max
      omega
    · have := renewal_fits h htick hx hrenew
      unfold u64Max
      omega
  | blockingReceive pid t => exact iff_of_true (fun x x' hx hempty ht hx' => blockedDeadline_le hx hempty ht hx') trivial
  | _ => exact Iff.rfl

private theorem DeadlinesGrown.step (h : s.DeadlinesGrown) (hop : op.Elapses s) (hset : s.SetsInTime op)
    (hstep : s.step op = some (s', r)) : s'.DeadlinesGrown := by
  intro q x' hx'
  by_cases hquiet : realtimeQuiet op = true
  · -- a new process has no period
    rcases keeps_step hstep hx' with ⟨x, hx, hkeeps⟩ | ⟨-, -, _, _, _, rfl⟩
    · obtain ⟨hperiod, hdeadline⟩ := hkeeps.realtime hquiet
      rw [hperiod, hdeadline]
      exact h q x hx
    · exact fun hpos => absurd hpos (Nat.lt_irrefl 0)
  · cases op with
    | timerTick =>
      cases hstep
      obtain ⟨x, hx, hperiod, hdeadline⟩ := realtime_timerTick hx'
      rw [hperiod, hdeadline]
      intro hpos
      have hgrown := h q x hx hpos
      split
      · rename_i hrenew
        have hfits := renewal_fits h hop hx hrenew
        have hsum : wrapAdd 64 x.rtDeadline x.rtPeriod = x.rtDeadline + x.rtPeriod := Nat.mod_eq_of_lt hfits
        omega
      · exact hgrown
    | setRealtime pid period =>
      cases hstep
      obtain ⟨x, hx, hset'⟩ := realtime_setRealtime hx'
      intro hpos
      split at hset'
      · rename_i hq
        subst hq
        rw [hset'.1] at hpos
        have hfits := hset (by rw [hx]; exact Option.some_ne_none x) hpos
        have hsum : wrapAdd 64 s.tick period = s.tick + period := Nat.mod_eq_of_lt (by unfold u64Max at hfits; omega)
        rw [hset'.1, hset'.2, if_pos hpos, hsum]
        omega
      · rw [hset'.1] at hpos
        rw [hset'.1, hset'.2]
        exact h q x hx hpos
    | _ => exact absurd rfl hquiet

end

/-- In fewer than 2^63 ticks no addition on the clock overflows exactly if every period that is set fits after the current
tick: the renewals and the deadlines of `blocking_receive` then fit too. -/
theorem clockFits_iff (base : Nat) (es : List (Op × Ret)) (t : Scheduler) :
    Run step (fun s op => op.Elapses s ∧ s.ClockFits op) (new base) es t ↔
      Run step (fun s op => op.Elapses s ∧ s.SetsInTime op) (new base) es t := by
  refine Run.iff_of_invariant (P := DeadlinesGrown) ?_ ?_ ?_
  · intro q x hx
    rw [getProcess_new] at hx
    cases hx
  · exact fun h _ => and_congr_right fun hop => h.fits_iff hop
  · exact fun h hguard hstep => h.step hguard.1 ((h.fits_iff hguard.1).1 hguard.2) hstep

/-- One tick after the start, the greatest period overflows the clock. -/
theorem period_overflows : ¬ ∀ es s op, Run step (fun s op => op.Elapses s) (new 0) es s → op.Elapses s →
    s.ClockFits op := by
  have h : (exec step (fun s op => op.Elapses s) (new 0) [.addProcess 0, .timerTick]).any (fun o =>
      (o.1.getProcess 1).isSome && decide (o.1.tick = 1)) = true := by decide
  obtain ⟨⟨s, es⟩, hexec, h⟩ := (Option.any_eq_true _ _).1 h
  obtain ⟨hlive, htick⟩ := Bool.and_eq_true_iff.1 h
  intro hall
  have hfits := hall es s (.setRealtime 1 u64Max) (run_of_exec hexec) trivial (Option.isSome_iff_ne_none.1 hlive)
    (by decide)
  rw [of_decide_eq_true htick] at hfits
  exact absurd hfits (by decide)

end Scheduler

end Rost
