import Rost.Scheduler.Selection
import Rost.Lib.Run
import Mathlib.Data.List.Rotate

/-!
# The round-robin index

One index serves all priority levels.  While the table does not change, successive calls of `pick_next_priority` walk
around the candidates of least inherited priority (`picks_eq_rotate`), so each of them is returned once in as many calls
as there are candidates.  `reschedule_isr` asks the same function before it knows whether it will preempt: the last
section says exactly when a refused preemption leaves the scheduler as it was.
-/

namespace Rost

open Lib (Run exec run_of_exec)

namespace Scheduler

/-! ### Consecutive selections -/

/-- The results of `n` consecutive calls of `pick_next_priority`. -/
def picks : Scheduler → Nat → List (Option Nat)
  | _, 0 => []
  | s, n + 1 => s.pickNextPriority.2 :: picks s.pickNextPriority.1 n

/-- The `i`-th of several calls returns the candidate `i` places after the round-robin index. -/
private theorem picks_eq_map {s : Scheduler} (hrt : realtime s.processTable = []) (hl : leastPrio s.processTable ≠ [])
    (k : Nat) :
    s.picks k = (List.range k).map fun i =>
      ((leastPrio s.processTable).map Pcb.pid)[
        (s.cursor (leastPrio s.processTable).length + i) % (leastPrio s.processTable).length]? := by
  have hpos : 0 < (leastPrio s.processTable).length := List.length_pos_iff.2 hl
  induction k generalizing s with
  | zero => rfl
  | succ k ih =>
    have hlt := s.cursor_lt hpos
    have hcursor : cursor { s with
        queueIndex := (s.cursor (leastPrio s.processTable).length + 1) % (leastPrio s.processTable).length }
        (leastPrio s.processTable).length =
        (s.cursor (leastPrio s.processTable).length + 1) % (leastPrio s.processTable).length := by
      unfold cursor
      rw [if_pos (Nat.mod_lt _ hpos)]
    have hnext := ih (s := { s with
      queueIndex := (s.cursor (leastPrio s.processTable).length + 1) % (leastPrio s.processTable).length }) hrt hl hpos
    dsimp only at hnext
    rw [picks, List.range_succ_eq_map, List.map_cons, List.map_map, pickNextPriority_of_least hrt hl]
    dsimp only
    rw [hnext, hcursor, List.cons_eq_cons]
    constructor
    · simp only [Nat.add_zero, Nat.mod_eq_of_lt hlt]
    · apply List.map_congr_left
      intro i _
      dsimp only [Function.comp]
      rw [Nat.mod_add_mod, Nat.add_assoc, Nat.add_comm 1 i]

/-- One round of calls goes once around the candidates of least inherited priority, from the round-robin index on. -/
theorem picks_eq_rotate {s : Scheduler} (hrt : realtime s.processTable = []) (hl : leastPrio s.processTable ≠ []) :
    s.picks (leastPrio s.processTable).length =
      (((leastPrio s.processTable).map Pcb.pid).rotate (s.cursor (leastPrio s.processTable).length)).map some := by
  have hpos : 0 < (leastPrio s.processTable).length := List.length_pos_iff.2 hl
  rw [picks_eq_map hrt hl]
  apply List.ext_getElem
  · simp
  · intro i hi _
    have hin : (s.cursor (leastPrio s.processTable).length + i) % (leastPrio s.processTable).length <
        ((leastPrio s.processTable).map Pcb.pid).length := by
      rw [List.length_map]
      exact Nat.mod_lt _ hpos
    rw [List.getElem_map, List.getElem_map, List.getElem_range, List.getElem_rotate, List.getElem?_eq_getElem hin]
    simp only [List.length_map, Nat.add_comm i]

private theorem nodup_leastPrio (t : ProcessTable) : ((leastPrio t).map Pcb.pid).Nodup := by
  have hsub : List.Sublist (leastPrio t) t.live := (List.filter_sublist (l := candidates t)).trans List.filter_sublist
  exact (hsub.map Pcb.pid).nodup t.processes.distinct

/-- Without ready or running real-time processes, every candidate of least inherited priority is returned exactly once
in a round of calls. -/
theorem count_picks {s : Scheduler} (hrt : ∀ p ∈ s.processTable.live, p.state = .ready ∨ p.state = .running →
    p.rtPeriod = 0) : ∀ p ∈ leastPrio s.processTable,
      (s.picks (leastPrio s.processTable).length).count (some p.pid) = 1 := by
  intro p hp
  have hnone : realtime s.processTable = [] := by
    rw [List.eq_nil_iff_forall_not_mem]
    intro q hq
    obtain ⟨hcand, hperiod⟩ := mem_realtime_iff.1 hq
    obtain ⟨hlive, hrun⟩ := List.mem_filter.1 hcand
    have := hrt q hlive (by simpa [Pcb.isRunnable] using hrun)
    omega
  rw [picks_eq_rotate hnone (List.ne_nil_of_mem hp)]
  have hnodup : ((((leastPrio s.processTable).map Pcb.pid).rotate
      (s.cursor (leastPrio s.processTable).length)).map some).Nodup := by
    rw [List.nodup_map_iff (Option.some_injective Nat), List.nodup_rotate]
    exact nodup_leastPrio s.processTable
  apply List.count_eq_one_of_mem hnodup
  rw [List.mem_map]
  exact ⟨p.pid, List.mem_rotate.2 (List.mem_map_of_mem hp), rfl⟩

/-- Processes 1 and 3 share the least priority; the round-robin index, out of range, starts again from the front. -/
theorem count_picks_two :
    ∃ s : Scheduler, s.queueIndex = 7 ∧ (leastPrio s.processTable).map Pcb.pid = [1, 3] ∧
      ∀ p ∈ leastPrio s.processTable, (s.picks (leastPrio s.processTable).length).count (some p.pid) = 1 := by
  have h : ((exec step (fun _ _ => True) { new 0 with queueIndex := 7 }
      [.addProcess 0, .addProcess 0, .addProcess 0, .setPriority 1 10, .setPriority 3 10]).any fun o =>
        decide (o.1.queueIndex = 7) && decide ((leastPrio o.1.processTable).map Pcb.pid = [1, 3]) &&
        o.1.processTable.live.all fun p => decide (p.rtPeriod = 0)) = true := by decide
  obtain ⟨⟨s, es⟩, -, h⟩ := (Option.any_eq_true _ _).1 h
  obtain ⟨h, hperiod⟩ := Bool.and_eq_true_iff.1 h
  obtain ⟨hidx, hleast⟩ := Bool.and_eq_true_iff.1 h
  have hrt : ∀ p ∈ s.processTable.live, p.state = .ready ∨ p.state = .running → p.rtPeriod = 0 :=
    fun p hp _ => of_decide_eq_true (List.all_eq_true.1 hperiod p hp)
  exact ⟨s, of_decide_eq_true hidx, of_decide_eq_true hleast, count_picks hrt⟩

/-- A running real-time process keeps its turn although no real-time process is ready: process 2, the only candidate of
least inherited priority, is not returned. -/
theorem running_realtime_keeps_turn :
    ¬ ∀ s : Scheduler, (∀ p ∈ s.processTable.live, p.state = .ready → p.rtPeriod = 0) →
      ∀ p ∈ leastPrio s.processTable, (s.picks (leastPrio s.processTable).length).count (some p.pid) = 1 := by
  have h : ((exec step (fun _ _ => True) (new 0)
      [.addProcess 0, .addProcess 0, .setPriority 2 10, .setRealtime 1 100, .forceScheduleNext]).any fun o =>
        (o.1.processTable.live.all fun p => decide (p.state = .ready → p.rtPeriod = 0)) &&
        (leastPrio o.1.processTable).any fun p =>
          decide ((o.1.picks (leastPrio o.1.processTable).length).count (some p.pid) ≠ 1)) = true := by decide
  obtain ⟨⟨s, es⟩, -, h⟩ := (Option.any_eq_true _ _).1 h
  obtain ⟨hready, h⟩ := Bool.and_eq_true_iff.1 h
  obtain ⟨p, hp, hcount⟩ := List.any_eq_true.1 h
  intro hall
  have hrt : ∀ p ∈ s.processTable.live, p.state = .ready → p.rtPeriod = 0 :=
    fun p hp => of_decide_eq_true (List.all_eq_true.1 hready p hp)
  exact of_decide_eq_true hcount (hall s hrt p hp)

/-! ### An interrupt that does not preempt -/

/-- A call of `reschedule_isr` that returns nothing changes neither the current process, the round-robin index nor any
record, so that the next tick and the next yield choose as they would have chosen without it. -/
def LeavesNoTrace (s : Scheduler) : Prop :=
  s.rescheduleIsr.2 = none →
    s.rescheduleIsr.1.currentProcess = s.currentProcess ∧ s.rescheduleIsr.1.queueIndex = s.queueIndex ∧
    s.rescheduleIsr.1.processTable = s.processTable ∧
    s.rescheduleIsr.1.timerTick.2 = s.timerTick.2 ∧ s.rescheduleIsr.1.yieldSwitch.2 = s.yieldSwitch.2

/-- The selection does not move the round-robin index: a real-time process has its turn, or one process alone has the
least inherited priority and the index points at it. -/
def IndexRests (s : Scheduler) : Prop :=
  realtime s.processTable ≠ [] ∨ (leastPrio s.processTable).length = 1 ∧ s.queueIndex = 0

/-- Nobody can be selected; or the selected process takes the place of a process that is there; or the current process
stays and the round-robin index rests. -/
def Settled (s : Scheduler) : Prop :=
  candidates s.processTable = [] ∨
  ∃ next, s.HasTurn next ∧
    ((s.naturalPrio (some next) < s.naturalPrio s.currentProcess ∧ s.currentProcess ≠ some next ∧
        s.currentProcess.bind s.getProcess ≠ none) ∨
      ((s.naturalPrio s.currentProcess ≤ s.naturalPrio (some next) ∨ s.currentProcess = some next) ∧ s.IndexRests))

/-- The selection leaves the round-robin index where it is exactly when it rests. -/
theorem pickNextPriority_queueIndex {s : Scheduler} (hc : candidates s.processTable ≠ []) :
    s.pickNextPriority.1.queueIndex = s.queueIndex ↔ s.IndexRests := by
  unfold IndexRests
  by_cases hrt : realtime s.processTable = []
  · have hl := leastPrio_ne_nil hc
    have hpos : 0 < (leastPrio s.processTable).length := List.length_pos_iff.2 hl
    rw [pickNextPriority_of_least hrt hl]
    dsimp only
    simp only [hrt, ne_eq, not_true_eq_false, false_or]
    generalize (leastPrio s.processTable).length = n at hpos
    have hlt := s.cursor_lt hpos
    constructor
    · intro heq
      by_cases hin : s.queueIndex < n
      · have hcur : s.cursor n = s.queueIndex := if_pos hin
        rw [hcur] at heq
        by_cases hlast : s.queueIndex + 1 < n
        · rw [Nat.mod_eq_of_lt hlast] at heq
          omega
        · have hn : n = s.queueIndex + 1 := by omega
          rw [hn, Nat.mod_self] at heq
          omega
      · have := Nat.mod_lt (s.cursor n + 1) hpos
        omega
    · rintro ⟨rfl, hidx⟩
      rw [hidx, Nat.mod_one]
  · rw [pickNextPriority_of_realtime hrt]
    simp [hrt]

section

variable {s : Scheduler} {next i : Nat}

/-- The current process stays if the selected one has no lower natural priority. -/
theorem rescheduleIsr_kept (hi : s.pickNextPriority = ({ s with queueIndex := i }, some next))
    (hkept : s.naturalPrio s.currentProcess ≤ s.naturalPrio (some next) ∨ some next = s.currentProcess) :
    s.rescheduleIsr = ({ s with queueIndex := i }, none) := by
  unfold rescheduleIsr
  rw [hi]
  exact if_pos hkept

/-- Without a process to leave, the selected process becomes the current one and nothing is returned. -/
private theorem rescheduleIsr_vacant (hi : s.pickNextPriority = ({ s with queueIndex := i }, some next))
    (hkept : ¬ (s.naturalPrio s.currentProcess ≤ s.naturalPrio (some next) ∨ some next = s.currentProcess))
    (hcur : s.currentProcess.bind s.getProcess = none) :
    s.rescheduleIsr = ({ s with queueIndex := i, currentProcess := some next }, none) := by
  unfold rescheduleIsr
  rw [hi]
  refine (if_neg hkept).trans ?_
  split
  · rfl
  · rename_i cpid hcpid
    rw [hcpid] at hcur
    split
    · rfl
    · rename_i p hget
      have hgone : s.getProcess cpid = none := hcur
      exact absurd (hgone.symm.trans hget) (by simp)

/-- A preemption is always returned, for the selected process is in the table. -/
theorem rescheduleIsr_preempts (hpick : s.pickNextPriority.2 = some next)
    (hkept : ¬ (s.naturalPrio s.currentProcess ≤ s.naturalPrio (some next) ∨ some next = s.currentProcess))
    {p : Pcb} (hcur : s.currentProcess.bind s.getProcess = some p) :
    ∃ sw, s.rescheduleIsr.2 = some sw ∧ sw.new = next := by
  obtain ⟨i, hi⟩ := s.pick_eq
  obtain ⟨q, hq, -⟩ := pickNextPriority_runnable hpick
  unfold rescheduleIsr
  rw [hi, hpick]
  dsimp only
  split
  · rename_i hk
    exact absurd hk hkept
  · split
    · rename_i hcpid
      rw [hcpid] at hcur
      cases hcur
    · rename_i cpid hcpid
      rw [hcpid] at hcur
      split
      · rename_i hget
        have hthere : s.getProcess cpid = some p := hcur
        exact absurd (hthere.symm.trans hget) (by simp)
      · have hne : next ≠ cpid := fun h => hkept (Or.inr (by rw [h, hcpid]))
        have hnext : (({ s with queueIndex := i } : Scheduler).update cpid demote demote_pid).getProcess next = some q := by
          rw [getProcess_update, if_neg hne]
          exact hq
        unfold enter
        rw [hnext]
        exact ⟨_, rfl, rfl⟩

end

/-- An interrupt that does not preempt leaves no trace exactly in the settled states. -/
theorem leavesNoTrace_iff (s : Scheduler) : s.LeavesNoTrace ↔ s.Settled := by
  by_cases hc : candidates s.processTable = []
  · have heq : s.rescheduleIsr = (s, none) := by
      unfold rescheduleIsr
      rw [pickNextPriority_of_idle hc]
    constructor
    · intro _
      exact Or.inl hc
    · intro _ _
      rw [heq]
      exact ⟨rfl, rfl, rfl, rfl, rfl⟩
  · obtain ⟨q, hq⟩ := List.exists_mem_of_ne_nil _ hc
    obtain ⟨hlive, hrun⟩ := List.mem_filter.1 hq
    obtain ⟨next, hpick⟩ := pickNextPriority_isSome (s := s) (ProcessTable.mem_live_iff.1 hlive) hrun
    have hturn := (pickNextPriority_eq_some_iff s next).1 hpick
    have hunique : ∀ other, s.HasTurn other → other = next := by
      intro other hother
      have := (pickNextPriority_eq_some_iff s other).2 hother
      rw [hpick] at this
      exact (Option.some.inj this).symm
    obtain ⟨i, hi⟩ := s.pick_eq
    have hidx := pickNextPriority_queueIndex hc
    rw [hi] at hidx
    rw [hpick] at hi
    by_cases hkept : s.naturalPrio s.currentProcess ≤ s.naturalPrio (some next) ∨ some next = s.currentProcess
    · have heq := rescheduleIsr_kept hi hkept
      constructor
      · intro h
        have hrest := (h (by rw [heq])).2.1
        rw [heq] at hrest
        exact Or.inr ⟨next, hturn, Or.inr ⟨hkept.imp_right Eq.symm, hidx.1 hrest⟩⟩
      · rintro (h | ⟨other, hother, h⟩) _
        · exact absurd h hc
        · obtain rfl := hunique other hother
          rcases h with ⟨hlt, hne, -⟩ | ⟨-, hrest⟩
          · rcases hkept with hle | heq'
            · omega
            · exact absurd heq'.symm hne
          · obtain rfl : i = s.queueIndex := hidx.2 hrest
            rw [heq]
            exact ⟨rfl, rfl, rfl, rfl, rfl⟩
    · have hne : s.currentProcess ≠ some next := fun h => hkept (Or.inr h.symm)
      have hlt : s.naturalPrio (some next) < s.naturalPrio s.currentProcess := by
        rcases Nat.lt_or_ge (s.naturalPrio (some next)) (s.naturalPrio s.currentProcess) with h | h
        · exact h
        · exact absurd (Or.inl h) hkept
      cases hcur : s.currentProcess.bind s.getProcess with
      | none =>
        have heq := rescheduleIsr_vacant hi hkept hcur
        constructor
        · intro h
          have := (h (by rw [heq])).1
          rw [heq] at this
          exact absurd this.symm hne
        · rintro (h | ⟨other, hother, h⟩) _
          · exact absurd h hc
          · obtain rfl := hunique other hother
            rcases h with ⟨-, -, hthere⟩ | ⟨hle | hsame, -⟩
            · exact absurd hcur hthere
            · omega
            · exact absurd hsame hne
      | some p =>
        constructor
        · intro _
          exact Or.inr ⟨next, hturn, Or.inl ⟨hlt, hne, by rw [hcur]; simp⟩⟩
        · intro _ hnone
          obtain ⟨sw, hsw, -⟩ := rescheduleIsr_preempts hpick hkept hcur
          rw [hnone] at hsw
          cases hsw

/-- Two processes of one priority; the first one runs.  An interrupt moves the round-robin index from 1 to 0 without a
preemption, and a yield of process 1 then returns to process 1 itself and not to process 2. -/
theorem interrupt_leaves_trace :
    ∃ es s, Run step (fun _ _ => True) (new 0) es s ∧ s.rescheduleIsr.2 = none ∧
      s.rescheduleIsr.1.queueIndex ≠ s.queueIndex ∧ (s.yieldSwitch.2.map Switch.new = some 2) ∧
      s.rescheduleIsr.1.yieldSwitch.2 = none ∧ ¬ s.LeavesNoTrace := by
  have h : ((exec step (fun _ _ => True) (new 0) [.addProcess 0, .addProcess 0, .forceScheduleNext]).any fun o =>
      o.1.rescheduleIsr.2.isNone && decide (o.1.rescheduleIsr.1.queueIndex ≠ o.1.queueIndex) &&
      decide (o.1.yieldSwitch.2.map Switch.new = some 2) && o.1.rescheduleIsr.1.yieldSwitch.2.isNone) = true := by
    decide
  obtain ⟨⟨s, es⟩, hrun, h⟩ := (Option.any_eq_true _ _).1 h
  obtain ⟨h, hafter⟩ := Bool.and_eq_true_iff.1 h
  obtain ⟨h, hbefore⟩ := Bool.and_eq_true_iff.1 h
  obtain ⟨hnone, hidx⟩ := Bool.and_eq_true_iff.1 h
  have hnone := Option.isNone_iff_eq_none.1 hnone
  have hidx := of_decide_eq_true hidx
  refine ⟨es, s, run_of_exec hrun, hnone, hidx, of_decide_eq_true hbefore, Option.isNone_iff_eq_none.1 hafter, ?_⟩
  intro htrace
  exact hidx (htrace hnone).2.1

end Scheduler

end Rost
