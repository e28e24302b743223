import Rost.Scheduler.Records
import Rost.Scheduler.Refinement
import Rost.Scheduler.Selection

/-!
# CPU budgets

A process with a budget is preempted when a tick uses it up, and the counters are reset every 1000 ticks.  The
selection does not look at budgets, so a process may be entered again with its budget used up, and is then charged
further ticks of the frame.  Where no selection falls on such a process, the ticks of a frame charged to it stay within
its budget (`charged_le_budget`).
-/

namespace Rost

namespace Scheduler

open Lib (Run exec run_of_exec)

/-- The ticks charged between `x` and a later `x'` of the same process; the counter is a `u64`. -/
def chargedSince (x x' : Pcb) : Nat := (x'.totalCpuTicks + 2 ^ 64 - x.totalCpuTicks % 2 ^ 64) % 2 ^ 64

def budgetSpent (p : Pcb) : Bool := decide (0 < p.cpuBudgetTicks) && decide (p.cpuBudgetTicks ≤ p.cpuBudgetUsed)

/-- The operations of frame number `k` that leave the budget of `p` as it is. -/
def frameOp (s : Scheduler) (k p : Nat) : Op → Bool
  | .timerTick => decide (wrapAdd 64 s.tick 1 / cpuBudgetFrameTicks = k)
  | .setQuotas q .. => decide (q ≠ p)
  | .setCurrent _ => false
  | _ => true

/-- An operation of frame number `k` in a state where some process other than `p` is ready. -/
def BudgetFrame (s : Scheduler) (k p : Nat) (op : Op) : Prop :=
  s.frameOp k p op = true ∧ ∃ x ∈ s.processTable.live, x.pid ≠ p ∧ x.state = .ready

private theorem pid_demote_rested (p : Pcb) : (demote { p with cpuTime := 0 }).pid = p.pid := demote_pid _

/-- The state in which an operation selects a process, if it selects one. -/
def decisionState (s : Scheduler) : Op → Option Scheduler
  | .timerTick => if s.advanceTick.chargeCurrent.2 then some s.advanceTick.chargeCurrent.1 else none
  | .yieldSwitch =>
    s.currentProcess.map fun c => s.update c (fun p => demote { p with cpuTime := 0 }) pid_demote_rested
  | .schedule | .forceScheduleNext | .prepareBlockSwitch _ | .rescheduleIsr => some s
  | _ => none

/-- When the operation selects a process and the budget of `p` is used up by then, it is not the turn of `p`. -/
def SparesSpent (s : Scheduler) (p : Nat) (op : Op) : Prop :=
  ∀ d ∈ s.decisionState op, ∀ x ∈ d.getProcess p, budgetSpent x = true → ¬ d.HasTurn p

instance (k p : Nat) (s : Scheduler) (op : Op) : Decidable (s.BudgetFrame k p op) :=
  inferInstanceAs (Decidable (_ ∧ _))

instance (p : Nat) (s : Scheduler) (op : Op) : Decidable (s.SparesSpent p op) :=
  inferInstanceAs (Decidable (∀ d ∈ s.decisionState op, ∀ x ∈ d.getProcess p, budgetSpent x = true → ¬ d.HasTurn p))

/-! ### Accounts -/

/-- The record of `q`, if it is there afterwards, has kept its account. -/
def KeepsAccount (s s' : Scheduler) (q : Nat) : Prop :=
  ∀ x', s'.getProcess q = some x' → ∃ x, s.getProcess q = some x ∧ account x' = account x

private theorem keepsAccount_refl (s : Scheduler) (q : Nat) : KeepsAccount s s q := fun x hx => ⟨x, hx, rfl⟩

private theorem keepsAccount_update (s : Scheduler) (pid : Nat) {f : Pcb → Pcb} {hf : ∀ p, (f p).pid = p.pid} (q : Nat)
    (h : pid = q → ∀ p, account (f p) = account p) : KeepsAccount s (s.update pid f hf) q := by
  intro x' hx'
  rw [getProcess_update] at hx'
  split at hx'
  · rename_i hq
    obtain ⟨x, hx, rfl⟩ := Option.map_eq_some_iff.1 hx'
    exact ⟨x, hx, h hq.symm x⟩
  · exact ⟨x', hx', rfl⟩

private theorem account_demote (p : Pcb) : account (demote p) = account p := by
  unfold demote; split <;> rfl

private theorem account_preempt (tick : Nat) (p : Pcb) : account (preempt tick p) = account (charge p) := by
  obtain ⟨st, heq⟩ := preempt_eq tick p
  rw [heq]
  rfl

private theorem keepsAccount_switches {s s' : Scheduler} (h : Switches s s') (q : Nat) : KeepsAccount s s' q := by
  intro x' hx'
  obtain ⟨x, st, hx, rfl⟩ := getProcess_switches h hx'
  exact ⟨x, hx, rfl⟩

/-- Only a tick charges a process that is already there, and only `set_quotas` changes its budget. -/
theorem keepsAccount_step {s s' : Scheduler} {op : Op} {r : Ret} {q : Nat} (hstep : s.step op = some (s', r))
    (hq : q < s.processTable.nextPid) (htick : op ≠ .timerTick)
    (hquota : ∀ mem cpu ipc, op ≠ .setQuotas q mem cpu ipc) : KeepsAccount s s' q := by
  intro x' hx'
  by_cases hquiet : accountQuiet op = true
  · rcases keeps_step hstep hx' with ⟨x, hx, hkeeps⟩ | ⟨-, hnew, -⟩
    · exact ⟨x, hx, hkeeps.account hquiet⟩
    · exact absurd hq (by omega)
  · cases op with
    | timerTick => exact absurd rfl htick
    | setQuotas pid mem cpu ipc =>
      rcases record_step hstep q x' hx' with ⟨x, hx, rfl | ⟨rfl, -⟩⟩ | ⟨-, hnew, -⟩
      · exact ⟨x', hx, rfl⟩
      · exact absurd rfl (hquota mem cpu ipc)
      · exact absurd hq (by omega)
    | _ => exact absurd rfl hquiet

/-! ### Who becomes current -/

private theorem currentProcess_switches {s s' : Scheduler} (h : Switches s s') :
    s'.currentProcess = s.currentProcess ∨ ∃ next, s.HasTurn next ∧ s'.currentProcess = some next := by
  cases h with
  | stay i => exact Or.inl rfl
  | enter i old next hpick => exact Or.inr ⟨next, (pickNextPriority_eq_some_iff s next).1 hpick, rfl⟩
  | point i next hpick _ => exact Or.inr ⟨next, (pickNextPriority_eq_some_iff s next).1 hpick, rfl⟩

/-- A process becomes current only when it is its turn. -/
theorem currentProcess_step {s s' : Scheduler} {op : Op} {r : Ret} (hstep : s.step op = some (s', r))
    (hset : ∀ q, op ≠ .setCurrent q) (htick : op ≠ .timerTick) {p : Nat} (hp : s'.currentProcess = some p) :
    s.currentProcess = some p ∨ ∃ d, s.decisionState op = some d ∧ d.HasTurn p ∧ KeepsAccount s d p := by
  have hself : ∀ {t : Scheduler}, Switches s t → t.currentProcess = some p →
      s.currentProcess = some p ∨ ∃ d, some s = some d ∧ d.HasTurn p ∧ KeepsAccount s d p := by
    intro t hsw hp
    rcases currentProcess_switches hsw with hsame | ⟨next, hturn, hcur⟩
    · exact Or.inl (hsame.symm.trans hp)
    · rw [hcur] at hp
      rw [Option.some.inj hp] at hturn
      exact Or.inr ⟨s, rfl, hturn, keepsAccount_refl s p⟩
  by_cases hquiet : op.isQuiet = true
  · exact Or.inl ((quiet_of_isQuiet hquiet hstep).currentProcess.symm.trans hp)
  cases op <;> first | (exact absurd rfl hquiet) | (exact absurd rfl htick) | skip
  case addProcess base =>
    obtain ⟨⟨t, r'⟩, hadd, heq⟩ := Option.map_eq_some_iff.1 hstep
    obtain ⟨rfl, -⟩ := Prod.mk.inj heq
    exact Or.inl ((addProcess_adds hadd).1.symm.trans hp)
  case addRing3Process base =>
    obtain ⟨⟨t, r'⟩, hadd, heq⟩ := Option.map_eq_some_iff.1 hstep
    obtain ⟨rfl, -⟩ := Prod.mk.inj heq
    exact Or.inl ((addRing3Process_adds hadd).1.symm.trans hp)
  all_goals
    simp only [step, Option.some.injEq, Prod.mk.injEq] at hstep
    obtain ⟨rfl, -⟩ := hstep
  case setQuotas => exact Or.inl hp
  case setCurrent pid => exact absurd rfl (hset pid)
  case schedule => exact Or.inr ⟨s, rfl, (pickNextPriority_eq_some_iff s p).1 hp, keepsAccount_refl s p⟩
  case forceScheduleNext => exact hself s.forceScheduleNext_switches hp
  case prepareBlockSwitch pid => exact hself (s.prepareBlockSwitch_switches pid) hp
  case rescheduleIsr =>
    rcases s.rescheduleIsr_cases with ⟨i, heq⟩ | ⟨i, next, hpick, -, heq⟩ | ⟨cpid, next, i, -, hpick, -, heq⟩
    · rw [heq] at hp; exact Or.inl hp
    · rw [heq] at hp
      rw [Option.some.inj hp] at hpick
      exact Or.inr ⟨s, rfl, (pickNextPriority_eq_some_iff s p).1 hpick, keepsAccount_refl s p⟩
    · rw [heq] at hp
      rw [Option.some.inj hp] at hpick
      exact Or.inr ⟨s, rfl, (pickNextPriority_eq_some_iff s p).1 hpick, keepsAccount_refl s p⟩
  case yieldCurrent =>
    unfold yieldCurrent at hp
    cases hc : s.currentProcess with
    | none => rw [hc] at hp; rw [hc] at hp; cases hp
    | some c => rw [hc] at hp; exact Or.inl (hc.symm.trans hp)
  case yieldSwitch =>
    rcases s.yieldSwitch_cases with ⟨-, heq⟩ | ⟨c, hc, hsw⟩
    · rw [heq] at hp; exact Or.inl hp
    · rcases currentProcess_switches hsw with hsame | ⟨next, hturn, hcur⟩
      · exact Or.inl (hsame.symm.trans hp)
      · rw [hcur] at hp
        rw [Option.some.inj hp] at hturn
        refine Or.inr ⟨_, by simp only [decisionState, hc, Option.map_some], hturn, ?_⟩
        exact keepsAccount_update s c p (fun _ q => account_demote { q with cpuTime := 0 })
  case sendMessage fromPid toPid msg =>
    refine Or.inl ?_
    rcases s.sendMessage_cases fromPid toPid msg with ⟨-, heq⟩ | ⟨q, -, -, ⟨-, heq⟩ | ⟨-, heq⟩⟩ <;>
      (rw [heq] at hp; exact hp)
  case blockingReceive pid t =>
    refine Or.inl ?_
    rcases s.blockingReceive_cases pid t with
      ⟨-, heq⟩ | ⟨q, -, ⟨msg, rest, -, heq⟩ | ⟨-, -, heq⟩ | ⟨-, -, heq⟩⟩ <;> (rw [heq] at hp; exact hp)
  case terminateProcess pid =>
    refine Or.inl ?_
    have hcur : (s.terminateProcess pid).1.currentProcess =
        if s.currentProcess = some pid then none else s.currentProcess := rfl
    rw [hcur] at hp
    split at hp
    · cases hp
    · exact hp
  case notifyProcess toPid word =>
    refine Or.inl ?_
    rcases s.notifyProcess_cases toPid word with ⟨-, heq⟩ | ⟨q, -, heq⟩ <;> (rw [heq] at hp; exact hp)

/-! ### A tick -/

private theorem account_refresh (tick : Nat) (p : Pcb) :
    account (refresh tick p) =
      ⟨p.cpuBudgetTicks, if tick % cpuBudgetFrameTicks = 0 then 0 else p.cpuBudgetUsed, p.totalCpuTicks⟩ := by
  obtain ⟨st, dl, wf, heq⟩ := refresh_eq tick p
  rw [heq]
  rfl

/-- The account after a tick: one tick is charged to the current process. -/
private theorem account_chargeCurrent {s : Scheduler} {p : Nat} {x₂ : Pcb}
    (h : s.advanceTick.chargeCurrent.1.getProcess p = some x₂) :
    ∃ x, s.getProcess p = some x ∧
      account x₂ = if s.currentProcess = some p then account (charge (refresh (wrapAdd 64 s.tick 1) x))
        else account (refresh (wrapAdd 64 s.tick 1) x) := by
  obtain ⟨x, hx, rfl⟩ := getProcess_chargeCurrent h
  refine ⟨x, hx, ?_⟩
  unfold tickRecord
  dsimp only
  split
  · split
    · exact account_preempt _ _
    · rfl
  · rfl

/-- A process that is charged a tick and keeps the CPU without a selection has budget left. -/
private theorem not_spent_of_no_preempt {s : Scheduler} {p : Nat} {x₂ : Pcb} (hc : s.currentProcess = some p)
    (hflag : s.advanceTick.chargeCurrent.2 = false) (hx₂ : s.advanceTick.chargeCurrent.1.getProcess p = some x₂) :
    budgetSpent x₂ = false := by
  rcases s.advanceTick.chargeCurrent_cases with ⟨hgone, hch⟩ | ⟨c, y, hc', hy, ⟨hover, hch⟩ | ⟨-, hch⟩⟩
  · rw [hch] at hx₂
    rw [currentProcess_advanceTick, hc, Option.bind_some] at hgone
    rw [hgone] at hx₂; cases hx₂
  · rw [currentProcess_advanceTick, hc] at hc'
    rw [hch, getProcess_update, if_pos (Option.some.inj hc'), Option.some.inj hc', hy, Option.map_some] at hx₂
    rw [← Option.some.inj hx₂]
    unfold quantumOver at hover
    exact (Bool.or_eq_false_iff.1 hover).2
  · rw [hch] at hflag; cases hflag

/-! ### The frame -/

/-- Within frame `k`: before its first tick nothing is charged; after it, the budget counter is the number `n` of charged
ticks, which is at most the budget, and below it when the process is current. -/
private def Spent (k p budget total : Nat) (s : Scheduler) : Prop :=
  p < s.processTable.nextPid ∧ ∀ x, s.getProcess p = some x → x.cpuBudgetTicks = budget ∧
    ((wrapAdd 64 s.tick 1 = cpuBudgetFrameTicks * k ∧ x.totalCpuTicks = total) ∨
     ∃ n, cpuBudgetFrameTicks * k ≤ s.tick ∧ s.tick < cpuBudgetFrameTicks * k + cpuBudgetFrameTicks ∧
       s.tick < 2 ^ 64 ∧ n + cpuBudgetFrameTicks * k ≤ s.tick + 1 ∧ n ≤ budget ∧ x.cpuBudgetUsed = n ∧
       x.totalCpuTicks % 2 ^ 64 = (total + n) % 2 ^ 64 ∧ (s.currentProcess = some p → n < budget))

private theorem budgetSpent_eq_true {x : Pcb} (hpos : 0 < x.cpuBudgetTicks) (h : x.cpuBudgetTicks ≤ x.cpuBudgetUsed) :
    budgetSpent x = true := by
  unfold budgetSpent
  simp [hpos, h]

/-- An operation other than a tick charges nothing, and does not give the CPU to a process whose budget is used up. -/
private theorem spent_step {k p budget total : Nat} (hpos : 0 < budget) {s s' : Scheduler} {op : Op} {r : Ret}
    (h : Spent k p budget total s) (hframe : s.BudgetFrame k p op) (hspares : s.SparesSpent p op)
    (hstep : s.step op = some (s', r)) (htick : op ≠ .timerTick) : Spent k p budget total s' := by
  obtain ⟨hknown, hinv⟩ := h
  refine ⟨Nat.lt_of_lt_of_le hknown (nextPid_step hstep), ?_⟩
  intro x' hx'
  have hquota : ∀ mem cpu ipc, op ≠ .setQuotas p mem cpu ipc := by
    rintro mem cpu ipc rfl
    simpa [frameOp] using hframe.1
  have hset : ∀ q, op ≠ .setCurrent q := by
    rintro q rfl
    simpa [frameOp] using hframe.1
  obtain ⟨x, hx, hacc⟩ := keepsAccount_step hstep hknown htick hquota x' hx'
  have hb : x'.cpuBudgetTicks = x.cpuBudgetTicks := congrArg Account.budget hacc
  have hu : x'.cpuBudgetUsed = x.cpuBudgetUsed := congrArg Account.used hacc
  have ht : x'.totalCpuTicks = x.totalCpuTicks := congrArg Account.total hacc
  obtain ⟨hbudget, hphase⟩ := hinv x hx
  rw [hb, hu, ht, tick_step hstep htick]
  refine ⟨hbudget, ?_⟩
  rcases hphase with hbefore | ⟨n, h₁, h₂, h₃, h₄, h₅, h₆, h₇, hcur⟩
  · exact Or.inl hbefore
  refine Or.inr ⟨n, h₁, h₂, h₃, h₄, h₅, h₆, h₇, fun hp => ?_⟩
  rcases currentProcess_step hstep hset htick hp with hsame | ⟨d, hd, hturn, hkeep⟩
  · exact hcur hsame
  by_contra hge
  cases hdp : d.getProcess p with
  | none =>
    -- only a process in the table has its turn
    obtain ⟨y, hy, -⟩ := pickNextPriority_runnable ((pickNextPriority_eq_some_iff d p).2 hturn)
    rw [hdp] at hy; cases hy
  | some y =>
    obtain ⟨z, hz, hyz⟩ := hkeep y hdp
    rw [hx] at hz
    rw [← Option.some.inj hz] at hyz
    have hyb : y.cpuBudgetTicks = x.cpuBudgetTicks := congrArg Account.budget hyz
    have hyu : y.cpuBudgetUsed = x.cpuBudgetUsed := congrArg Account.used hyz
    exact hspares d hd y hdp (budgetSpent_eq_true (by omega) (by omega)) hturn

/-- The tick number advances within the frame, and the counters are reset by its first tick only. -/
private theorem frame_tick {k t : Nat} (hframe : wrapAdd 64 t 1 / cpuBudgetFrameTicks = k)
    (h : wrapAdd 64 t 1 = cpuBudgetFrameTicks * k ∨
      (cpuBudgetFrameTicks * k ≤ t ∧ t < cpuBudgetFrameTicks * k + cpuBudgetFrameTicks ∧ t < 2 ^ 64)) :
    (wrapAdd 64 t 1 = cpuBudgetFrameTicks * k ∧ wrapAdd 64 t 1 % cpuBudgetFrameTicks = 0) ∨
    (wrapAdd 64 t 1 = t + 1 ∧ cpuBudgetFrameTicks * k ≤ t ∧ wrapAdd 64 t 1 % cpuBudgetFrameTicks ≠ 0) := by
  unfold wrapAdd cpuBudgetFrameTicks at *
  omega

/-- A ready process is still a candidate after the accounting of a tick. -/
private theorem ready_chargeCurrent {s : Scheduler} {q : Nat} {y : Pcb} (hy : s.getProcess q = some y)
    (hready : y.state = .ready) :
    ∃ z, s.advanceTick.chargeCurrent.1.getProcess q = some z ∧ z.isRunnable = true := by
  have hstate : (refresh (wrapAdd 64 s.tick 1) y).state = .ready := by
    have hcheck : ProcessTable.checkDeadline (wrapAdd 64 s.tick 1) y = y := by
      unfold ProcessTable.checkDeadline
      rw [if_neg]
      rintro ⟨hb, -⟩
      rw [hready] at hb; cases hb
    unfold refresh
    rw [hcheck]
    simp only
    split <;> split <;> exact hready
  have hadv : s.advanceTick.getProcess q = some (refresh (wrapAdd 64 s.tick 1) y) := by
    rw [getProcess_advanceTick, hy]; rfl
  have hupdate : ∀ {c : Nat} {f : Pcb → Pcb} {hf : ∀ p, (f p).pid = p.pid},
      (∀ z, z.state = .ready → (f z).state = .ready) →
      ∃ z, (s.advanceTick.update c f hf).getProcess q = some z ∧ z.isRunnable = true := by
    intro c f hf hkeep
    rw [getProcess_update, hadv]
    split
    · exact ⟨_, rfl, by simp [Pcb.isRunnable, hkeep _ hstate]⟩
    · exact ⟨_, rfl, by simp [Pcb.isRunnable, hstate]⟩
  rcases s.advanceTick.chargeCurrent_cases with ⟨-, hch⟩ | ⟨c, z, -, -, ⟨-, hch⟩ | ⟨-, hch⟩⟩
  · rw [hch]; exact ⟨_, hadv, by simp [Pcb.isRunnable, hstate]⟩
  · rw [hch]; exact hupdate (fun _ hz => hz)
  · rw [hch]
    refine hupdate (fun z hz => ?_)
    have hdemote : ∀ w : Pcb, w.state = .ready → (demote w).state = .ready := by
      intro w hw
      unfold demote
      rw [if_neg (by rw [hw]; decide)]
      exact hw
    unfold preempt expire
    simp only
    split <;> exact hdemote _ hz

/-- The account of a tick in the frame: `n` ticks are charged so far, one more if the process is current. -/
private theorem spent_chargeCurrent {k p budget total : Nat} (hpos : 0 < budget) {s : Scheduler}
    (h : Spent k p budget total s) (hframe : wrapAdd 64 s.tick 1 / cpuBudgetFrameTicks = k) {x₂ : Pcb}
    (hx₂ : s.advanceTick.chargeCurrent.1.getProcess p = some x₂) :
    x₂.cpuBudgetTicks = budget ∧ ∃ n, n + cpuBudgetFrameTicks * k ≤ wrapAdd 64 s.tick 1 + 1 ∧ n ≤ budget ∧
      x₂.cpuBudgetUsed = n ∧ x₂.totalCpuTicks % 2 ^ 64 = (total + n) % 2 ^ 64 := by
  obtain ⟨x, hx, hacc⟩ := account_chargeCurrent hx₂
  obtain ⟨hbudget, hphase⟩ := h.2 x hx
  -- the counters after the reset, before the charge
  obtain ⟨m, hm₁, hm₂, hm₃, hm₄, hcur⟩ : ∃ m, m + cpuBudgetFrameTicks * k ≤ wrapAdd 64 s.tick 1 ∧ m ≤ budget ∧
      (if wrapAdd 64 s.tick 1 % cpuBudgetFrameTicks = 0 then 0 else x.cpuBudgetUsed) = m ∧
      x.totalCpuTicks % 2 ^ 64 = (total + m) % 2 ^ 64 ∧ (s.currentProcess = some p → m < budget) := by
    rcases hphase with ⟨hfirst, htotal⟩ | ⟨n, h₁, h₂, h₃, h₄, h₅, h₆, h₇, hcur⟩
    · rcases frame_tick hframe (Or.inl hfirst) with ⟨heq, hzero⟩ | ⟨heq, hle, -⟩
      · exact ⟨0, by omega, by omega, if_pos hzero, by rw [htotal, Nat.add_zero], fun _ => hpos⟩
      · omega
    · rcases frame_tick hframe (Or.inr ⟨h₁, h₂, h₃⟩) with ⟨heq, hzero⟩ | ⟨heq, hle, hnz⟩
      · unfold wrapAdd cpuBudgetFrameTicks at *
        omega
      · exact ⟨n, by omega, h₅, by rw [if_neg hnz]; exact h₆, h₇, hcur⟩
  have hsmall : m < 2 ^ 32 - 1 := by
    unfold wrapAdd cpuBudgetFrameTicks at *
    omega
  by_cases hc : s.currentProcess = some p
  · rw [if_pos hc] at hacc
    have hrefresh := account_refresh (wrapAdd 64 s.tick 1) x
    generalize refresh (wrapAdd 64 s.tick 1) x = y at hacc hrefresh
    have hyb : y.cpuBudgetTicks = x.cpuBudgetTicks := congrArg Account.budget hrefresh
    have hyu : y.cpuBudgetUsed = _ := congrArg Account.used hrefresh
    have hyt : y.totalCpuTicks = x.totalCpuTicks := congrArg Account.total hrefresh
    have hb : x₂.cpuBudgetTicks = y.cpuBudgetTicks := congrArg Account.budget hacc
    have hu : x₂.cpuBudgetUsed = if 0 < y.cpuBudgetTicks then wrapAdd 32 y.cpuBudgetUsed 1 else y.cpuBudgetUsed :=
      congrArg Account.used hacc
    have ht : x₂.totalCpuTicks = wrapAdd 64 y.totalCpuTicks 1 := congrArg Account.total hacc
    have hlt := hcur hc
    refine ⟨by omega, m + 1, by omega, by omega, ?_, ?_⟩
    · simp only at hyu
      rw [hu, hyu, hm₃, if_pos (by omega)]
      unfold wrapAdd
      omega
    · rw [ht, hyt]
      unfold wrapAdd
      omega
  · rw [if_neg hc, account_refresh] at hacc
    have hb : x₂.cpuBudgetTicks = x.cpuBudgetTicks := congrArg Account.budget hacc
    have hu : x₂.cpuBudgetUsed = _ := congrArg Account.used hacc
    have ht : x₂.totalCpuTicks = x.totalCpuTicks := congrArg Account.total hacc
    refine ⟨by omega, m, by omega, hm₂, ?_, by rw [ht]; exact hm₄⟩
    simp only at hu
    rw [hu]; exact hm₃

private theorem spent_tick {k p budget total : Nat} (hpos : 0 < budget) {s : Scheduler}
    (h : Spent k p budget total s) (hframe : s.BudgetFrame k p .timerTick) (hspares : s.SparesSpent p .timerTick) :
    Spent k p budget total s.timerTick.1 := by
  have hk : wrapAdd 64 s.tick 1 / cpuBudgetFrameTicks = k := of_decide_eq_true hframe.1
  have hkeep : KeepsAccount s.advanceTick.chargeCurrent.1 s.timerTick.1 p := by
    rcases s.timerTick_cases with ⟨-, heq⟩ | ⟨hflag, -⟩
    · rw [heq]; exact keepsAccount_refl _ p
    · exact keepsAccount_switches (timerTick_switches hflag) p
  have htick := s.tick_timerTick
  have hstep : s.step .timerTick = some (s.timerTick.1, .switch s.timerTick.2) := rfl
  refine ⟨Nat.lt_of_lt_of_le h.1 (nextPid_step hstep), ?_⟩
  intro x' hx'
  obtain ⟨x₂, hx₂, hacc⟩ := hkeep x' hx'
  obtain ⟨hbudget, n, h₁, h₂, h₃, h₄⟩ := spent_chargeCurrent hpos h hk hx₂
  have hb : x'.cpuBudgetTicks = x₂.cpuBudgetTicks := congrArg Account.budget hacc
  have hu : x'.cpuBudgetUsed = x₂.cpuBudgetUsed := congrArg Account.used hacc
  have ht : x'.totalCpuTicks = x₂.totalCpuTicks := congrArg Account.total hacc
  rw [hb, hu, ht, htick]
  have hrange : cpuBudgetFrameTicks * k ≤ wrapAdd 64 s.tick 1 ∧
      wrapAdd 64 s.tick 1 < cpuBudgetFrameTicks * k + cpuBudgetFrameTicks ∧ wrapAdd 64 s.tick 1 < 2 ^ 64 := by
    unfold wrapAdd cpuBudgetFrameTicks at *
    omega
  refine ⟨hbudget, Or.inr ⟨n, hrange.1, hrange.2.1, hrange.2.2, h₁, h₂, h₃, h₄, fun hp => ?_⟩⟩
  by_contra hge
  have hspent : budgetSpent x₂ = true := budgetSpent_eq_true (by omega) (by omega)
  rcases s.timerTick_cases with ⟨hflag, heq⟩ | ⟨hflag, ⟨hnone, -⟩ | ⟨i, old, next, hpick, heq⟩⟩
  · rw [heq] at hp
    have hc : s.currentProcess = some p := by
      rcases s.advanceTick.chargeCurrent_cases with ⟨-, hch⟩ | ⟨c, z, -, -, ⟨-, hch⟩ | ⟨-, hch⟩⟩ <;>
        (rw [hch] at hp; exact hp)
    rw [not_spent_of_no_preempt hc hflag hx₂] at hspent
    cases hspent
  · -- the process that is ready before the tick is a candidate
    obtain ⟨y, hy, -, hready⟩ := hframe.2
    obtain ⟨z, hz, hrun⟩ := ready_chargeCurrent (ProcessTable.mem_live_iff.1 hy) hready
    obtain ⟨next, hpick⟩ := pickNextPriority_isSome hz hrun
    rw [hnone] at hpick; cases hpick
  · rw [heq, currentProcess_enter] at hp
    rw [Option.some.inj hp] at hpick
    exact hspares _ (by simp [decisionState, hflag]) x₂ hx₂ hspent ((pickNextPriority_eq_some_iff _ p).1 hpick)

/-- When no selection of the frame falls on a process whose budget is used up, the ticks of the frame charged to a
process are within its budget. -/
theorem charged_le_budget {k p budget : Nat} {es : List (Op × Ret)} {s s' : Scheduler} {x x' : Pcb}
    (hstart : wrapAdd 64 s.tick 1 = cpuBudgetFrameTicks * k) (hx : s.getProcess p = some x)
    (hbudget : x.cpuBudgetTicks = budget) (hpos : 0 < budget)
    (hrun : Run step (fun t op => t.BudgetFrame k p op ∧ t.SparesSpent p op) s es s')
    (hx' : s'.getProcess p = some x') : chargedSince x x' ≤ budget := by
  have hinit : Spent k p budget x.totalCpuTicks s := by
    refine ⟨ProcessTable.lt_nextPid_of_getProcess hx, ?_⟩
    intro y hy
    rw [hx] at hy
    rw [← Option.some.inj hy]
    exact ⟨hbudget, Or.inl ⟨hstart, rfl⟩⟩
  have hinv : Spent k p budget x.totalCpuTicks s' := by
    refine hrun.invariant (P := Spent k p budget x.totalCpuTicks) ?_ hinit
    intro t u op r ht ⟨hframe, hspares⟩ hstep
    by_cases htick : op = .timerTick
    · subst htick
      simp only [step, Option.some.injEq, Prod.mk.injEq] at hstep
      rw [← hstep.1]
      exact spent_tick hpos ht hframe hspares
    · exact spent_step hpos ht hframe hspares hstep htick
  unfold chargedSince
  obtain ⟨-, ⟨-, htotal⟩ | ⟨n, -, -, -, -, hle, -, htotal, -⟩⟩ := hinv.2 x' hx'
  · rw [htotal]; omega
  · omega

/-- With the better priority for process 2, process 1 makes room for it when its budget of 2 ticks is used up. -/
theorem charged_le_budget_two :
    ∃ es s s' x x', s.getProcess 1 = some x ∧ x.cpuBudgetTicks = 2 ∧
      Run step (fun t op => t.BudgetFrame 1 1 op ∧ t.SparesSpent 1 op) s es s' ∧
      s'.getProcess 1 = some x' ∧ chargedSince x x' = 2 ∧ chargedSince x x' ≤ 2 := by
  have h : ((exec step (fun _ _ => True) { new 0 with tick := 999 }
      [.addProcess 0, .addProcess 0, .setPriority 2 10, .setQuotas 1 0 2 0, .setCurrent 1]).any fun o₀ =>
      (exec step (fun t op => t.BudgetFrame 1 1 op ∧ t.SparesSpent 1 op) o₀.1
        (List.replicate 2 .timerTick)).any fun o =>
        decide (wrapAdd 64 o₀.1.tick 1 = cpuBudgetFrameTicks * 1) &&
        (o₀.1.getProcess 1).any fun x => decide (x.cpuBudgetTicks = 2) &&
          (o.1.getProcess 1).any fun x' => decide (chargedSince x x' = 2)) = true := by decide
  obtain ⟨⟨s, es₀⟩, -, h⟩ := (Option.any_eq_true _ _).1 h
  obtain ⟨⟨s', es⟩, hrun, h⟩ := (Option.any_eq_true _ _).1 h
  obtain ⟨htick, h⟩ := Bool.and_eq_true_iff.1 h
  obtain ⟨x, hx, h⟩ := (Option.any_eq_true _ _).1 h
  obtain ⟨hbudget, h⟩ := Bool.and_eq_true_iff.1 h
  obtain ⟨x', hx', h⟩ := (Option.any_eq_true _ _).1 h
  exact ⟨es, s, s', x, x', hx, of_decide_eq_true hbudget, run_of_exec hrun, hx', of_decide_eq_true h,
    charged_le_budget (of_decide_eq_true htick) hx (of_decide_eq_true hbudget) (by decide) (run_of_exec hrun) hx'⟩

/-- Process 1 has priority 10 and a budget of 5 ticks, process 2 the default priority and is ready all the time: in the
frame that starts at tick 1000, the first six ticks are all charged to process 1. -/
theorem charged_exceeds_budget :
    ∃ es₀ es s s' x x', Run step (fun _ _ => True) (new 0) es₀ s ∧ wrapAdd 64 s.tick 1 = cpuBudgetFrameTicks * 1 ∧
      s.getProcess 1 = some x ∧ x.cpuBudgetTicks = 5 ∧ Run step (fun t op => t.BudgetFrame 1 1 op) s es s' ∧
      s'.getProcess 1 = some x' ∧ ¬ chargedSince x x' ≤ 5 := by
  have h : ((exec step (fun _ _ => True) (new 0)
      (List.replicate 500 .timerTick ++ [.addProcess 0, .addProcess 0] ++ List.replicate 499 .timerTick ++
        [.setPriority 1 10, .setQuotas 1 0 5 0, .setCurrent 1])).any fun o₀ =>
      (exec step (fun t op => t.BudgetFrame 1 1 op) o₀.1 (List.replicate 6 .timerTick)).any fun o =>
        decide (wrapAdd 64 o₀.1.tick 1 = cpuBudgetFrameTicks * 1) &&
        (o₀.1.getProcess 1).any fun x => decide (x.cpuBudgetTicks = 5) &&
          (o.1.getProcess 1).any fun x' => decide (¬ chargedSince x x' ≤ 5)) = true := by decide +kernel
  obtain ⟨⟨s, es₀⟩, hreach, h⟩ := (Option.any_eq_true _ _).1 h
  obtain ⟨⟨s', es⟩, hrun, h⟩ := (Option.any_eq_true _ _).1 h
  obtain ⟨htick, h⟩ := Bool.and_eq_true_iff.1 h
  obtain ⟨x, hx, h⟩ := (Option.any_eq_true _ _).1 h
  obtain ⟨hbudget, h⟩ := Bool.and_eq_true_iff.1 h
  obtain ⟨x', hx', h⟩ := (Option.any_eq_true _ _).1 h
  exact ⟨es₀, es, s, s', x, x', run_of_exec hreach, of_decide_eq_true htick, hx, of_decide_eq_true hbudget,
    run_of_exec hrun, hx', of_decide_eq_true h⟩

end Scheduler

end Rost
