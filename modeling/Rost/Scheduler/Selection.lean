import Rost.Scheduler.Step
import Mathlib.Data.List.Perm.Subperm

/-!
# Whose turn it is

The selection of `pick_next_priority` in declarative terms.  `HasTurn s p` says that `p` is a real-time candidate with
the earliest deadline (the first such in slot order), or, when no real-time process is ready, that `p` stands at the
round-robin index among the candidates of least inherited priority, where a process inherits the priorities of the
blocked processes that wait for it.  The main fact is `pickNextPriority_eq_some_iff`: exactly that process is selected.
-/

namespace Rost

namespace Scheduler

/-! ### The rule -/

/-- The ready and running processes, in slot order. -/
def candidates (t : ProcessTable) : List Pcb := t.live.filter Pcb.isRunnable

/-- The candidates with a real-time period. -/
def realtime (t : ProcessTable) : List Pcb := t.live.filter fun p => p.isRunnable && decide (0 < p.rtPeriod)

/-- The priorities of the blocked processes that wait for `pid`. -/
def donors (t : ProcessTable) (pid : Nat) : List Nat :=
  (t.live.filter fun q => decide (q.state = .blocked ∧ q.waitingFor = some pid)).map Pcb.priority

/-- The best of a process's own priority and those of the processes that wait for it. -/
def inheritedPrio (t : ProcessTable) (p : Pcb) : Nat := (donors t p.pid).foldl min p.priority

/-- The candidates of least inherited priority. -/
def leastPrio (t : ProcessTable) : List Pcb :=
  (candidates t).filter fun p => decide (∀ q ∈ candidates t, inheritedPrio t p ≤ inheritedPrio t q)

/-- `p` is the process whose turn it is. -/
def HasTurn (s : Scheduler) (pid : Nat) : Prop :=
  (∃ before p after, realtime s.processTable = before ++ p :: after ∧ p.pid = pid ∧
    (∀ q ∈ before, p.rtDeadline < q.rtDeadline) ∧ ∀ q ∈ after, p.rtDeadline ≤ q.rtDeadline) ∨
  (realtime s.processTable = [] ∧ ((leastPrio s.processTable).map Pcb.pid)[
    if s.queueIndex < (leastPrio s.processTable).length then s.queueIndex else 0]? = some pid)

/-! ### The earliest deadline -/

private theorem minByDeadline_eq_none {l : List (Nat × Nat)} : minByDeadline l = none ↔ l = [] := by
  cases l with
  | nil => simp [minByDeadline]
  | cons a l =>
    unfold minByDeadline
    cases minByDeadline l with
    | none => simp
    | some b => by_cases h : a.2 ≤ b.2 <;> simp [h]

private theorem minByDeadline_eq_some_iff {l : List (Nat × Nat)} {a : Nat × Nat} :
    minByDeadline l = some a ↔
      ∃ before after, l = before ++ a :: after ∧ (∀ b ∈ before, a.2 < b.2) ∧ ∀ b ∈ after, a.2 ≤ b.2 := by
  induction l generalizing a with
  | nil => simp [minByDeadline]
  | cons c l ih =>
    constructor
    · intro h
      unfold minByDeadline at h
      cases hl : minByDeadline l with
      | none =>
        rw [hl] at h
        rw [minByDeadline_eq_none.1 hl, Option.some.inj h]
        exact ⟨[], [], rfl, by simp, by simp⟩
      | some b =>
        rw [hl] at h
        obtain ⟨before, after, rfl, hbefore, hafter⟩ := ih.1 hl
        by_cases hcb : c.2 ≤ b.2
        · simp only [hcb, if_true, Option.some.injEq] at h
          subst h
          refine ⟨[], before ++ b :: after, rfl, by simp, ?_⟩
          intro d hd
          rcases List.mem_append.1 hd with hd | hd
          · have := hbefore d hd; omega
          · rcases List.mem_cons.1 hd with rfl | hd
            · exact hcb
            · have := hafter d hd; omega
        · simp only [hcb, if_false, Option.some.injEq] at h
          subst h
          refine ⟨c :: before, after, rfl, ?_, hafter⟩
          intro d hd
          rcases List.mem_cons.1 hd with rfl | hd
          · omega
          · exact hbefore d hd
    · rintro ⟨before, after, hsplit, hbefore, hafter⟩
      unfold minByDeadline
      cases before with
      | nil =>
        obtain ⟨rfl, rfl⟩ := List.cons.inj hsplit
        cases hl : minByDeadline l with
        | none => rfl
        | some b =>
          have hb := hafter b (by
            obtain ⟨bs, as, rfl, -⟩ := ih.1 hl
            simp)
          simp [hb]
      | cons d before =>
        rw [List.cons_append] at hsplit
        obtain ⟨rfl, rfl⟩ := List.cons.inj hsplit
        have hl : minByDeadline (before ++ a :: after) = some a :=
          ih.2 ⟨before, after, rfl, fun b hb => hbefore b (by simp [hb]), hafter⟩
        have hlt := hbefore c (by simp)
        rw [hl]
        simp [show ¬ c.2 ≤ a.2 by omega]

private theorem getReadyRealtime_eq (t : ProcessTable) :
    t.getReadyRealtime = (realtime t).map fun p => (p.pid, p.rtDeadline) := rfl

private theorem pick_realtime_iff {t : ProcessTable} {pid : Nat} :
    (minByDeadline t.getReadyRealtime).map Prod.fst = some pid ↔
      ∃ before p after, realtime t = before ++ p :: after ∧ p.pid = pid ∧
        (∀ q ∈ before, p.rtDeadline < q.rtDeadline) ∧ ∀ q ∈ after, p.rtDeadline ≤ q.rtDeadline := by
  rw [Option.map_eq_some_iff, getReadyRealtime_eq]
  constructor
  · rintro ⟨a, ha, rfl⟩
    obtain ⟨before, after, hsplit, hbefore, hafter⟩ := minByDeadline_eq_some_iff.1 ha
    obtain ⟨bs, rest, hrt, hbs, hrest⟩ := List.map_eq_append_iff.1 hsplit
    obtain ⟨p, as, rfl, rfl, has⟩ := List.map_eq_cons_iff.1 hrest
    refine ⟨bs, p, as, hrt, rfl, ?_, ?_⟩
    · intro q hq
      exact hbefore (q.pid, q.rtDeadline) (by rw [← hbs]; exact List.mem_map_of_mem hq)
    · intro q hq
      exact hafter (q.pid, q.rtDeadline) (by rw [← has]; exact List.mem_map_of_mem hq)
  · rintro ⟨before, p, after, hrt, rfl, hbefore, hafter⟩
    refine ⟨(p.pid, p.rtDeadline), minByDeadline_eq_some_iff.2 ?_, rfl⟩
    refine ⟨before.map fun p => (p.pid, p.rtDeadline), after.map fun p => (p.pid, p.rtDeadline), ?_, ?_, ?_⟩
    · rw [hrt, List.map_append, List.map_cons]
    · intro b hb
      obtain ⟨q, hq, rfl⟩ := List.mem_map.1 hb
      exact hbefore q hq
    · intro b hb
      obtain ⟨q, hq, rfl⟩ := List.mem_map.1 hb
      exact hafter q hq

/-! ### Inherited priorities -/

/-- The donation array holds at most one entry for each candidate. -/
private structure DonationsOk (cs ds : List (Nat × Nat)) : Prop where
  nodup : (ds.map Prod.fst).Nodup
  subset : ∀ d ∈ ds, d.1 ∈ cs.map Prod.fst

private theorem donate_ok {cs ds : List (Nat × Nat)} {target prio : Nat} (h : DonationsOk cs ds)
    (hc : target ∈ cs.map Prod.fst) : DonationsOk cs (donate ds target prio) := by
  have hkey : Prod.fst ∘ (fun d : Nat × Nat => if d.1 = target then (d.1, min d.2 prio) else d) = Prod.fst := by
    funext d
    simp only [Function.comp]
    split <;> rfl
  unfold donate
  split
  · constructor
    · rw [List.map_map, hkey]; exact h.nodup
    · intro d hd
      obtain ⟨d₀, hd₀, rfl⟩ := List.mem_map.1 hd
      have := congrFun hkey d₀
      simp only [Function.comp] at this
      rw [this]
      exact h.subset d₀ hd₀
  · rename_i hnew
    split
    · constructor
      · rw [List.map_append, List.nodup_append]
        refine ⟨h.nodup, by simp, ?_⟩
        intro a ha b hb
        obtain ⟨d, hd, rfl⟩ := List.mem_map.1 ha
        simp only [List.map_cons, List.map_nil, List.mem_singleton] at hb
        rintro rfl
        exact hnew (List.any_eq_true.2 ⟨d, hd, by simp [hb]⟩)
      · intro d hd
        rcases List.mem_append.1 hd with hd | hd
        · exact h.subset d hd
        · rw [List.mem_singleton.1 hd]; exact hc
    · exact h

/-- There is room for a new target in the array of 32 donations. -/
private theorem length_donations_lt {cs ds : List (Nat × Nat)} {target : Nat} (h : DonationsOk cs ds)
    (hlen : cs.length ≤ 32) (hc : target ∈ cs.map Prod.fst) (hnew : target ∉ ds.map Prod.fst) : ds.length < 32 := by
  have hnodup : (target :: ds.map Prod.fst).Nodup := List.nodup_cons.2 ⟨hnew, h.nodup⟩
  have hsub : target :: ds.map Prod.fst ⊆ cs.map Prod.fst := by
    intro a ha
    rcases List.mem_cons.1 ha with rfl | ha
    · exact hc
    · obtain ⟨d, hd, rfl⟩ := List.mem_map.1 ha
      exact h.subset d hd
  have := (hnodup.subperm hsub).length_le
  simp only [List.length_cons, List.length_map] at this
  omega

private theorem effectivePrio_donate {cs ds : List (Nat × Nat)} {target prio pid natural : Nat}
    (h : DonationsOk cs ds) (hlen : cs.length ≤ 32) (hc : target ∈ cs.map Prod.fst) :
    effectivePrio (donate ds target prio) pid natural =
      if target = pid then min (effectivePrio ds pid natural) prio else effectivePrio ds pid natural := by
  unfold donate
  split
  · rename_i hany
    unfold effectivePrio
    have hfun : ((fun d : Nat × Nat => d.1 == pid) ∘
        fun d : Nat × Nat => if d.1 = target then (d.1, min d.2 prio) else d) = fun d => d.1 == pid := by
      funext d
      simp only [Function.comp]
      split <;> rfl
    rw [List.find?_map, hfun]
    cases hf : ds.find? (fun d => d.1 == pid) with
    | none =>
      rw [Option.map_none]
      by_cases htp : target = pid
      · -- the target has an entry, so the search cannot fail
        obtain ⟨d, hd, hdt⟩ := List.any_eq_true.1 hany
        have := List.find?_eq_none.1 hf d hd
        rw [htp] at hdt
        exact absurd hdt this
      · rw [if_neg htp]
    | some d =>
      have hd : d.1 = pid := by simpa using List.find?_some hf
      rw [Option.map_some, hd]
      by_cases htp : target = pid
      · subst htp
        simp only [if_true]
        omega
      · have hne : pid ≠ target := fun e => htp e.symm
        simp only [hne, htp, if_false]
  · rename_i hany
    have hnew : target ∉ ds.map Prod.fst := by
      intro hm
      obtain ⟨d, hd, rfl⟩ := List.mem_map.1 hm
      exact hany (List.any_eq_true.2 ⟨d, hd, by simp⟩)
    rw [if_pos (length_donations_lt h hlen hc hnew)]
    unfold effectivePrio
    rw [List.find?_append]
    by_cases htp : target = pid
    · subst htp
      have hnone : ds.find? (fun d => d.1 == target) = none := by
        rw [List.find?_eq_none]
        intro d hd he
        exact hnew (List.mem_map.2 ⟨d, hd, by simpa using he⟩)
      rw [hnone]
      simp
    · cases hf : ds.find? (fun d => d.1 == pid) <;> simp [htp]

private theorem effectivePrio_foldl {cs : List (Nat × Nat)} (hlen : cs.length ≤ 32) (ws ds : List (Nat × Nat))
    (h : DonationsOk cs ds) {pid : Nat} (hpid : pid ∈ cs.map Prod.fst) (natural : Nat) :
    effectivePrio (ws.foldl (fun ds w => if cs.any (fun c => c.1 == w.2) then donate ds w.2 w.1 else ds) ds) pid
        natural =
      ((ws.filter fun w => decide (w.2 = pid)).map Prod.fst).foldl min (effectivePrio ds pid natural) := by
  induction ws generalizing ds with
  | nil => rfl
  | cons w ws ih =>
    rw [List.foldl_cons]
    by_cases hc : w.2 ∈ cs.map Prod.fst
    · have hany : cs.any (fun c => c.1 == w.2) = true := by
        obtain ⟨c, hcs, hcw⟩ := List.mem_map.1 hc
        exact List.any_eq_true.2 ⟨c, hcs, by simp [hcw]⟩
      rw [if_pos hany, ih _ (donate_ok h hc), effectivePrio_donate h hlen hc]
      by_cases hw : w.2 = pid
      · simp [hw]
      · simp [hw]
    · have hany : ¬ cs.any (fun c => c.1 == w.2) = true := by
        intro hany
        obtain ⟨c, hcs, hcw⟩ := List.any_eq_true.1 hany
        exact hc (List.mem_map.2 ⟨c, hcs, by simpa using hcw⟩)
      have hw : w.2 ≠ pid := fun e => hc (e ▸ hpid)
      rw [if_neg hany, ih ds h]
      simp [hw]

private theorem getReadyWithPriority_eq (t : ProcessTable) :
    t.getReadyWithPriority = (candidates t).map fun p => (p.pid, p.priority) := rfl

private theorem waiters_filter_eq (t : ProcessTable) (pid : Nat) :
    (t.getBlockedWaiters.filter fun w => decide (w.2 = pid)).map Prod.fst = donors t pid := by
  unfold ProcessTable.getBlockedWaiters donors
  induction t.live with
  | nil => rfl
  | cons q l ih =>
    by_cases hb : q.state = .blocked
    · cases hw : q.waitingFor with
      | none => simpa [hb, hw] using ih
      | some target => by_cases ht : target = pid <;> simpa [hb, hw, ht] using ih
    · simpa [hb] using ih

private theorem length_candidates_le (t : ProcessTable) : (candidates t).length ≤ 32 := by
  have h₁ : (candidates t).length ≤ t.live.length := List.length_filter_le _ _
  have h₂ : t.live.length ≤ t.processes.slots.length := List.reduceOption_length_le t.processes.slots
  have h₃ := t.processes.length_slots
  unfold maxProcesses at h₃
  omega

/-- The donation array computes the inherited priority of every candidate. -/
theorem effectivePrio_eq {t : ProcessTable} {p : Pcb} (hp : p ∈ candidates t) :
    effectivePrio (donationsOf t.getReadyWithPriority t.getBlockedWaiters) p.pid p.priority = inheritedPrio t p := by
  have hlen : t.getReadyWithPriority.length ≤ 32 := by
    rw [getReadyWithPriority_eq, List.length_map]; exact length_candidates_le t
  have hpid : p.pid ∈ t.getReadyWithPriority.map Prod.fst := by
    rw [getReadyWithPriority_eq, List.map_map]
    exact List.mem_map.2 ⟨p, hp, rfl⟩
  have hnil : DonationsOk t.getReadyWithPriority [] := ⟨List.nodup_nil, fun d hd => by cases hd⟩
  unfold donationsOf inheritedPrio
  rw [effectivePrio_foldl hlen t.getBlockedWaiters [] hnil hpid, waiters_filter_eq]
  rfl

private theorem atMinPrio_eq (t : ProcessTable) : atMinPrio t = (leastPrio t).map Pcb.pid := by
  have hmap : (t.getReadyWithPriority.map fun c =>
      effectivePrio (donationsOf t.getReadyWithPriority t.getBlockedWaiters) c.1 c.2) =
      (candidates t).map (inheritedPrio t) := by
    conv => lhs; rw [getReadyWithPriority_eq, List.map_map]
    apply List.map_congr_left
    intro p hp
    exact effectivePrio_eq hp
  unfold atMinPrio leastPrio
  simp only
  rw [hmap]
  cases hmin : ((candidates t).map (inheritedPrio t)).min? with
  | none =>
    have hnil : candidates t = [] := by simpa using hmin
    rw [hnil]; rfl
  | some m =>
    obtain ⟨hmem, hle⟩ := List.min?_eq_some_iff.1 hmin
    obtain ⟨p₀, hp₀, hm⟩ := List.mem_map.1 hmem
    show (t.getReadyWithPriority.filter _).map Prod.fst = _
    conv => lhs; rw [getReadyWithPriority_eq, List.filter_map, List.map_map]
    show ((candidates t).filter _).map Pcb.pid = _
    congr 1
    apply List.filter_congr
    intro p hp
    have heff := effectivePrio_eq hp
    rw [getReadyWithPriority_eq] at heff
    simp only [Function.comp, decide_eq_decide]
    rw [heff]
    constructor
    · intro he q hq
      rw [he]
      exact hle _ (List.mem_map_of_mem hq)
    · intro hall
      have h₁ := hall p₀ hp₀
      have h₂ := hle _ (List.mem_map_of_mem hp)
      omega

/-! ### The selected process -/

private theorem realtime_subset {t : ProcessTable} {p : Pcb} (h : p ∈ realtime t) : p ∈ candidates t := by
  obtain ⟨hlive, hsel⟩ := List.mem_filter.1 h
  exact List.mem_filter.2 ⟨hlive, (Bool.and_eq_true_iff.1 hsel).1⟩

/-- The process whose turn it is is selected. -/
theorem pickNextPriority_eq_some_iff (s : Scheduler) (pid : Nat) :
    s.pickNextPriority.2 = some pid ↔ s.HasTurn pid := by
  unfold pickNextPriority HasTurn
  by_cases hc : candidates s.processTable = []
  · have hrt : realtime s.processTable = [] := by
      rw [List.eq_nil_iff_forall_not_mem]
      intro p hp
      have := realtime_subset hp
      rw [hc] at this; cases this
    have hleast : leastPrio s.processTable = [] := by unfold leastPrio; rw [hc]; rfl
    simp [getReadyWithPriority_eq, hc, hrt, hleast]
  · rw [if_neg (by simp [getReadyWithPriority_eq, hc])]
    by_cases hrt : realtime s.processTable = []
    · rw [if_neg (by simp [getReadyRealtime_eq, hrt]), atMinPrio_eq]
      simp only [hrt, List.nil_eq_append_iff, reduceCtorEq, and_false, false_and, exists_false, false_or, true_and,
        List.length_map]
      by_cases hl : leastPrio s.processTable = []
      · simp [hl]
      · rw [if_neg (by simp [hl])]
        have hidx : (if (leastPrio s.processTable).length ≤ s.queueIndex then 0 else s.queueIndex) =
            if s.queueIndex < (leastPrio s.processTable).length then s.queueIndex else 0 := by
          split <;> split <;> omega
        rw [hidx]
    · rw [if_pos (by simp [getReadyRealtime_eq, hrt])]
      simp only [hrt, false_and, or_false]
      exact pick_realtime_iff

instance (s : Scheduler) (pid : Nat) : Decidable (s.HasTurn pid) :=
  decidable_of_iff _ (pickNextPriority_eq_some_iff s pid)

theorem leastPrio_ne_nil {t : ProcessTable} (h : candidates t ≠ []) : leastPrio t ≠ [] := by
  cases hmin : ((candidates t).map (inheritedPrio t)).min? with
  | none => exact absurd (by simpa using hmin) h
  | some m =>
    obtain ⟨hmem, hle⟩ := List.min?_eq_some_iff.1 hmin
    obtain ⟨p, hp, rfl⟩ := List.mem_map.1 hmem
    apply List.ne_nil_of_mem (a := p)
    refine List.mem_filter.2 ⟨hp, decide_eq_true ?_⟩
    intro q hq
    exact hle _ (List.mem_map_of_mem hq)

/-- Somebody is selected when somebody is ready or running. -/
theorem pickNextPriority_isSome {s : Scheduler} {q : Nat} {p : Pcb} (hp : s.getProcess q = some p)
    (hrun : p.isRunnable = true) : ∃ next, s.pickNextPriority.2 = some next := by
  have hc : candidates s.processTable ≠ [] :=
    List.ne_nil_of_mem (List.mem_filter.2 ⟨ProcessTable.mem_live_of_getProcess hp, hrun⟩)
  unfold pickNextPriority
  rw [if_neg (by simp [getReadyWithPriority_eq, hc])]
  split
  · rename_i hrt
    cases hm : minByDeadline s.processTable.getReadyRealtime with
    | none =>
      rw [minByDeadline_eq_none.1 hm] at hrt
      cases hrt
    | some a => exact ⟨a.1, rfl⟩
  · have hl := leastPrio_ne_nil hc
    rw [atMinPrio_eq]
    rw [if_neg (by simp [hl])]
    have hpos : 0 < ((leastPrio s.processTable).map Pcb.pid).length :=
      List.length_pos_iff.2 (by simpa using hl)
    simp only
    split
    · exact ⟨_, List.getElem?_eq_getElem hpos⟩
    · rename_i hlt
      exact ⟨_, List.getElem?_eq_getElem (Nat.lt_of_not_le hlt)⟩

/-- Nobody is selected when nobody is ready or running. -/
theorem pickNextPriority_of_idle {s : Scheduler} (h : candidates s.processTable = []) :
    s.pickNextPriority = (s, none) := by
  unfold pickNextPriority
  rw [if_pos (by simp [getReadyWithPriority_eq, h])]

/-- The round-robin index stays where it is while a real-time process is ready or running. -/
theorem pickNextPriority_of_realtime {s : Scheduler} (h : realtime s.processTable ≠ []) : s.pickNextPriority.1 = s := by
  unfold pickNextPriority
  split
  · rfl
  · rw [if_pos (by simp [getReadyRealtime_eq, h])]

/-- The position of the round-robin index among `n` processes: an index out of range starts from the front. -/
def cursor (s : Scheduler) (n : Nat) : Nat := if s.queueIndex < n then s.queueIndex else 0

theorem cursor_lt (s : Scheduler) {n : Nat} (h : 0 < n) : s.cursor n < n := by
  unfold cursor
  split <;> omega

/-- Without real-time processes, the process at the round-robin index is selected and the index moves on. -/
theorem pickNextPriority_of_least {s : Scheduler} (hrt : realtime s.processTable = [])
    (hl : leastPrio s.processTable ≠ []) :
    s.pickNextPriority =
      ({ s with
         queueIndex := (s.cursor (leastPrio s.processTable).length + 1) % (leastPrio s.processTable).length },
        ((leastPrio s.processTable).map Pcb.pid)[s.cursor (leastPrio s.processTable).length]?) := by
  have hc : candidates s.processTable ≠ [] := by
    intro hc
    apply hl
    unfold leastPrio
    rw [hc]
    rfl
  have hidx : (if (leastPrio s.processTable).length ≤ s.queueIndex then 0 else s.queueIndex) =
      s.cursor (leastPrio s.processTable).length := by
    unfold cursor
    split <;> split <;> omega
  unfold pickNextPriority
  rw [if_neg (by simp [getReadyWithPriority_eq, hc]), if_neg (by simp [getReadyRealtime_eq, hrt]), atMinPrio_eq]
  simp only [List.length_map]
  rw [if_neg (by simp [hl]), hidx]

/-! ### The rule is earliest deadline first, then inherited priority -/

theorem mem_realtime_iff {t : ProcessTable} {p : Pcb} : p ∈ realtime t ↔ p ∈ candidates t ∧ 0 < p.rtPeriod := by
  unfold realtime candidates
  simp [and_assoc]

private theorem HasTurn.earliest {s : Scheduler} {pid : Nat} (h : s.HasTurn pid)
    (hrt : realtime s.processTable ≠ []) :
    ∃ p ∈ realtime s.processTable, p.pid = pid ∧ ∀ q ∈ realtime s.processTable, p.rtDeadline ≤ q.rtDeadline := by
  obtain ⟨before, p, after, hsplit, hpid, hbefore, hafter⟩ | ⟨hnil, -⟩ := h
  · refine ⟨p, by simp [hsplit], hpid, ?_⟩
    intro q hq
    rw [hsplit] at hq
    rcases List.mem_append.1 hq with hq | hq
    · have := hbefore q hq
      omega
    · rcases List.mem_cons.1 hq with rfl | hq
      · exact Nat.le_refl _
      · exact hafter q hq
  · exact absurd hnil hrt

private theorem HasTurn.least {s : Scheduler} {pid : Nat} (h : s.HasTurn pid) (hrt : realtime s.processTable = []) :
    ∃ p ∈ leastPrio s.processTable, p.pid = pid := by
  obtain ⟨before, p, after, hsplit, -⟩ | ⟨-, hget⟩ := h
  · rw [hrt] at hsplit
    simp at hsplit
  · obtain ⟨p, hp, hpid⟩ := List.mem_map.1 (List.mem_of_getElem? hget)
    exact ⟨p, hp, hpid⟩

/-- Nobody is selected exactly when nobody is ready or running.  The selected process is one of those with the earliest
deadline among the real-time processes, and of those with the least inherited priority when there is none. -/
theorem pickNextPriority_spec (s : Scheduler) :
    (s.pickNextPriority.2 = none ↔ ∀ p ∈ s.processTable.live, p.state ≠ .ready ∧ p.state ≠ .running) ∧
    ∀ pid, s.pickNextPriority.2 = some pid → ∃ p ∈ candidates s.processTable, p.pid = pid ∧
      ((∃ q ∈ candidates s.processTable, 0 < q.rtPeriod) →
        0 < p.rtPeriod ∧ ∀ q ∈ candidates s.processTable, 0 < q.rtPeriod → p.rtDeadline ≤ q.rtDeadline) ∧
      ((¬ ∃ q ∈ candidates s.processTable, 0 < q.rtPeriod) →
        ∀ q ∈ candidates s.processTable, inheritedPrio s.processTable p ≤ inheritedPrio s.processTable q) := by
  constructor
  · have hidle : candidates s.processTable = [] ↔
        ∀ p ∈ s.processTable.live, p.state ≠ .ready ∧ p.state ≠ .running := by
      unfold candidates Pcb.isRunnable
      simp
    rw [← hidle]
    constructor
    · intro hnone
      by_contra hc
      obtain ⟨p, hp⟩ := List.exists_mem_of_ne_nil _ hc
      obtain ⟨hlive, hrun⟩ := List.mem_filter.1 hp
      obtain ⟨next, hnext⟩ := pickNextPriority_isSome (ProcessTable.mem_live_iff.1 hlive) hrun
      rw [hnone] at hnext
      cases hnext
    · intro hc
      rw [pickNextPriority_of_idle hc]
  · intro pid hpick
    have hturn := (pickNextPriority_eq_some_iff s pid).1 hpick
    by_cases hrt : realtime s.processTable = []
    · have hno : ¬ ∃ q ∈ candidates s.processTable, 0 < q.rtPeriod := by
        rintro ⟨q, hq, hperiod⟩
        have := mem_realtime_iff.2 ⟨hq, hperiod⟩
        rw [hrt] at this
        cases this
      obtain ⟨p, hp, hpid⟩ := hturn.least hrt
      obtain ⟨hcand, hleast⟩ := List.mem_filter.1 hp
      exact ⟨p, hcand, hpid, fun hyes => absurd hyes hno, fun _ => of_decide_eq_true hleast⟩
    · obtain ⟨p, hp, hpid, hearliest⟩ := hturn.earliest hrt
      obtain ⟨hcand, hperiod⟩ := mem_realtime_iff.1 hp
      refine ⟨p, hcand, hpid, ?_, ?_⟩
      · intro _
        exact ⟨hperiod, fun q hq hpos => hearliest q (mem_realtime_iff.2 ⟨hq, hpos⟩)⟩
      · intro hno
        exact absurd ⟨p, hcand, hperiod⟩ hno

end Scheduler

end Rost
