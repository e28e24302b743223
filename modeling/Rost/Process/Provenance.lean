import Rost.Process.Resources

/-!
# Where a capability comes from

The runs of the capability operations together with creations and terminations.  One step puts at most one capability
into a table: the one passed to `cap_alloc`, or a copy of one that the granter holds with the grant right
(`capAt_capStep`).  So every capability of a live process goes back to a `cap_alloc` through a chain of grants in the
order of time (`Chain`).  Slots are reused and processes die, but the history keeps what they held.
-/

namespace Rost

open Lib (Run exec run_of_exec)

namespace ProcessTable

/-- The process `pid` holds `cap` in the slot `slot` of its table. -/
def CapAt (t : ProcessTable) (pid slot : Nat) (cap : Capability) : Prop :=
  ∃ x, t.getProcess pid = some x ∧ x.capTable[slot]? = some cap ∧ cap.isEmpty = false

/-! ### What one operation adds -/

theorem capAlloc_cases (t : ProcessTable) (pid : Nat) (cap : Capability) :
    t.capAlloc pid cap = (t, none) ∨ ∃ t' i, t.capAlloc pid cap = (t', some i) ∧
      ∀ {q j c}, t'.CapAt q j c → t.CapAt q j c ∨ (q = pid ∧ j = i ∧ c = cap) := by
  unfold capAlloc
  cases hp : t.getProcess pid with
  | none => exact Or.inl rfl
  | some p =>
    dsimp only
    cases hslot : p.capTable.findFinIdx? Capability.isEmpty with
    | none => exact Or.inl rfl
    | some i =>
      refine Or.inr ⟨_, i, rfl, fun {q j c} h => ?_⟩
      obtain ⟨x', hx', hcap, hne⟩ := h
      rw [getProcess_update] at hx'
      split at hx'
      · rename_i hq
        obtain ⟨x, hx, rfl⟩ := Option.map_eq_some_iff.1 hx'
        rw [Vector.getElem?_set] at hcap
        split at hcap
        · rename_i hj
          exact Or.inr ⟨hq, hj.symm, (Option.some.inj hcap).symm⟩
        · exact Or.inl ⟨x, hx, hcap, hne⟩
      · exact Or.inl ⟨x', hx', hcap, hne⟩

/-- A grant copies a capability of the granter that carries the grant right, or does nothing. -/
theorem capGrant_eq (t : ProcessTable) (fromPid slotIdx toPid : Nat) :
    t.capGrant fromPid slotIdx toPid = (t, none) ∨
    ∃ cap, t.CapAt fromPid slotIdx cap ∧ cap.rights &&& capG ≠ 0 ∧
      t.capGrant fromPid slotIdx toPid = t.capAlloc toPid cap := by
  unfold capGrant
  split
  · rename_i hslot
    cases hp : t.getProcess fromPid with
    | none => exact Or.inl rfl
    | some p =>
      dsimp only
      split
      · exact Or.inl rfl
      · rename_i hempty
        split
        · exact Or.inl rfl
        · rename_i hright
          refine Or.inr ⟨p.capTable[slotIdx], ⟨p, hp, Vector.getElem?_eq_getElem hslot, ?_⟩, hright, rfl⟩
          simpa using hempty
  · exact Or.inl rfl

theorem capAt_capRevoke {t : ProcessTable} {pid slotIdx q j : Nat} {c : Capability}
    (h : (t.capRevoke pid slotIdx).CapAt q j c) : t.CapAt q j c := by
  unfold capRevoke at h
  split at h
  · obtain ⟨x', hx', hcap, hne⟩ := h
    rw [getProcess_update] at hx'
    split at hx'
    · obtain ⟨x, hx, rfl⟩ := Option.map_eq_some_iff.1 hx'
      rw [Vector.getElem?_set] at hcap
      split at hcap
      · cases hcap
        cases hne
      · exact ⟨x, hx, hcap, hne⟩
    · exact ⟨x', hx', hcap, hne⟩
  · exact h

/-- A new process has no capability. -/
theorem capAt_createWith {t t' : ProcessTable} {mk : Nat → Nat → Nat → Pcb} {hmk : ∀ p i k, (mk p i k).pid = p}
    {r : Option Nat} (hcaps : ∀ p i k, (mk p i k).capTable = Vector.replicate capTableSize .empty)
    (h : t.createWith mk hmk = some (t', r)) {q j : Nat} {c : Capability} (hc : t'.CapAt q j c) : t.CapAt q j c := by
  obtain ⟨x, hx, hcap, hne⟩ := hc
  rcases createWith_cases h with ⟨-, -, hget⟩ | ⟨-, -, -, i, k, hget⟩
  · exact ⟨x, (hget q).symm.trans hx, hcap, hne⟩
  · rw [hget] at hx
    split at hx
    · cases hx
      rw [hcaps, Vector.getElem?_replicate] at hcap
      split at hcap
      · cases hcap
        cases hne
      · cases hcap
    · exact ⟨x, hx, hcap, hne⟩

theorem capAt_terminateProcess {t : ProcessTable} {pid q j : Nat} {c : Capability}
    (h : (t.terminateProcess pid).1.CapAt q j c) : t.CapAt q j c := by
  obtain ⟨x, hx, hcap⟩ := h
  rw [getProcess_terminateProcess] at hx
  split at hx
  · cases hx
  · exact ⟨x, hx, hcap⟩

theorem capAt_tableStep {t t' : ProcessTable} {op : TableOp} {r : Option Nat} (h : t.tableStep op = some (t', r))
    {q j : Nat} {c : Capability} (hc : t'.CapAt q j c) : t.CapAt q j c := by
  cases op with
  | createProcess pageTableBase =>
    unfold tableStep createProcess at h
    exact capAt_createWith (fun _ _ _ => rfl) h hc
  | createRing3Process pageTableBase =>
    unfold tableStep createRing3Process at h
    exact capAt_createWith (fun _ _ _ => rfl) h hc
  | terminateProcess pid =>
    obtain ⟨rfl, -⟩ := Prod.mk.inj (Option.some.inj h)
    exact capAt_terminateProcess hc

end ProcessTable

/-! ### Histories -/

/-- The operations on capability tables, and those that add and remove processes. -/
inductive CapOp where
  | table (op : TableOp)
  | capAlloc (pid : Nat) (cap : Capability)
  | capGrant (fromPid slotIdx toPid : Nat)
  | capRevoke (pid slotIdx : Nat)
deriving DecidableEq

namespace ProcessTable

/-- One operation; the result is the pid created or the slot filled, if any. -/
def capStep (t : ProcessTable) : CapOp → Option (ProcessTable × Option Nat)
  | .table op => t.tableStep op
  | .capAlloc pid cap => some (t.capAlloc pid cap)
  | .capGrant fromPid slotIdx toPid => some (t.capGrant fromPid slotIdx toPid)
  | .capRevoke pid slotIdx => some (t.capRevoke pid slotIdx, none)

/-- A capability in a table was there before, or was passed to `cap_alloc`, or was granted by a process that held it
with the grant right. -/
theorem capAt_capStep {t t' : ProcessTable} {op : CapOp} {r : Option Nat} (h : t.capStep op = some (t', r))
    {p j : Nat} {c : Capability} (hc : t'.CapAt p j c) :
    t.CapAt p j c ∨ (op = .capAlloc p c ∧ r = some j) ∨
      ∃ q i, op = .capGrant q i p ∧ r = some j ∧ t.CapAt q i c ∧ c.rights &&& capG ≠ 0 := by
  cases op with
  | table op => exact Or.inl (capAt_tableStep h hc)
  | capAlloc pid cap =>
    have heq := Option.some.inj h
    rcases t.capAlloc_cases pid cap with hnone | ⟨u, i, hsome, hgain⟩
    · obtain ⟨rfl, rfl⟩ := Prod.mk.inj (hnone.symm.trans heq)
      exact Or.inl hc
    · obtain ⟨rfl, rfl⟩ := Prod.mk.inj (hsome.symm.trans heq)
      rcases hgain hc with hold | ⟨rfl, rfl, rfl⟩
      · exact Or.inl hold
      · exact Or.inr (Or.inl ⟨rfl, rfl⟩)
  | capGrant fromPid slotIdx toPid =>
    have heq := Option.some.inj h
    rcases t.capGrant_eq fromPid slotIdx toPid with hnone | ⟨cap, hheld, hright, hgrant⟩
    · obtain ⟨rfl, rfl⟩ := Prod.mk.inj (hnone.symm.trans heq)
      exact Or.inl hc
    · rw [hgrant] at heq
      rcases t.capAlloc_cases toPid cap with hnone | ⟨u, i, hsome, hgain⟩
      · obtain ⟨rfl, rfl⟩ := Prod.mk.inj (hnone.symm.trans heq)
        exact Or.inl hc
      · obtain ⟨rfl, rfl⟩ := Prod.mk.inj (hsome.symm.trans heq)
        rcases hgain hc with hold | ⟨rfl, rfl, rfl⟩
        · exact Or.inl hold
        · exact Or.inr (Or.inr ⟨fromPid, slotIdx, rfl, rfl, hheld, hright⟩)
  | capRevoke pid slotIdx =>
    obtain ⟨rfl, -⟩ := Prod.mk.inj (Option.some.inj h)
    exact Or.inl (capAt_capRevoke hc)

/-- In the history `es` from `t₀`, the process `p` received `c` from the original holder `o`, to whom it was allocated,
by grants made one after the other, each by a process that held `c` with the grant right at that time. -/
inductive Chain (t₀ : ProcessTable) (c : Capability) (o : Nat) : List (CapOp × Option Nat) → Nat → Prop
  | alloc {es : List (CapOp × Option Nat)} (i : Nat) : Chain t₀ c o (es ++ [(.capAlloc o c, some i)]) o
  | grant {es : List (CapOp × Option Nat)} {t : ProcessTable} {p i q j : Nat} (hchain : Chain t₀ c o es p)
      (hrun : Run capStep (fun _ _ => True) t₀ es t) (hheld : t.CapAt p i c) (hright : c.rights &&& capG ≠ 0) :
      Chain t₀ c o (es ++ [(.capGrant p i q, some j)]) q
  | later {es : List (CapOp × Option Nat)} {p : Nat} (e : CapOp × Option Nat) (hchain : Chain t₀ c o es p) :
      Chain t₀ c o (es ++ [e]) p

variable {t₀ t : ProcessTable} {es : List (CapOp × Option Nat)} {c : Capability} {o p : Nat}

/-- A chain starts with an allocation. -/
theorem Chain.allocated (h : Chain t₀ c o es p) : ∃ i, (CapOp.capAlloc o c, some i) ∈ es := by
  induction h with
  | alloc i => exact ⟨i, List.mem_append_right _ List.mem_cons_self⟩
  | grant _ _ _ _ ih =>
    obtain ⟨i, hi⟩ := ih
    exact ⟨i, List.mem_append_left _ hi⟩
  | later _ _ ih =>
    obtain ⟨i, hi⟩ := ih
    exact ⟨i, List.mem_append_left _ hi⟩

/-- Without the grant right a chain has no grants. -/
theorem Chain.eq_of_not_grantable (h : Chain t₀ c o es p) (hright : c.rights &&& capG = 0) : p = o := by
  induction h with
  | alloc => rfl
  | grant _ _ _ hg _ => exact absurd hright hg
  | later _ _ ih => exact ih

/-- Every capability of a live process has a chain. -/
theorem exists_chain (b : Nat) (hrun : Run capStep (fun _ _ => True) (ProcessTable.new b) es t) {j : Nat}
    (hc : t.CapAt p j c) : ∃ o, Chain (ProcessTable.new b) c o es p := by
  induction hrun generalizing p j with
  | nil =>
    obtain ⟨x, hx, -⟩ := hc
    rw [getProcess_new] at hx
    cases hx
  | snoc hrun _ hstep ih =>
    rcases capAt_capStep hstep hc with hold | ⟨rfl, rfl⟩ | ⟨q, i, rfl, rfl, hheld, hright⟩
    · obtain ⟨o, ho⟩ := ih hold
      exact ⟨o, .later _ ho⟩
    · exact ⟨p, .alloc j⟩
    · obtain ⟨o, ho⟩ := ih hheld
      exact ⟨o, .grant ho hrun hheld hright⟩

/-- In every run, a capability `c` of a live process `p` was passed to `cap_alloc`; for `p` itself if it lacks the
grant right; and if it was never allocated to `p`, a chain of grants leads to `p` from another process it was
allocated to. -/
theorem grants_attenuate (b : Nat) {es : List (CapOp × Option Nat)} {t : ProcessTable}
    (hrun : Run capStep (fun _ _ => True) (ProcessTable.new b) es t) {p j : Nat} {c : Capability}
    (hc : t.CapAt p j c) :
    (∃ o i, (CapOp.capAlloc o c, some i) ∈ es) ∧
    (c.rights &&& capG = 0 → ∃ i, (CapOp.capAlloc p c, some i) ∈ es) ∧
    ((∀ i, (CapOp.capAlloc p c, some i) ∉ es) →
      ∃ o, o ≠ p ∧ (∃ i, (CapOp.capAlloc o c, some i) ∈ es) ∧ Chain (ProcessTable.new b) c o es p) := by
  obtain ⟨o, hchain⟩ := exists_chain b hrun hc
  obtain ⟨i, hi⟩ := hchain.allocated
  refine ⟨⟨o, i, hi⟩, fun hright => ?_, fun hnever => ?_⟩
  · rw [hchain.eq_of_not_grantable hright]
    exact ⟨i, hi⟩
  · refine ⟨o, ?_, ⟨i, hi⟩, hchain⟩
    rintro rfl
    exact hnever i hi

/-- The capability for frame 7 that the runs below pass on. -/
def frameSeven : Capability := ⟨.memory, capR ||| capG, 7⟩

/-- A capability granted twice, held by the third process after the first two have lost it. -/
theorem grants_attenuate_twice : ∃ t es,
    Run capStep (fun _ _ => True) (ProcessTable.new 0) es t ∧ t.CapAt 3 0 frameSeven ∧
      ∃ o, o ≠ 3 ∧ (∃ i, (CapOp.capAlloc o frameSeven, some i) ∈ es) ∧
        Chain (ProcessTable.new 0) frameSeven o es 3 := by
  have hexec : (exec capStep (fun _ _ => True) (ProcessTable.new 0)
      [.table (.createProcess 0), .table (.createProcess 0), .table (.createProcess 0), .capAlloc 1 frameSeven,
        .capGrant 1 0 2, .capRevoke 1 0, .capGrant 2 0 3, .table (.terminateProcess 2)]).any
      (fun out => ((out.1.getProcess 3).bind fun x => x.capTable[0]?) = some frameSeven ∧
        out.2.all fun e => match e.1 with | .capAlloc p _ => p == 1 | _ => true) = true := by
    decide +kernel
  obtain ⟨⟨t, es⟩, hrun, hout⟩ := (Option.any_eq_true _ _).1 hexec
  obtain ⟨hslot, honly⟩ := of_decide_eq_true hout
  obtain ⟨x, hx, hcap⟩ := Option.bind_eq_some_iff.1 hslot
  have hrun := run_of_exec hrun
  have hheld : t.CapAt 3 0 frameSeven := ⟨x, hx, hcap, rfl⟩
  refine ⟨t, es, hrun, hheld, (grants_attenuate 0 hrun hheld).2.2 fun i hi => ?_⟩
  have := List.all_eq_true.1 honly _ hi
  cases this

end ProcessTable

end Rost
