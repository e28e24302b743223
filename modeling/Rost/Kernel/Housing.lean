import Rost.Kernel.Spaces
import Rost.Kernel.Step
import Rost.Memory.Widening

/-!
# Where the processes live

The address spaces of the live processes stand in one layout of page tables, and the frames that the destructor of a
process record gives back belong to that process alone (`Housed`).  Building page tables keeps this (`Housed.extend`), and
so does the end of a process (`Housed.exit`): its frames become free, its page tables are given up, and no other process
notices.  The loader sets it up (`Housed.spawn`).
-/

namespace Rost

open Lib.TableTree (Layout)
open Lib.TableTree.Layout (dropTag dropTag_eq_some)
open Memory (Tables Consumes Widens Extends)

/-! ### Giving frames back -/

namespace Memory

variable {m : Memory} {kern : Word} {tag : Tags} {D : List Word}

/-- A page-aligned address is the address of its frame. -/
theorem frameAddr_of_frameIndex {p : Word} (hp : IsTableAddr p) {idx : Nat} (h : m.frameIndex p = some idx) :
    m.frameAddr idx = p := by
  have hlt := frameIndex_lt h
  have hmod := hp.toNat_mod
  have hbase := m.region.base_aligned
  apply BitVec.eq_of_toNat_eq
  rw [m.toNat_frameAddr hlt]
  unfold frameIndex at h
  split at h
  · cases h
  · rename_i hle
    simp only at h
    split at h
    · cases h
    · cases h
      unfold pageSize at hbase ⊢
      omega

theorem foldl_globalFree4k (D : List Word) (m : Memory) :
    (D.foldl globalFree4k m).ram = m.ram ∧ (D.foldl globalFree4k m).ptPool = m.ptPool ∧
      (D.foldl globalFree4k m).region = m.region := by
  induction D generalizing m with
  | nil => exact ⟨rfl, rfl, rfl⟩
  | cons p D ih =>
    obtain ⟨hram, hpool, hregion⟩ := ih (m.globalFree4k p)
    exact ⟨hram.trans (m.globalFree4k_ram p), hpool.trans (m.globalFree4k_ptPool p),
      hregion.trans (m.globalFree4k_region p)⟩

/-- What is free after frames have been given back. -/
theorem isFree_foldl_globalFree4k {j : Nat} (h : (D.foldl globalFree4k m).isFree j = true) :
    m.isFree j = true ∨ ∃ p ∈ D, m.frameIndex p = some j := by
  induction D generalizing m with
  | nil => exact Or.inl h
  | cons p D ih =>
    have hindex : ∀ q, (m.globalFree4k p).frameIndex q = m.frameIndex q := by
      intro q
      unfold frameIndex
      rw [globalFree4k_region]
    rcases ih h with hfree | ⟨q, hq, hj⟩
    · rw [isFree_globalFree4k, Bool.or_eq_true_iff, decide_eq_true_iff] at hfree
      rcases hfree with hfree | hj
      · exact Or.inl hfree
      · exact Or.inr ⟨p, List.mem_cons_self, hj⟩
    · rw [hindex] at hj
      exact Or.inr ⟨q, List.mem_cons_of_mem p hq, hj⟩

theorem frameAddr_foldl_globalFree4k (D : List Word) (m : Memory) (idx : Nat) :
    (D.foldl globalFree4k m).frameAddr idx = m.frameAddr idx := by
  unfold frameAddr
  rw [(foldl_globalFree4k D m).2.2]

/-- A frame that is not given back stays in use. -/
theorem Reserved.release {f : Word} (h : m.Reserved f) (hD : ∀ p ∈ D, IsTableAddr p) (hf : f ∉ D) :
    (D.foldl globalFree4k m).Reserved f := by
  refine ⟨h.addr, fun idx hlt haddr => ?_⟩
  rw [frameAddr_foldl_globalFree4k] at haddr
  by_contra hfree
  rcases isFree_foldl_globalFree4k (by simpa using hfree) with hbefore | ⟨p, hp, hidx⟩
  · rw [h.not_free idx hlt haddr] at hbefore
    cases hbefore
  · rw [frameAddr_of_frameIndex (hD p hp) hidx] at haddr
    rw [haddr] at hp
    exact hf hp

theorem Fresh.release {f : Word} (h : m.Fresh tag f) (hD : ∀ p ∈ D, IsTableAddr p) (hf : f ∉ D) :
    (D.foldl globalFree4k m).Fresh tag f := by
  refine ⟨h.untagged, h.reserved.release hD hf, ?_⟩
  rw [(foldl_globalFree4k D m).2.1]
  exact h.not_pooled

/-- Frames that are no page tables may be given back. -/
theorem Tables.release (T : Tables m kern tag) (hD : ∀ p ∈ D, IsTableAddr p ∧ tag p = none ∧ p ∉ m.ptPool) :
    Tables (D.foldl globalFree4k m) kern tag := by
  obtain ⟨hram, hpool, -⟩ := foldl_globalFree4k D m
  refine ⟨T.layout.congr fun f o p hf j => ?_, T.addr, fun j hf hp => ?_, fun {idx} hlt hfree => ?_, fun {p} hp => ?_, ?_⟩
  · unfold links
    rw [hram]
  · rw [hram]
    exact T.plain j hf hp
  · rw [frameAddr_foldl_globalFree4k]
    rcases isFree_foldl_globalFree4k hfree with hbefore | ⟨p, hp, hidx⟩
    · exact T.free hlt hbefore
    · rw [frameAddr_of_frameIndex (hD p hp).1 hidx]
      exact (hD p hp).2.1
  · rw [hpool] at hp
    refine ⟨(T.pool hp).1, (T.pool hp).2.release (fun q hq => (hD q hq).1) fun hmem => ?_⟩
    exact (hD p hmem).2.2 hp
  · rw [hpool]
    exact T.pool_nodup

/-- The page tables of an owner are given up. -/
theorem Tables.dropOwner (T : Tables m kern tag) {o : Word} (ho : o ≠ kern) : Tables m kern (dropTag tag o) := by
  have hnone : ∀ {f}, tag f = none → dropTag tag o f = none := by
    intro f hf
    unfold dropTag
    rw [hf]
    rfl
  refine ⟨T.layout.dropOwner ho, fun hf => T.addr (dropTag_eq_some.1 hf).1, fun j hf => ?_, fun hlt hfree => ?_,
    fun hp => ⟨hnone (T.pool hp).1, (T.pool hp).2⟩, T.pool_nodup⟩
  · exact T.plain j (dropTag_eq_some.1 hf).1
  · exact hnone (T.free hlt hfree)

theorem Fresh.dropTag {f : Word} (h : m.Fresh tag f) (o : Word) : m.Fresh (dropTag tag o) f := by
  refine ⟨?_, h.reserved, h.not_pooled⟩
  unfold Layout.dropTag
  rw [h.untagged]
  rfl

end Memory

/-! ### Houses -/

/-- The page tables of the live processes stand in a layout, and what a process will give back is its own: frames that
are no page tables, or its PML4. -/
structure Housed (k : Kernel) (tag : Tags) : Prop where
  tables : Tables k.mem k.kernelPml4 tag
  root : ∀ {q x}, k.sched.getProcess q = some x → tag x.pageTableBase = some (x.pageTableBase, [])
  frames : ∀ {q x f}, k.sched.getProcess q = some x → f ∈ x.droppedFrames →
    k.mem.Fresh tag f ∨ (f = x.pageTableBase ∧ f ≠ k.kernelPml4)
  apart : ∀ {q r x y f}, q ≠ r → k.sched.getProcess q = some x → k.sched.getProcess r = some y →
    f ∈ x.droppedFrames → f ∉ y.droppedFrames ∧ f ≠ y.pageTableBase

/-- The processes of `s'` are processes of `s`, with the PML4 and the frames they had. -/
def SameHouse (s s' : Scheduler) : Prop :=
  ∀ q x', s'.getProcess q = some x' → ∃ x, s.getProcess q = some x ∧ x'.pageTableBase = x.pageTableBase ∧
    x'.droppedFrames = x.droppedFrames

theorem SameHouse.refl (s : Scheduler) : SameHouse s s := fun _ x hx => ⟨x, hx, rfl, rfl⟩

theorem SameHouse.trans {s t u : Scheduler} (h : SameHouse s t) (h' : SameHouse t u) : SameHouse s u := by
  intro q z hz
  obtain ⟨y, hy, hbase, hdrop⟩ := h' q z hz
  obtain ⟨x, hx, hbase', hdrop'⟩ := h q y hy
  exact ⟨x, hx, hbase.trans hbase', hdrop.trans hdrop'⟩

/-- A change of one record that leaves these alone. -/
theorem sameHouse_update (s : Scheduler) (pid : Nat) {f : Pcb → Pcb} {hf : ∀ p, (f p).pid = p.pid}
    (h : ∀ x, (f x).pageTableBase = x.pageTableBase ∧ (f x).droppedFrames = x.droppedFrames) :
    SameHouse s (s.update pid f hf) ∧ SameHouse (s.update pid f hf) s := by
  refine ⟨fun q x' hx' => ?_, fun q x hx => ?_⟩
  · rw [Scheduler.getProcess_update] at hx'
    split at hx'
    · obtain ⟨x, hx, rfl⟩ := Option.map_eq_some_iff.1 hx'
      exact ⟨x, hx, h x⟩
    · exact ⟨x', hx', rfl, rfl⟩
  · rw [Scheduler.getProcess_update]
    by_cases hq : q = pid
    · rw [if_pos hq, hx]
      exact ⟨f x, rfl, (h x).1.symm, (h x).2.symm⟩
    · rw [if_neg hq]
      exact ⟨x, hx, rfl, rfl⟩

theorem sameHouse_useMemoryPage (s : Scheduler) (pid : Nat) :
    SameHouse s (s.useMemoryPage pid) ∧ SameHouse (s.useMemoryPage pid) s :=
  sameHouse_update s pid fun _ => ⟨rfl, rfl⟩

theorem sameHouse_capAlloc (s : Scheduler) (pid : Nat) (cap : Capability) :
    SameHouse s (s.capAlloc pid cap).1 ∧ SameHouse (s.capAlloc pid cap).1 s := by
  unfold Scheduler.capAlloc ProcessTable.capAlloc
  split
  · exact ⟨.refl _, .refl _⟩
  · split
    · exact ⟨.refl _, .refl _⟩
    · rename_i i _
      exact sameHouse_update s pid (f := fun q => { q with capTable := q.capTable.set i cap }) fun _ => ⟨rfl, rfl⟩

/-- So does a context switch. -/
theorem sameHouse_switches {s s' : Scheduler} (h : Scheduler.Switches s s') : SameHouse s s' ∧ SameHouse s' s := by
  cases h with
  | stay i => exact ⟨fun _ x hx => ⟨x, hx, rfl, rfl⟩, fun _ x hx => ⟨x, hx, rfl, rfl⟩⟩
  | point i next _ _ => exact ⟨fun _ x hx => ⟨x, hx, rfl, rfl⟩, fun _ x hx => ⟨x, hx, rfl, rfl⟩⟩
  | enter i old next _ =>
    refine ⟨fun q x' hx' => ?_, fun q x hx => ?_⟩
    · rw [Scheduler.getProcess_enter] at hx'
      split at hx'
      · obtain ⟨x, hx, rfl⟩ := Option.map_eq_some_iff.1 hx'
        exact ⟨x, hx, rfl, rfl⟩
      · exact ⟨x', hx', rfl, rfl⟩
    · rw [Scheduler.getProcess_enter]
      have hx : ({ s with queueIndex := i } : Scheduler).getProcess q = some x := hx
      by_cases hq : q = next
      · rw [if_pos hq, hx]
        exact ⟨_, rfl, rfl, rfl⟩
      · rw [if_neg hq]
        exact ⟨x, hx, rfl, rfl⟩

namespace Housed

variable {k k' : Kernel} {tag tag' : Tags}

/-- The PML4 of the current process is the root of a tree. -/
theorem cr3_root (H : Housed k tag) : tag k.cr3 = some (k.cr3, []) := by
  unfold Kernel.cr3 Scheduler.getProcessPml4
  cases hx : k.sched.getProcess k.currentPid with
  | none => exact H.tables.layout.kern_root
  | some x => exact H.root hx

/-- Page tables have been built, and the processes are where they were. -/
theorem extend (H : Housed k tag) {m' : Memory} {s' : Scheduler} (he : Extends k.kernelPml4 k.mem tag m' tag')
    (hs : SameHouse k.sched s') : Housed { k with mem := m', sched := s' } tag' := by
  refine ⟨he.tables, fun {q x'} hx' => ?_, fun {q x' f} hx' hf => ?_, fun {q r x' y' f} hqr hx' hy' hf => ?_⟩
  · obtain ⟨x, hx, hbase, -⟩ := hs q x' hx'
    rw [hbase]
    exact he.keeps (H.root hx)
  · obtain ⟨x, hx, hbase, hdrop⟩ := hs q x' hx'
    rw [hdrop] at hf
    rw [hbase]
    exact (H.frames hx hf).imp_left he.fresh
  · obtain ⟨x, hx, -, hdrop⟩ := hs q x' hx'
    obtain ⟨y, hy, hbase, hdrop'⟩ := hs r y' hy'
    rw [hdrop] at hf
    rw [hdrop', hbase]
    exact H.apart hqr hx hy hf

/-- What a process gives back is in use. -/
theorem reserved_of_dropped (H : Housed k tag) {q : Nat} {x : Pcb} {f : Word} (hx : k.sched.getProcess q = some x)
    (hf : f ∈ x.droppedFrames) : k.mem.Reserved f := by
  rcases H.frames hx hf with hfresh | ⟨rfl, -⟩
  · exact hfresh.reserved
  · exact H.tables.reserved_of_tag (H.root hx)

/-! ### The end of a process -/

theorem not_pooled_of_dropped (H : Housed k tag) {q : Nat} {x : Pcb} {f : Word} (hx : k.sched.getProcess q = some x)
    (hf : f ∈ x.droppedFrames) : f ∉ k.mem.ptPool := by
  intro hmem
  rcases H.frames hx hf with hfresh | ⟨rfl, -⟩
  · exact hfresh.not_pooled hmem
  · have hnone := (H.tables.pool hmem).1
    rw [H.root hx] at hnone
    cases hnone

/-- The kernel's PML4 is not given back. -/
theorem base_ne_kern (H : Housed k tag) {q : Nat} {x : Pcb} (hx : k.sched.getProcess q = some x)
    (hbase : x.pageTableBase ∈ x.droppedFrames) : x.pageTableBase ≠ k.kernelPml4 := by
  rcases H.frames hx hbase with hfresh | ⟨-, hne⟩
  · have hnone := hfresh.untagged
    rw [H.root hx] at hnone
    cases hnone
  · exact hne

/-- When the tree of the process has been given up, what it gives back is no page table. -/
theorem untagged_of_dropped (H : Housed k tag) {q : Nat} {x : Pcb} {f : Word} (hx : k.sched.getProcess q = some x)
    (hf : f ∈ x.droppedFrames) : dropTag tag x.pageTableBase f = none := by
  rcases H.frames hx hf with hfresh | ⟨rfl, -⟩
  · exact (hfresh.dropTag _).untagged
  · cases htag : dropTag tag x.pageTableBase x.pageTableBase with
    | none => rfl
    | some t =>
      obtain ⟨hroot, hown⟩ := dropTag_eq_some.1 htag
      rw [H.root hx] at hroot
      cases hroot
      exact absurd rfl hown

private theorem terminateProcess_frames {s : Scheduler} {pid : Nat} {x : Pcb} (hx : s.getProcess pid = some x) :
    (s.terminateProcess pid).2 = x.droppedFrames := by
  have hget : (s.log .terminate 0 pid).processTable.getProcess pid = some x := hx
  unfold Scheduler.terminateProcess ProcessTable.terminateProcess
  simp only [hget]

/-- The processes that are left after an exit. -/
theorem exit_records {ret : Ret} (h : k.sysExit = some (k', ret)) {q : Nat} {x' : Pcb}
    (hx' : k'.sched.getProcess q = some x') :
    q ≠ k.currentPid ∧ ∃ x, k.sched.getProcess q = some x ∧ (x' = x ∨ Scheduler.SwitchChange x x') := by
  cases h
  rw [Kernel.switched_sched] at hx'
  have hstep : (k.terminateProcess k.currentPid).sched.step .forceScheduleNext =
      some ((k.terminateProcess k.currentPid).sched.forceScheduleNext.1, _) := rfl
  obtain ⟨x, hx, hchange⟩ := Scheduler.record_kept hstep (fun _ => ⟨nofun, nofun⟩) hx'
  have hget : (k.sched.terminateProcess k.currentPid).1.getProcess q = some x := hx
  rw [Scheduler.getProcess_terminateProcess] at hget
  split at hget
  · cases hget
  · rename_i hq
    exact ⟨hq, x, hget, hchange⟩

private theorem switched_mem (k : Kernel) (r : Scheduler × Option Switch) :
    (k.switched r).mem = k.mem ∧ (k.switched r).kernelPml4 = k.kernelPml4 := by
  unfold Kernel.switched
  split
  · exact ⟨rfl, rfl⟩
  · exact ⟨rfl, rfl⟩

/-- The memory after an exit. -/
theorem exit_mem {x : Pcb} (hx : k.sched.getProcess k.currentPid = some x) {ret : Ret} (h : k.sysExit = some (k', ret)) :
    k'.mem = x.droppedFrames.foldl Memory.globalFree4k k.mem ∧ k'.kernelPml4 = k.kernelPml4 := by
  cases h
  obtain ⟨hmem, hkern⟩ := switched_mem (k.terminateProcess k.currentPid) (k.terminateProcess k.currentPid).sched.forceScheduleNext
  refine ⟨hmem.trans ?_, hkern⟩
  exact congrArg (fun D => D.foldl Memory.globalFree4k k.mem) (terminateProcess_frames hx)

/-- The processes that are left have the PML4 and the frames they had. -/
theorem exit_house {ret : Ret} (h : k.sysExit = some (k', ret)) {q : Nat} {y' : Pcb}
    (hy' : k'.sched.getProcess q = some y') : q ≠ k.currentPid ∧ ∃ y, k.sched.getProcess q = some y ∧
      y'.pageTableBase = y.pageTableBase ∧ y'.droppedFrames = y.droppedFrames := by
  obtain ⟨hq, y, hy, rfl | ⟨st, ct, rfl⟩⟩ := exit_records h hy'
  · exact ⟨hq, y', hy, rfl, rfl⟩
  · exact ⟨hq, y, hy, rfl, rfl⟩

/-- The other processes are left. -/
theorem exit_live {ret : Ret} (h : k.sysExit = some (k', ret)) {q : Nat} {y : Pcb} (hq : q ≠ k.currentPid)
    (hy : k.sched.getProcess q = some y) : ∃ y', k'.sched.getProcess q = some y' ∧ y'.pageTableBase = y.pageTableBase := by
  cases h
  rw [Kernel.switched_sched]
  have hget : (k.terminateProcess k.currentPid).sched.getProcess q = some y := by
    show (k.sched.terminateProcess k.currentPid).1.getProcess q = some y
    rw [Scheduler.getProcess_terminateProcess, if_neg hq]
    exact hy
  obtain ⟨y', hy', hbase, -⟩ := (sameHouse_switches (Scheduler.forceScheduleNext_switches _)).2 q y hget
  exact ⟨y', hy', hbase.symm⟩

/-- A process ends, and `tag'` are the page tables of the others. -/
theorem exit_of_tables (H : Housed k tag) {x : Pcb} (hx : k.sched.getProcess k.currentPid = some x) {ret : Ret}
    (h : k.sysExit = some (k', ret)) (T' : Tables k.mem k.kernelPml4 tag')
    (hnone : ∀ f ∈ x.droppedFrames, tag' f = none ∧ f ∉ k.mem.ptPool)
    (hfresh : ∀ {f}, k.mem.Fresh tag f → k.mem.Fresh tag' f)
    (hroots : ∀ {q y}, q ≠ k.currentPid → k.sched.getProcess q = some y → tag' y.pageTableBase = some (y.pageTableBase, [])) :
    Housed k' tag' ∧ ∀ {f}, k.mem.Fresh tag f → f ∉ x.droppedFrames → k'.mem.Fresh tag' f := by
  have haddr : ∀ p ∈ x.droppedFrames, IsTableAddr p := fun p hp => (H.reserved_of_dropped hx hp).addr
  obtain ⟨hmem, hkern⟩ := exit_mem hx h
  have hkeep : ∀ {f}, k.mem.Fresh tag f → f ∉ x.droppedFrames → k'.mem.Fresh tag' f := by
    intro f hf hnot
    rw [hmem]
    exact (hfresh hf).release haddr hnot
  refine ⟨⟨?_, fun {q y'} hy' => ?_, fun {q y' f} hy' hf => ?_, fun {q r y' z' f} hqr hy' hz' hf => ?_⟩, hkeep⟩
  · rw [hmem, hkern]
    exact T'.release fun p hp => ⟨haddr p hp, hnone p hp⟩
  · obtain ⟨hq, y, hy, hbase, -⟩ := exit_house h hy'
    rw [hbase]
    exact hroots hq hy
  · obtain ⟨hq, y, hy, hbase, hdrop⟩ := exit_house h hy'
    rw [hdrop] at hf
    rw [hbase, hkern]
    exact (H.frames hy hf).imp_left fun hfr => hkeep hfr (H.apart hq hy hx hf).1
  · obtain ⟨-, y, hy, -, hdrop⟩ := exit_house h hy'
    obtain ⟨-, z, hz, hbase, hdrop'⟩ := exit_house h hz'
    rw [hdrop] at hf
    rw [hdrop', hbase]
    exact H.apart hqr hy hz hf

/-- A process ends: the others stay where they are, and so does every frame that it does not give back. -/
theorem exit (H : Housed k tag) {x : Pcb} (hx : k.sched.getProcess k.currentPid = some x) {ret : Ret}
    (h : k.sysExit = some (k', ret)) :
    ∃ tag', Housed k' tag' ∧ ∀ {f}, k.mem.Fresh tag f → f ∉ x.droppedFrames → k'.mem.Fresh tag' f := by
  by_cases hbase : x.pageTableBase ∈ x.droppedFrames
  · refine ⟨_, H.exit_of_tables hx h (H.tables.dropOwner (H.base_ne_kern hx hbase)) (fun f hf => ?_) (fun hf => hf.dropTag _)
      fun hq hy => ?_⟩
    · exact ⟨H.untagged_of_dropped hx hf, H.not_pooled_of_dropped hx hf⟩
    · exact dropTag_eq_some.2 ⟨H.root hy, (H.apart hq.symm hx hy hbase).2.symm⟩
  · refine ⟨tag, H.exit_of_tables hx h H.tables (fun f hf => ⟨?_, H.not_pooled_of_dropped hx hf⟩) (fun hf => hf)
      fun _ hy => H.root hy⟩
    rcases H.frames hx hf with hfresh | ⟨rfl, -⟩
    · exact hfresh.untagged
    · exact absurd hf hbase

end Housed

/-! ### The loader -/

theorem userFrames_foldl_addUserFrame (frames : List Word) (x : Pcb) :
    (frames.foldl Pcb.addUserFrame x).userFrames ⊆ x.userFrames ++ frames := by
  rw [Pcb.foldl_addUserFrame]
  exact List.append_subset.2 ⟨List.subset_append_left _ _,
    List.Subset.trans (List.take_subset _ _) (List.subset_append_right _ _)⟩

/-- The records after a process has been spawned: those that were there, and one that owns its PML4 and its frames. -/
theorem spawn_records {s s₁ : Scheduler} {o : Word} {pid priority : Nat} {frames : List Word}
    (hadd : s.addRing3Process o = some (s₁, some pid)) {q : Nat} {x' : Pcb}
    (hx' : ((if 0 < priority then s₁.setPriority pid priority else s₁).registerUserFrames pid frames).getProcess q =
      some x') : (q ≠ pid ∧ s.getProcess q = some x') ∨
      (q = pid ∧ s.getProcess q = none ∧ x'.pageTableBase = o ∧ x'.droppedFrames ⊆ o :: frames) := by
  obtain ⟨-, -, ⟨hnone, -⟩ | ⟨hpid, -, hfree, id, rsp, hget⟩⟩ := Scheduler.addRing3Process_adds hadd
  · cases hnone
  · cases hpid
    have hprio : ∀ {q x}, (if 0 < priority then s₁.setPriority s.processTable.nextPid priority else s₁).getProcess q = some x →
        (q ≠ s.processTable.nextPid ∧ s.getProcess q = some x) ∨
        (q = s.processTable.nextPid ∧ x.pageTableBase = o ∧ x.userFrames = []) := by
      intro q x hx
      split at hx
      · unfold Scheduler.setPriority at hx
        rw [Scheduler.getProcess_update, hget] at hx
        split at hx
        · rename_i hq
          cases hx
          exact Or.inr ⟨hq, rfl, rfl⟩
        · rename_i hq
          exact Or.inl ⟨hq, hx⟩
      · rw [hget] at hx
        split at hx
        · rename_i hq
          cases hx
          exact Or.inr ⟨hq, rfl, rfl⟩
        · rename_i hq
          exact Or.inl ⟨hq, hx⟩
    unfold Scheduler.registerUserFrames at hx'
    rw [Scheduler.getProcess_update] at hx'
    split at hx'
    · rename_i hq
      obtain ⟨x, hx, rfl⟩ := Option.map_eq_some_iff.1 hx'
      rcases hprio hx with ⟨hne, -⟩ | ⟨-, hbase, hnil⟩
      · exact absurd hq hne
      · have hsub := userFrames_foldl_addUserFrame frames x
        rw [hnil, List.nil_append] at hsub
        obtain ⟨fs, hfs⟩ := Pcb.foldl_addUserFrame_eq frames x
        have hbase' : (frames.foldl Pcb.addUserFrame x).pageTableBase = o := by
          rw [hfs]
          exact hbase
        refine Or.inr ⟨hq, by rw [hq]; exact hfree, hbase', fun f hf => ?_⟩
        unfold Pcb.droppedFrames at hf
        simp only [hbase', Bool.true_and] at hf
        rcases List.mem_append.1 hf with hf | hf
        · exact List.mem_cons_of_mem _ (hsub hf)
        · split at hf
          · rw [List.mem_singleton.1 hf]
            exact List.mem_cons_self
          · cases hf
    · rename_i hq
      rcases hprio hx' with hold | ⟨heq, -⟩
      · exact Or.inl hold
      · exact absurd heq hq

namespace Housed

variable {k : Kernel} {tag : Tags}

/-- Whatever comes of it, spawning a process keeps the others where they are, and houses the new one. -/
theorem spawn (H : Housed k tag) {m' : Memory} {s' : Scheduler} {img : Image} {priority : Nat} {r : Option Nat}
    (h : Elf.spawnElf k.mem k.sched k.kernelPml4 img priority = some (m', s', r)) :
    ∃ tag', Housed { k with mem := m', sched := s' } tag' := by
  rcases Elf.spawnElf_cases H.tables h with ⟨-, hleaves, hs⟩ | ⟨pid, o, tag', D, frames, s₁, -, hspace, hsub, hadd, rfl⟩
  · refine ⟨tag, H.extend (Widens.of_data H.tables hleaves.consumes hleaves.ram).extend ?_⟩
    rcases hs with rfl | ⟨o, hadd⟩
    · exact .refl _
    · obtain ⟨-, -, ⟨-, -, hsame⟩ | ⟨hr, -⟩⟩ := Scheduler.addRing3Process_adds hadd
      · intro q x' hx'
        rw [hsame] at hx'
        exact ⟨x', hx', rfl, rfl⟩
      · cases hr
  · have hfresh : ∀ {f}, k.mem.Fresh tag f → m'.Fresh tag' f := fun hf =>
      ⟨hspace.spares hf, hf.reserved.consumes hspace.consumes, (hf.consumes hspace.consumes).not_pooled⟩
    -- nothing that another process has is among the frames of the new one
    have hown : ∀ {f}, f ∈ o :: D → ¬ k.mem.Reserved f ∧ tag f = none := by
      intro f hf
      rcases List.mem_cons.1 hf with rfl | hf
      · exact ⟨hspace.unreserved, hspace.untagged⟩
      · refine ⟨(hspace.data f hf).2, ?_⟩
        cases htag : tag f with
        | none => rfl
        | some t =>
          have hnone := (hspace.data f hf).1.untagged
          rw [hspace.grows.keeps htag] at hnone
          cases hnone
    have hold : ∀ {q x f}, k.sched.getProcess q = some x → f ∈ o :: D → f ∉ x.droppedFrames ∧ f ≠ x.pageTableBase := by
      intro q x f hx hf
      obtain ⟨hres, htag⟩ := hown hf
      have hbase : f ≠ x.pageTableBase := by
        rintro rfl
        rw [H.root hx] at htag
        cases htag
      refine ⟨fun hmem => ?_, hbase⟩
      rcases H.frames hx hmem with hfr | ⟨heq, -⟩
      · exact hres hfr.reserved
      · exact hbase heq
    have hdrop : ∀ {x' : Pcb}, x'.droppedFrames ⊆ o :: frames → ∀ {f}, f ∈ x'.droppedFrames → f ∈ o :: D := by
      intro x' hx' f hf
      rcases List.mem_cons.1 (hx' hf) with rfl | hf
      · exact List.mem_cons_self
      · exact hsub hf
    refine ⟨tag', hspace.tables, fun {q x'} hx' => ?_, fun {q x' f} hx' hf => ?_, fun {q r x' y' f} hqr hx' hy' hf => ?_⟩
    · rcases spawn_records hadd hx' with ⟨-, hx⟩ | ⟨-, -, hbase, -⟩
      · exact hspace.grows.keeps (H.root hx)
      · rw [hbase]
        exact hspace.root
    · rcases spawn_records hadd hx' with ⟨-, hx⟩ | ⟨-, -, hbase, hframes⟩
      · exact (H.frames hx hf).imp_left hfresh
      · rcases List.mem_cons.1 (hdrop hframes hf) with rfl | hD
        · exact Or.inr ⟨hbase.symm, hspace.ne_kern⟩
        · exact Or.inl (hspace.data f hD).1
    · rcases spawn_records hadd hx' with ⟨-, hx⟩ | ⟨rfl, -, -, hframes⟩
      · rcases spawn_records hadd hy' with ⟨-, hy⟩ | ⟨-, -, hbase, hframes'⟩
        · exact H.apart hqr hx hy hf
        · refine ⟨fun hmem => (hold hx (hdrop hframes' hmem)).1 hf, ?_⟩
          rintro rfl
          rw [hbase] at hf
          exact (hold hx List.mem_cons_self).1 hf
      · rcases spawn_records hadd hy' with ⟨-, hy⟩ | ⟨rfl, -⟩
        · exact hold hy (hdrop hframes hf)
        · exact absurd rfl hqr

end Housed

/-! ### Frames in other hands -/

/-- Besides the processes in their houses there are frames in use, `F`, that no process will give back. -/
structure Held (k : Kernel) (tag : Tags) (F : List Word) : Prop where
  housed : Housed k tag
  fresh : ∀ f ∈ F, k.mem.Fresh tag f
  unlisted : ∀ f ∈ F, ∀ q x, k.sched.getProcess q = some x → f ∉ x.droppedFrames
  nodup : F.Nodup

namespace Held

variable {k k' : Kernel} {tag tag' : Tags} {F F' : List Word}

theorem perm (h : Held k tag F) (hF : F.Perm F') : Held k tag F' :=
  ⟨h.housed, fun f hf => h.fresh f (hF.mem_iff.2 hf), fun f hf => h.unlisted f (hF.mem_iff.2 hf), hF.nodup_iff.1 h.nodup⟩

theorem widens (h : Held k tag F) {m' : Memory} {s' : Scheduler} (hw : Widens k.kernelPml4 k.mem tag m' tag')
    (hs : SameHouse k.sched s') : Held { k with mem := m', sched := s' } tag' F := by
  refine ⟨h.housed.extend hw.extend hs, fun f hf => hw.fresh (h.fresh f hf), fun f hf q x' hx' => ?_, h.nodup⟩
  obtain ⟨x, hx, -, hdrop⟩ := hs q x' hx'
  rw [hdrop]
  exact h.unlisted f hf q x hx

/-- A frame has been handed out. -/
theorem cons (h : Held k tag F) {m' : Memory} {s' : Scheduler} (hw : Widens k.kernelPml4 k.mem tag m' tag')
    (hs : SameHouse k.sched s') {f : Word} (hnew : ¬ k.mem.Fresh tag f) (hf : m'.Fresh tag' f) :
    Held { k with mem := m', sched := s' } tag' (f :: F) := by
  have h' := h.widens hw hs
  refine ⟨h'.housed, fun g hg => ?_, fun g hg q x' hx' => ?_, List.nodup_cons.2 ⟨fun hmem => hnew (h.fresh f hmem), h.nodup⟩⟩
  · rcases List.mem_cons.1 hg with rfl | hg
    · exact hf
    · exact h'.fresh g hg
  · rcases List.mem_cons.1 hg with rfl | hg
    · obtain ⟨x, hx, -, hdrop⟩ := hs q x' hx'
      rw [hdrop]
      intro hmem
      rcases h.housed.frames hx hmem with hfr | ⟨rfl, -⟩
      · exact hnew hfr
      · -- the PML4 of a process is not fresh
        have hnone := hf.untagged
        rw [hw.keeps (h.housed.root hx)] at hnone
        cases hnone
    · exact h'.unlisted g hg q x' hx'

/-- One of the frames is given back. -/
theorem giveBack (h : Held k tag F) {f : Word} (hf : f ∈ F) :
    Held { k with mem := k.mem.globalFree4k f } tag (F.erase f) := by
  have hfresh := h.fresh f hf
  have haddr : ∀ p ∈ [f], IsTableAddr p := fun p hp => by
    rw [List.mem_singleton.1 hp]
    exact hfresh.reserved.addr
  have hkeep : ∀ {g}, k.mem.Fresh tag g → g ≠ f → (k.mem.globalFree4k f).Fresh tag g :=
    fun hg hne => hg.release haddr (fun hmem => hne (List.mem_singleton.1 hmem))
  refine ⟨⟨h.housed.tables.release (D := [f]) fun p hp => ?_, h.housed.root, fun {q x g} hx hg => ?_, h.housed.apart⟩,
    fun g hg => ?_, fun g hg => h.unlisted g (List.mem_of_mem_erase hg), h.nodup.erase f⟩
  · rw [List.mem_singleton.1 hp]
    exact ⟨hfresh.reserved.addr, hfresh.untagged, hfresh.not_pooled⟩
  · refine (h.housed.frames hx hg).imp_left fun hfr => hkeep hfr ?_
    rintro rfl
    exact h.unlisted g hf q x hx hg
  · obtain ⟨hne, hmem⟩ := (h.nodup.mem_erase_iff).1 hg
    exact hkeep (h.fresh g hmem) hne

theorem exit (h : Held k tag F) {x : Pcb} (hx : k.sched.getProcess k.currentPid = some x) {ret : Ret}
    (hcall : k.sysExit = some (k', ret)) : ∃ tag', Held k' tag' F := by
  obtain ⟨tag', H', hkeep⟩ := h.housed.exit hx hcall
  refine ⟨tag', H', fun f hf => hkeep (h.fresh f hf) (h.unlisted f hf _ x hx), fun f hf q y' hy' => ?_, h.nodup⟩
  obtain ⟨-, y, hy, rfl | ⟨st, ct, rfl⟩⟩ := Housed.exit_records hcall hy'
  · exact h.unlisted f hf q y' hy
  · exact h.unlisted f hf q y hy

end Held

end Rost
