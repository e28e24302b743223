import Rost.Kernel.Accounting
import Rost.Kernel.Confinement
import Rost.Memory.UserPages

/-!
# Frame isolation

Which processes reach which frames.  `SYS_MAP_SHARE` takes a frame and hands out a capability for it, `SYS_CAP_GRANT`
copies capabilities, and `SYS_MAP_CAP` maps the frame of a capability: so two processes come to share a frame.  But
`SYS_MAP` also maps any frame whose address it is given, `SYS_REGISTER_FRAMES` records any frame as one to be given back
at exit, and a page may be mapped where the page tables are shared with the kernel.  In the runs that make no such use of
the calls (`OwnFrames`) a frame is shared only through capabilities, and what user mode reaches is not free
(`frames_isolated`).
-/

namespace Rost

open Lib (Run exec run_of_exec)
open Lib.TableTree (resolve descend)
open Lib.TableTree.Layout (dropTag dropTag_eq_some)
open Memory (Tables Builds OwnedPath Consumes Extends Sealed Opens PageAt)
open Scheduler (KeepsCaps GainsCap)
open Kernel (pageFlags mapFlags capFrame shareCap)

/-! ### Calls -/

/-- The calls that map, hand out, record and give back frames. -/
inductive FrameCall where
  | map (vaddr paddr flags : Word)
  | mapShare (vaddr flags : Word)
  | mapCap (vaddr slot flags : Word)
  | capGrant (slot toPid : Word)
  | allocPhys
  | registerFrames (pid ptr count : Word)
  | exit
deriving DecidableEq

namespace FrameCall

def request : FrameCall → Request
  | .map vaddr paddr flags => ⟨.map, vaddr, paddr, flags, 0, 0⟩
  | .mapShare vaddr flags => ⟨.mapShare, vaddr, flags, 0, 0, 0⟩
  | .mapCap vaddr slot flags => ⟨.mapCap, vaddr, slot, flags, 0, 0⟩
  | .capGrant slot toPid => ⟨.capGrant, slot, toPid, 0, 0, 0⟩
  | .allocPhys => ⟨.allocPhys, 0, 0, 0, 0, 0⟩
  | .registerFrames pid ptr count => ⟨.registerFrames, pid, ptr, count, 0, 0⟩
  | .exit => ⟨.exit, 0, 0, 0, 0, 0⟩

def isShare : FrameCall → Bool
  | .mapShare _ _ => true
  | _ => false

end FrameCall

/-- How a call ends. -/
structure FrameOutcome where
  ret : Ret
  /-- The data frame that it has taken from the bitmap. -/
  drawn : Option Word
  /-- The frame of the capability that it has mapped. -/
  viaCap : Option Word
deriving DecidableEq

/-- A call of a process, with its end. -/
abbrev FrameEvent := (Nat × FrameCall) × FrameOutcome

namespace Kernel

def drawn (k : Kernel) : FrameCall → Option Word
  | .map vaddr paddr flags => if paddr = 0 then k.draws (.map vaddr flags) else none
  | .mapShare vaddr flags => k.draws (.mapShare vaddr flags)
  | .allocPhys => k.mem.globalAlloc4k.2
  | _ => none

def viaCap (k : Kernel) (c : FrameCall) (ret : Ret) : Option Word :=
  match c with
  | .mapCap _ slot _ => if ret = .value 0 then (k.sched.capSlotInfo k.currentPid slot.toNat).map capFrame else none
  | _ => none

/-- A call of any process. -/
def frameStep (k : Kernel) (i : Nat × FrameCall) : Option (Kernel × FrameOutcome) :=
  ((k.calledBy i.1).dispatch i.2.request).map fun out =>
    (out.1, ⟨out.2, (k.calledBy i.1).drawn i.2, (k.calledBy i.1).viaCap i.2 out.2⟩)

end Kernel

/-! ### The history of a frame -/

/-- The process that has taken the frame with `SYS_MAP_SHARE`, if the frame was last taken so. -/
def sharer (f : Word) (es : List FrameEvent) : Option Nat :=
  es.foldl (fun r e => if e.2.drawn = some f then if e.1.2.isShare then some e.1.1 else none else r) none

/-- Since the frame was last taken, the process has mapped it with a capability. -/
def capMapped (f : Word) (q : Nat) (es : List FrameEvent) : Bool :=
  es.foldl (fun b e => if e.2.drawn = some f then false else b || (decide (e.1.1 = q) && decide (e.2.viaCap = some f))) false

/-- The process has taken the frame with `SYS_MAP_SHARE`, or has got it with a capability. -/
def Came (es : List FrameEvent) (q : Nat) (f : Word) : Prop := ∃ r, sharer f es = some r ∧ (q = r ∨ capMapped f q es = true)

/-- A frame that user mode reaches in two processes was taken by `SYS_MAP_SHARE`, and each of the two took it or mapped it
with a capability; and no frame that user mode reaches is free. -/
structure FrameIsolation (es : List FrameEvent) (k : Kernel) : Prop where
  shared : ∀ {p q x y f}, p ≠ q → k.sched.getProcess p = some x → k.sched.getProcess q = some y →
    k.mem.Accessible x.pageTableBase f → k.mem.Accessible y.pageTableBase f → Came es p f ∧ Came es q f
  not_free : ∀ {p x f idx}, k.sched.getProcess p = some x → k.mem.Accessible x.pageTableBase f → idx < maxTrackedFrames →
    k.mem.frameAddr idx = f → k.mem.isFree idx = false

section History

variable {es : List FrameEvent} {e : FrameEvent} {f : Word} {q : Nat}

theorem sharer_snoc (h : e.2.drawn ≠ some f) : sharer f (es ++ [e]) = sharer f es := by
  unfold sharer
  rw [List.foldl_append]
  exact if_neg h

theorem sharer_of_share (h : e.2.drawn = some f) (hshare : e.1.2.isShare = true) : sharer f (es ++ [e]) = some e.1.1 := by
  unfold sharer
  rw [List.foldl_append]
  exact (if_pos h).trans (if_pos hshare)

theorem capMapped_snoc (h : e.2.drawn ≠ some f) (hq : capMapped f q es = true) : capMapped f q (es ++ [e]) = true := by
  unfold capMapped at hq ⊢
  rw [List.foldl_append]
  refine (if_neg h).trans ?_
  rw [hq, Bool.true_or]

theorem capMapped_of_viaCap (h : e.2.drawn ≠ some f) (hq : e.1.1 = q) (hcap : e.2.viaCap = some f) :
    capMapped f q (es ++ [e]) = true := by
  unfold capMapped
  rw [List.foldl_append]
  refine (if_neg h).trans ?_
  rw [decide_eq_true hq, decide_eq_true hcap, Bool.and_true, Bool.or_true]

theorem Came.snoc (h : Came es q f) (he : e.2.drawn ≠ some f) : Came (es ++ [e]) q f := by
  obtain ⟨r, hr, hq⟩ := h
  exact ⟨r, (sharer_snoc he).trans hr, hq.imp_right (capMapped_snoc he)⟩

end History

/-! ### Keeping to one's own frames -/

namespace Kernel

/-- There is a memory capability for the frame. -/
def HasMemoryCap (k : Kernel) (f : Word) : Prop :=
  ∃ q slot c, k.sched.capSlotInfo q slot = some c ∧ c.kind = .memory ∧ capFrame c = f

/-- Another process than `pid` has mapped the frame for user mode, or gives it back when it ends. -/
def UsedBeside (k : Kernel) (pid : Nat) (f : Word) : Prop :=
  ∃ q y, q ≠ pid ∧ k.sched.getProcess q = some y ∧ (k.mem.UserMaps y.pageTableBase f ∨ f ∈ y.droppedFrames)

/-- The PML4s of the kernel and of the processes. -/
def roots (k : Kernel) : List Word := k.kernelPml4 :: k.sched.processTable.live.map Pcb.pageTableBase

/-- The current process runs on page tables of its own, and the kernel does not cover the address. -/
def OwnPage (k : Kernel) (vaddr : Word) : Prop :=
  k.cr3 ≠ k.kernelPml4 ∧ k.mem.kernelCovers k.kernelPml4 vaddr = false

instance (k : Kernel) (vaddr : Word) : Decidable (k.OwnPage vaddr) := inferInstanceAs (Decidable (_ ∧ _))

/-- The frames that `SYS_REGISTER_FRAMES` finds in its array. -/
def framesArg (k : Kernel) (ptr count : Word) : Option (List Word) :=
  (k.mem.loadBytes k.cr3 ptr (min count.toNat 128 * 8)).map fun bytes =>
    (List.range (min count.toNat 128)).map fun i => BitVec.ofNat 64 (field bytes (8 * i) 8)

/-- A frame in use that is no page table, that no other process uses and for which there is no capability. -/
structure Unclaimed (k : Kernel) (pid : Nat) (f : Word) : Prop where
  reserved : k.mem.Reserved f
  alone : ¬ k.UsedBeside pid f
  no_cap : ¬ k.HasMemoryCap f

/-- Unless it is refused for its arguments, a call maps a page at an address of the caller's own; for user mode it maps a
frame that the caller has mapped already, or that nobody else has; and it records such frames. -/
def OwnFrames (k : Kernel) : FrameCall → Prop
  | .map vaddr paddr flags => validateUserVaddr vaddr = true → k.OwnPage vaddr ∧ (paddr ≠ 0 → flags &&& 2 ≠ 0 →
      k.mem.UserMaps k.cr3 (paddr &&& pteAddrMask) ∨ k.Unclaimed k.currentPid (paddr &&& pteAddrMask))
  | .mapShare vaddr _ | .mapCap vaddr _ _ => validateUserVaddr vaddr = true → k.OwnPage vaddr
  | .registerFrames pid ptr count => ∀ y frames, k.sched.getProcess (u32 pid) = some y →
      k.framesArg ptr count = some frames → ∀ f ∈ frames,
        k.Unclaimed (u32 pid) f ∧ ¬ k.mem.IsTable k.roots f ∧ f ∉ k.mem.ptPool
  | _ => True

end Kernel

/-! ### The invariant -/

/-- The processes are housed on PML4s of their own (or on the kernel's), nothing that they share with the kernel is open
to user mode, and what is open in a process is in use and will not be given back by another one.  Frame numbers fit into
the 32 bits of a capability. -/
structure Separate (k : Kernel) (tag : Tags) : Prop extends Housed k tag where
  closed : k.mem.Sealed k.kernelPml4 tag
  owner : ∀ {f t}, tag f = some t → t.1 = k.kernelPml4 ∨ ∃ q x, k.sched.getProcess q = some x ∧ x.pageTableBase = t.1
  distinct : ∀ {q r x y}, q ≠ r → k.sched.getProcess q = some x → k.sched.getProcess r = some y →
    x.pageTableBase = y.pageTableBase → x.pageTableBase = k.kernelPml4
  below : k.mem.region.base + k.mem.region.size ≤ 2 ^ 44
  opened : ∀ {q x f}, k.sched.getProcess q = some x → Opens k.mem tag x.pageTableBase f →
    k.mem.Reserved f ∧ ∀ r y, r ≠ q → k.sched.getProcess r = some y → f ∉ y.droppedFrames

/-- The processes have not shared anything yet. -/
structure Unshared (k : Kernel) (tag : Tags) : Prop extends Separate k tag where
  alone : ∀ {q r x y f}, q ≠ r → k.sched.getProcess q = some x → k.sched.getProcess r = some y →
    Opens k.mem tag x.pageTableBase f → ¬ Opens k.mem tag y.pageTableBase f
  no_caps : ∀ f, ¬ k.HasMemoryCap f

/-- The frame is open in no other process than `pid`. -/
def OpenOnlyTo (k : Kernel) (tag : Tags) (pid : Nat) (f : Word) : Prop :=
  ∀ r y, r ≠ pid → k.sched.getProcess r = some y → ¬ Opens k.mem tag y.pageTableBase f

/-- What holds along a run: a capability is for a frame that was taken by `SYS_MAP_SHARE` and is still in use, and a frame
that is open in a process came there as a shared one, or is open only there. -/
structure Isolated (es : List FrameEvent) (k : Kernel) (tag : Tags) : Prop extends Separate k tag where
  caps : ∀ {f}, k.HasMemoryCap f →
    k.mem.Reserved f ∧ (∀ r y, k.sched.getProcess r = some y → f ∉ y.droppedFrames) ∧ sharer f es ≠ none
  came : ∀ {q x f}, k.sched.getProcess q = some x → Opens k.mem tag x.pageTableBase f →
    Came es q f ∨ (OpenOnlyTo k tag q f ∧ ¬ k.HasMemoryCap f)

theorem Unshared.isolated {k : Kernel} {tag : Tags} (h : Unshared k tag) : Isolated [] k tag := by
  refine ⟨h.toSeparate, fun hcap => absurd hcap (h.no_caps _), fun hx hf => Or.inr ⟨fun r y hr hy => ?_, h.no_caps _⟩⟩
  exact h.alone hr.symm hx hy hf

theorem Isolated.calledBy {es : List FrameEvent} {k : Kernel} {tag : Tags} (I : Isolated es k tag) (pid : Nat) :
    Isolated es (k.calledBy pid) tag :=
  ⟨⟨⟨I.tables, I.root, I.frames, I.apart⟩, I.closed, I.owner, I.distinct, I.below, I.opened⟩, I.caps, I.came⟩

/-- So the frames are isolated. -/
theorem Isolated.frameIsolation {es : List FrameEvent} {k : Kernel} {tag : Tags} (I : Isolated es k tag) :
    FrameIsolation es k := by
  have hopens : ∀ {p x f}, k.sched.getProcess p = some x → k.mem.Accessible x.pageTableBase f →
      Opens k.mem tag x.pageTableBase f := fun hx h => I.closed.opens_of_accessible I.tables (I.root hx) h
  refine ⟨fun hpq hx hy hp hq => ⟨?_, ?_⟩, fun hx hp hlt haddr => ?_⟩
  · rcases I.came hx (hopens hx hp) with hcame | ⟨honly, -⟩
    · exact hcame
    · exact absurd (hopens hy hq) (honly _ _ hpq.symm hy)
  · rcases I.came hy (hopens hy hq) with hcame | ⟨honly, -⟩
    · exact hcame
    · exact absurd (hopens hx hp) (honly _ _ hpq hx)
  · exact (I.opened hx (hopens hx hp)).1.not_free _ hlt haddr

/-! ### One step -/

section Advance

variable {es : List FrameEvent} {e : FrameEvent} {k : Kernel} {tag tag' : Tags} {m' : Memory} {s' : Scheduler} {x : Pcb}
  {new : Word → Prop}

private theorem cr3_of_current (hx : k.sched.getProcess k.currentPid = some x) : k.cr3 = x.pageTableBase := by
  unfold Kernel.cr3 Scheduler.getProcessPml4
  rw [hx]
  rfl

/-- Page tables have been built for the current process, in which the frames `new` are open now. -/
structure Proceeds (k : Kernel) (tag : Tags) (m' : Memory) (tag' : Tags) (new : Word → Prop) : Prop where
  extend : Extends k.kernelPml4 k.mem tag m' tag'
  closed : Sealed m' k.kernelPml4 tag'
  owner : ∀ {f t}, tag' f = some t → tag f = some t ∨ t.1 = k.cr3
  opens : ∀ {q x f}, k.sched.getProcess q = some x → Opens m' tag' x.pageTableBase f →
    Opens k.mem tag x.pageTableBase f ∨ (q = k.currentPid ∧ new f)

/-- The processes stay separate, if the new frames are in use and nobody else will give them back. -/
theorem Separate.proceed (S : Separate k tag) (hx : k.sched.getProcess k.currentPid = some x)
    (hp : Proceeds k tag m' tag' new) (hs : SameHouse k.sched s' ∧ SameHouse s' k.sched)
    (hnew : ∀ f, new f → m'.Reserved f ∧ ∀ r y, r ≠ k.currentPid → k.sched.getProcess r = some y → f ∉ y.droppedFrames) :
    Separate { k with mem := m', sched := s' } tag' := by
  refine ⟨S.toHoused.extend hp.extend hs.1, hp.closed, fun {f t} hf => ?_, fun {q r y' z'} hqr hy' hz' hbase => ?_, ?_,
    fun {q y' f} hy' hf => ?_⟩
  · have hlive : t.1 = k.kernelPml4 ∨ ∃ q y, k.sched.getProcess q = some y ∧ y.pageTableBase = t.1 := by
      rcases hp.owner hf with hold | hown
      · exact S.owner hold
      · exact Or.inr ⟨_, x, hx, by rw [hown, cr3_of_current hx]⟩
    rcases hlive with hkern | ⟨q, y, hy, hbase⟩
    · exact Or.inl hkern
    · obtain ⟨y', hy', hsame, -⟩ := hs.2 q y hy
      exact Or.inr ⟨q, y', hy', hsame ▸ hbase⟩
  · obtain ⟨y, hy, hbase₁, -⟩ := hs.1 q y' hy'
    obtain ⟨z, hz, hbase₂, -⟩ := hs.1 r z' hz'
    rw [hbase₁, hbase₂] at hbase
    rw [hbase₁]
    exact S.distinct hqr hy hz hbase
  · rw [hp.extend.consumes.region]
    exact S.below
  · obtain ⟨y, hy, hbase, -⟩ := hs.1 q y' hy'
    rw [hbase] at hf
    have hopen : m'.Reserved f ∧ ∀ r z, r ≠ q → k.sched.getProcess r = some z → f ∉ z.droppedFrames := by
      rcases hp.opens hy hf with hold | ⟨rfl, hf⟩
      · obtain ⟨hres, hdrop⟩ := S.opened hy hold
        exact ⟨hres.consumes hp.extend.consumes, hdrop⟩
      · exact hnew f hf
    refine ⟨hopen.1, fun r z' hr hz' => ?_⟩
    obtain ⟨z, hz, -, hdrop⟩ := hs.1 r z' hz'
    rw [hdrop]
    exact hopen.2 r z hr hz

/-- A frame in the tables `s'` that was there before, or one that was free. -/
def CapsFrom (k : Kernel) (s' : Scheduler) (fresh : Word → Prop) : Prop :=
  ∀ f, Kernel.HasMemoryCap { k with sched := s' } f → k.HasMemoryCap f ∨ fresh f

/-- One step of a run. -/
theorem Isolated.proceed (I : Isolated es k tag) (hx : k.sched.getProcess k.currentPid = some x)
    (hp : Proceeds k tag m' tag' new) (hs : SameHouse k.sched s' ∧ SameHouse s' k.sched)
    (hdrawn : ∀ f, e.2.drawn = some f → ¬ k.mem.Reserved f) {fresh : Word → Prop} (hcaps : CapsFrom k s' fresh)
    (hfresh : ∀ f, fresh f → m'.Reserved f ∧ ¬ k.mem.Reserved f ∧ sharer f (es ++ [e]) ≠ none)
    (hnew : ∀ f, new f → m'.Reserved f ∧ (∀ r y, r ≠ k.currentPid → k.sched.getProcess r = some y → f ∉ y.droppedFrames) ∧
      ((k.HasMemoryCap f ∧ Came (es ++ [e]) k.currentPid f) ∨
        (OpenOnlyTo k tag k.currentPid f ∧ (Came (es ++ [e]) k.currentPid f ∨ (¬ k.HasMemoryCap f ∧ ¬ fresh f))))) :
    Isolated (es ++ [e]) { k with mem := m', sched := s' } tag' := by
  have hpast : ∀ {f}, k.mem.Reserved f → e.2.drawn ≠ some f := fun hres hd => hdrawn _ hd hres
  have hnotcap : ∀ {f}, ¬ k.HasMemoryCap f → ¬ fresh f → ¬ Kernel.HasMemoryCap { k with mem := m', sched := s' } f := by
    intro f hcap hf h
    rcases hcaps f h with hold | hnew
    · exact hcap hold
    · exact hf hnew
  refine ⟨I.toSeparate.proceed hx hp hs fun f hf => ⟨(hnew f hf).1, (hnew f hf).2.1⟩, fun {f} hcap => ?_,
    fun {q y' f} hy' hf => ?_⟩
  · have hdropped : k.mem.Reserved f ∧ sharer f (es ++ [e]) ≠ none ∧ (∀ r y, k.sched.getProcess r = some y → f ∉ y.droppedFrames) ∨
        ¬ k.mem.Reserved f ∧ m'.Reserved f ∧ sharer f (es ++ [e]) ≠ none := by
      rcases hcaps f hcap with hold | hf
      · obtain ⟨hres, hdrop, hsharer⟩ := I.caps hold
        exact Or.inl ⟨hres, by rw [sharer_snoc (hpast hres)]; exact hsharer, hdrop⟩
      · exact Or.inr ⟨(hfresh f hf).2.1, (hfresh f hf).1, (hfresh f hf).2.2⟩
    rcases hdropped with ⟨hres, hsharer, hdrop⟩ | ⟨hres, hres', hsharer⟩
    · refine ⟨hres.consumes hp.extend.consumes, fun r y' hy' => ?_, hsharer⟩
      obtain ⟨y, hy, -, hsame⟩ := hs.1 r y' hy'
      rw [hsame]
      exact hdrop r y hy
    · refine ⟨hres', fun r y' hy' => ?_, hsharer⟩
      obtain ⟨y, hy, -, hsame⟩ := hs.1 r y' hy'
      rw [hsame]
      exact fun hmem => hres (I.toHoused.reserved_of_dropped hy hmem)
  · obtain ⟨y, hy, hbase, -⟩ := hs.1 q y' hy'
    rw [hbase] at hf
    -- who else has the frame open now
    have hothers : ∀ {f}, OpenOnlyTo k tag q f → (q ≠ k.currentPid → ¬ new f) →
        OpenOnlyTo { k with mem := m', sched := s' } tag' q f := by
      intro f honly hnot r z' hr hz' hopens
      obtain ⟨z, hz, hbase', -⟩ := hs.1 r z' hz'
      rw [hbase'] at hopens
      rcases hp.opens hz hopens with hold | ⟨rfl, hf⟩
      · exact honly r z hr hz hold
      · exact hnot hr.symm hf
    rcases hp.opens hy hf with hold | ⟨rfl, hf⟩
    · have hres := (I.opened hy hold).1
      rcases I.came hy hold with hcame | ⟨honly, hcap⟩
      · exact Or.inl (hcame.snoc (hpast hres))
      · refine Or.inr ⟨hothers honly fun hq hf => ?_, hnotcap hcap fun hf => (hfresh f hf).2.1 hres⟩
        rcases (hnew f hf).2.2 with ⟨hhas, -⟩ | ⟨honly', -⟩
        · exact hcap hhas
        · exact honly' q y hq hy hold
    · rcases (hnew f hf).2.2 with ⟨-, hcame⟩ | ⟨honly, hcame | ⟨hcap, hnot⟩⟩
      · exact Or.inl hcame
      · exact Or.inl hcame
      · exact Or.inr ⟨hothers honly fun hq => absurd rfl hq, hnotcap hcap hnot⟩

end Advance

/-! ### What the calls do to the page tables -/

section Proceeds

variable {k : Kernel} {tag tag' : Tags} {m' : Memory} {x : Pcb} {new : Word → Prop}

/-- Nothing has been written into page tables. -/
theorem Proceeds.of_data (S : Separate k tag)
    (hb : Builds (fun _ _ => False) k.kernelPml4 (~~~k.kernelPml4) k.mem tag m' tag) :
    Proceeds k tag m' tag fun _ => False := by
  have hne : ~~~k.kernelPml4 ≠ k.kernelPml4 := by
    intro heq
    have hbit : (~~~k.kernelPml4).getLsbD 0 = k.kernelPml4.getLsbD 0 := by rw [heq]
    simp at hbit
  refine ⟨hb.extend, S.closed.builds hb hne fun _ _ h => h.elim, Or.inl, fun _ hf => ?_⟩
  rcases Opens.of_builds hb hf with hold | ⟨-, _, _, h, -⟩
  · exact Or.inl hold
  · exact h.elim

theorem Proceeds.refl (S : Separate k tag) : Proceeds k tag k.mem tag fun _ => False := .of_data S (.refl S.tables)

/-- A frame that has been open before is not new. -/
theorem Proceeds.unopened (hp : Proceeds k tag m' tag' new) (hx : k.sched.getProcess k.currentPid = some x) :
    Proceeds k tag m' tag' fun f => new f ∧ ¬ Opens k.mem tag k.cr3 f := by
  refine ⟨hp.extend, hp.closed, hp.owner, fun {q y f} hy hf => ?_⟩
  by_cases hold : Opens k.mem tag y.pageTableBase f
  · exact Or.inl hold
  · rcases hp.opens hy hf with h | ⟨rfl, hnew⟩
    · exact Or.inl h
    · rw [hx] at hy
      cases hy
      exact Or.inr ⟨rfl, hnew, by rw [cr3_of_current hx]; exact hold⟩

/-- The frame has been found in `m₁`, `map_page_global` runs. -/
theorem Proceeds.of_map (S : Separate k tag) (hx : k.sched.getProcess k.currentPid = some x) {vaddr phys bits : Word}
    {user ok : Bool} {m₁ : Memory} (hpage : k.OwnPage vaddr)
    (hb₁ : ∀ W, Builds W k.kernelPml4 k.cr3 k.mem tag m₁ tag)
    (hmap : m₁.mapPageGlobal k.cr3 vaddr phys (pageFlags user bits) = (m', ok)) :
    ∃ tag', Proceeds k tag m' tag' fun f => ok = true ∧ user = true ∧ f = phys &&& pteAddrMask := by
  obtain ⟨hne, hcov⟩ := hpage
  obtain ⟨haddr, -, huser⟩ := Kernel.pageFlags_cases user bits
  have hroot : tag k.cr3 = some (k.cr3, []) := S.toHoused.cr3_root
  let W : List (Fin 512) → Word → Prop := fun q e => ok = true ∧ PageAt vaddr phys (pageFlags user bits) q e
  have hlen : ∀ q e, W q e → q.length = 4 := fun _ _ h => h.2.length
  have hpath := (S.tables.ownedPath hne hcov).builds (hb₁ W) hlen
  obtain ⟨tag', hb₂⟩ := (hb₁ W).tables.mapPageGlobal_writes hroot hpath hlen (fun hok => ⟨hok, rfl, rfl⟩) hmap
  have hb := (hb₁ W).trans hb₂
  refine ⟨tag', hb.extend, S.closed.builds hb hne hlen, hb.grows.new, fun {q y f} hy hf => ?_⟩
  rcases Opens.of_builds hb hf with hold | ⟨hbase, path, e, ⟨hok, -, rfl⟩, hopen, rfl⟩
  · exact Or.inl hold
  · have hmask : Memory.pageEntry phys (pageFlags user bits) &&& pteAddrMask = phys &&& pteAddrMask :=
      Memory.pageEntry_and haddr phys
    have huser' : pageFlags user bits &&& pteUser ≠ 0 := fun hzero => hopen ((Memory.pageEntry_user phys _).trans hzero)
    refine Or.inr ⟨?_, hok, huser huser', hmask⟩
    by_contra hq
    refine hne ?_
    rw [cr3_of_current hx] at hbase ⊢
    exact (S.distinct hq hy hx hbase) ▸ hbase.symm

end Proceeds

/-! ### The calls -/

section Calls

variable {es : List FrameEvent} {k k' : Kernel} {tag : Tags} {x : Pcb} {ret : Ret}

/-- The call of the current process, as it stands in the history. -/
def Kernel.event (k : Kernel) (c : FrameCall) (ret : Ret) : FrameEvent :=
  ((k.currentPid, c), ⟨ret, k.drawn c, k.viaCap c ret⟩)

/-- What is taken was not in use. -/
theorem Kernel.not_reserved_of_drawn {c : FrameCall} {f : Word} (h : (k.event c ret).2.drawn = some f) :
    ¬ k.mem.Reserved f := by
  have halloc : k.mem.globalAlloc4k.2 = some f := by
    have hdrawn : k.drawn c = some f := h
    cases c with
    | map vaddr paddr flags =>
      unfold Kernel.drawn at hdrawn
      simp only at hdrawn
      split at hdrawn
      · exact (Kernel.draws_eq_some hdrawn).2
      · cases hdrawn
    | mapShare vaddr flags =>
      have hdraws : k.draws (.mapShare vaddr flags) = some f := hdrawn
      exact (Kernel.draws_eq_some hdraws).2
    | allocPhys => exact hdrawn
    | mapCap | capGrant | registerFrames | exit => cases hdrawn
  have hpair : k.mem.globalAlloc4k = (k.mem.globalAlloc4k.1, some f) := by rw [← halloc]
  exact Memory.not_reserved_of_globalAlloc4k hpair

private theorem capsFrom_of_keeps {s' : Scheduler} (h : KeepsCaps k.sched s') : CapsFrom k s' fun _ => False := by
  rintro f ⟨q, slot, c, hc, hkind, hf⟩
  exact Or.inl ⟨q, slot, c, h q slot c hc, hkind, hf⟩

/-- A call that changes no page table and adds no capability. -/
private theorem Isolated.quiet (I : Isolated es k tag) (hx : k.sched.getProcess k.currentPid = some x) (c : FrameCall)
    {m' : Memory} (hp : Proceeds k tag m' tag fun _ => False) :
    Isolated (es ++ [k.event c ret]) { k with mem := m' } tag :=
  I.proceed hx hp ⟨.refl k.sched, .refl k.sched⟩ (fun _ => Kernel.not_reserved_of_drawn)
    (capsFrom_of_keeps (.refl k.sched)) (fun _ h => h.elim) fun _ h => h.elim

/-- What is open, or named by a capability, is in use: so it is not what the bitmap hands out. -/
private theorem Isolated.unused (I : Isolated es k tag) {f : Word} (hf : ¬ k.mem.Reserved f) (pid : Nat) :
    OpenOnlyTo k tag pid f ∧ ¬ k.HasMemoryCap f ∧ ∀ r y, k.sched.getProcess r = some y → f ∉ y.droppedFrames :=
  ⟨fun _ _ _ hy hopens => hf (I.opened hy hopens).1, fun hcap => hf (I.caps hcap).1,
    fun _ _ hy hmem => hf (I.toHoused.reserved_of_dropped hy hmem)⟩

/-- `SYS_ALLOC_PHYS` -/
theorem Isolated.sysAllocPhys (I : Isolated es k tag) (hx : k.sched.getProcess k.currentPid = some x)
    (h : k.sysAllocPhys = some (k', ret)) : Isolated (es ++ [k.event .allocPhys ret]) k' tag := by
  unfold Kernel.sysAllocPhys at h
  split at h
  · rename_i m p halloc
    cases h
    refine I.quiet hx _ (.of_data I.toSeparate ?_)
    exact Kernel.builds_frame I.tables halloc (.zeroFrame m p) fun f hf j => by rw [Memory.zeroFrame_ram, if_neg hf]
  · rename_i m halloc
    cases h
    rw [Memory.globalAlloc4k_eq_none halloc]
    exact I.quiet hx _ (.refl I.toSeparate)

/-- A frame from the bitmap, after it has been filled and mapped. -/
private theorem reserved_of_drawn {f : Word} {m₀ m₁ m' : Memory} {vaddr flags : Word} {ok : Bool}
    (T : Tables k.mem k.kernelPml4 tag) (halloc : k.mem.globalAlloc4k = (m₀, some f)) (hcons : Consumes m₀ m₁)
    (hmap : m₁.mapPageGlobal k.cr3 vaddr f flags = (m', ok)) : m'.Reserved f ∧ f &&& pteAddrMask = f := by
  have hcons' := Consumes.mapPageGlobal m₁ k.cr3 vaddr f flags
  rw [hmap] at hcons'
  have hres := (T.globalAlloc4k halloc).2.1.reserved
  exact ⟨(hres.consumes hcons).consumes hcons', hres.addr⟩

/-- A mapped page of `SYS_MAP`. -/
private theorem Isolated.map_proceed (I : Isolated es k tag) (hx : k.sched.getProcess k.currentPid = some x)
    {vaddr paddr flags phys : Word} (hown : k.OwnFrames (.map vaddr paddr flags)) (hvalid : validateUserVaddr vaddr = true)
    {m₁ m' : Memory}
    (hphys : (paddr ≠ 0 ∧ phys = paddr ∧ m₁ = k.mem) ∨
      (paddr = 0 ∧ ∃ m₀, k.mem.globalAlloc4k = (m₀, some phys) ∧ m₁ = m₀.frameTag phys .userOwned)) {ok : Bool}
    (hmap : m₁.mapPageGlobal k.cr3 vaddr phys (mapFlags flags) = (m', ok)) {s' : Scheduler}
    (hs : SameHouse k.sched s' ∧ SameHouse s' k.sched) (hkeep : KeepsCaps k.sched s') :
    ∃ tag', Isolated (es ++ [k.event (.map vaddr paddr flags) ret]) { k with mem := m', sched := s' } tag' := by
  have hcons := Consumes.mapPageGlobal m₁ k.cr3 vaddr phys (mapFlags flags)
  rw [hmap] at hcons
  have hb₁ : ∀ W, Builds W k.kernelPml4 k.cr3 k.mem tag m₁ tag := by
    intro W
    rcases hphys with ⟨-, -, rfl⟩ | ⟨-, m₀, halloc, rfl⟩
    · exact .refl I.tables
    · exact Kernel.builds_frame I.tables halloc (.frameTag m₀ phys .userOwned) fun f _ j => by rw [Memory.frameTag_ram]
  obtain ⟨tag', hp⟩ := Proceeds.of_map I.toSeparate hx (hown hvalid).1 hb₁ hmap
  refine ⟨tag', I.proceed hx (hp.unopened hx) hs (fun _ => Kernel.not_reserved_of_drawn) (capsFrom_of_keeps hkeep)
    (fun _ h => h.elim) ?_⟩
  rintro f ⟨⟨-, huser, rfl⟩, hclosed⟩
  rcases hphys with ⟨hgiven, rfl, rfl⟩ | ⟨-, m₀, halloc, rfl⟩
  · -- the caller has given the frame
    rcases (hown hvalid).2 hgiven (of_decide_eq_true huser) with hmapped | ⟨hres, halone, hcap⟩
    · exact absurd ((I.closed.userMaps_iff I.tables I.toHoused.cr3_root).1 hmapped) hclosed
    · refine ⟨hres.consumes hcons, fun r y hr hy hmem => halone ⟨r, y, hr, hy, Or.inr hmem⟩,
        Or.inr ⟨fun r y hr hy hopens => ?_, Or.inr ⟨hcap, fun h => h.elim⟩⟩⟩
      exact halone ⟨r, y, hr, hy, Or.inl ((I.closed.userMaps_iff I.tables (I.root hy)).2 hopens)⟩
  · -- the frame comes from the bitmap
    obtain ⟨hres, hmask⟩ := reserved_of_drawn I.tables halloc (.frameTag m₀ phys .userOwned) hmap
    rw [hmask]
    obtain ⟨honly, hcap, hdrop⟩ := I.unused (Memory.not_reserved_of_globalAlloc4k halloc) k.currentPid
    exact ⟨hres, fun r y _ hy => hdrop r y hy, Or.inr ⟨honly, Or.inr ⟨hcap, fun h => h.elim⟩⟩⟩

/-- `SYS_MAP` -/
theorem Isolated.sysMap (I : Isolated es k tag) (hx : k.sched.getProcess k.currentPid = some x) {vaddr paddr flags : Word}
    (hown : k.OwnFrames (.map vaddr paddr flags)) (h : k.sysMap vaddr paddr flags = some (k', ret)) :
    ∃ tag', Isolated (es ++ [k.event (.map vaddr paddr flags) ret]) k' tag' := by
  have hkeep : KeepsCaps k.sched k'.sched := by
    have hcall : k.dispatch (FrameCall.map vaddr paddr flags).request = some (k', ret) := h
    exact Kernel.keepsCaps_dispatch rfl hcall
  rcases Kernel.sysMap_cases h with ⟨rfl, -⟩ | ⟨phys, m₁, m', hvalid, -, hphys, ⟨hmap, rfl, -⟩ | ⟨hmap, rfl, -⟩⟩
  · exact ⟨tag, I.quiet hx _ (.refl I.toSeparate)⟩
  · exact I.map_proceed hx hown hvalid hphys hmap (sameHouse_useMemoryPage k.sched k.currentPid) hkeep
  · exact I.map_proceed hx hown hvalid hphys hmap ⟨.refl k.sched, .refl k.sched⟩ hkeep

/-- A frame below 16 TB is the frame of its capability. -/
private theorem capFrame_shareCap {f : Word} (hf : IsTableAddr f) (hlt : f.toNat < 2 ^ 44) : capFrame (shareCap f) = f := by
  have hmod := hf.toNat_mod
  apply BitVec.eq_of_toNat_eq
  unfold Kernel.capFrame Kernel.shareCap u32
  simp only
  rw [BitVec.toNat_shiftLeft, BitVec.toNat_ofNat, BitVec.toNat_ushiftRight, Nat.shiftRight_eq_div_pow, Nat.shiftLeft_eq]
  omega

/-- What the bitmap hands out lies in its region. -/
private theorem lt_of_globalAlloc4k {m m' : Memory} {f : Word} (h : m.globalAlloc4k = (m', some f)) :
    f.toNat < m.region.base + m.region.size := by
  rcases m.globalAlloc4k_cases with ⟨-, heq⟩ | ⟨idx, ⟨hlt, -, hend⟩, haddr, -⟩
  · rw [heq] at h
    cases h
  · rw [h] at haddr
    cases haddr
    rw [m.toNat_frameAddr hlt]
    exact hend

/-- A page of `SYS_MAP_SHARE`; the capability for it may have been installed. -/
private theorem Isolated.share_proceed (I : Isolated es k tag) (hx : k.sched.getProcess k.currentPid = some x)
    {vaddr flags f : Word} (hpage : k.OwnPage vaddr) {m₀ m' : Memory} (halloc : k.mem.globalAlloc4k = (m₀, some f))
    (hdrawn : k.drawn (.mapShare vaddr flags) = some f) {ok : Bool}
    (hmap : ((m₀.frameTag f .userOwned).zeroFrame f).mapPageGlobal k.cr3 vaddr f (pageFlags true flags) = (m', ok))
    {s' : Scheduler} (hs : SameHouse k.sched s' ∧ SameHouse s' k.sched) (hcaps : CapsFrom k s' (· = f)) :
    ∃ tag', Isolated (es ++ [k.event (.mapShare vaddr flags) ret]) { k with mem := m', sched := s' } tag' := by
  have hcons : Consumes m₀ ((m₀.frameTag f .userOwned).zeroFrame f) :=
    (Consumes.frameTag m₀ f .userOwned).trans (.zeroFrame _ f)
  have hb₁ : ∀ W, Builds W k.kernelPml4 k.cr3 k.mem tag ((m₀.frameTag f .userOwned).zeroFrame f) tag := by
    refine fun W => Kernel.builds_frame I.tables halloc hcons fun g hg j => ?_
    rw [Memory.zeroFrame_ram, if_neg hg, Memory.frameTag_ram]
  obtain ⟨tag', hp⟩ := Proceeds.of_map I.toSeparate hx hpage hb₁ hmap
  obtain ⟨hres, hmask⟩ := reserved_of_drawn I.tables halloc hcons hmap
  have hfree := Memory.not_reserved_of_globalAlloc4k halloc
  obtain ⟨honly, -, hdrop⟩ := I.unused hfree k.currentPid
  have hsharer : sharer f (es ++ [k.event (.mapShare vaddr flags) ret]) = some k.currentPid := sharer_of_share hdrawn rfl
  refine ⟨tag', I.proceed hx hp hs (fun _ => Kernel.not_reserved_of_drawn) hcaps ?_ ?_⟩
  · rintro g rfl
    exact ⟨hres, hfree, by rw [hsharer]; exact nofun⟩
  · rintro g ⟨-, -, rfl⟩
    rw [hmask]
    exact ⟨hres, fun r y _ hy => hdrop r y hy, Or.inr ⟨honly, Or.inl ⟨k.currentPid, hsharer, Or.inl rfl⟩⟩⟩

/-- `SYS_MAP_SHARE` -/
theorem Isolated.sysMapShare (I : Isolated es k tag) (hx : k.sched.getProcess k.currentPid = some x) {vaddr flags : Word}
    (hown : k.OwnFrames (.mapShare vaddr flags)) (h : k.sysMapShare vaddr flags = some (k', ret)) :
    ∃ tag', Isolated (es ++ [k.event (.mapShare vaddr flags) ret]) k' tag' := by
  rcases Kernel.sysMapShare_cases h with ⟨rfl, -⟩ | ⟨f, m₀, m', hvalid, hquota, halloc, hmap⟩
  · exact ⟨tag, I.quiet hx _ (.refl I.toSeparate)⟩
  · have hdrawn : k.draws (.mapShare vaddr flags) = some f := Kernel.draws_of_checks (Or.inr rfl) hvalid hquota halloc
    have hused : KeepsCaps k.sched (k.sched.useMemoryPage k.currentPid) := by
      have hstep : k.sched.step (.useMemoryPage k.currentPid) = some (k.sched.useMemoryPage k.currentPid, _) := rfl
      exact Scheduler.keepsCaps_step rfl hstep
    have hnothing : ∀ {s'}, KeepsCaps k.sched s' → CapsFrom k s' (· = f) := by
      intro s' hkeep g hg
      exact (capsFrom_of_keeps hkeep g hg).imp_right False.elim
    rcases hmap with ⟨hmap, hk⟩ | ⟨hmap, rfl, -⟩
    · unfold Kernel.capFor at hk
      have hhouse := sameHouse_useMemoryPage k.sched k.currentPid
      split at hk
      · rename_i s' slot hcap
        cases hk
        have hcap : (k.sched.useMemoryPage k.currentPid).capAlloc k.currentPid (shareCap f) = (s', some slot) := hcap
        have hhouse' := sameHouse_capAlloc (k.sched.useMemoryPage k.currentPid) k.currentPid (shareCap f)
        rw [hcap] at hhouse'
        refine I.share_proceed hx (hown hvalid) halloc hdrawn hmap ⟨hhouse.1.trans hhouse'.1, hhouse'.2.trans hhouse.2⟩ ?_
        rintro g ⟨q, i, c, hc, hkind, rfl⟩
        rcases (Scheduler.capAlloc_some hcap).2.2 q i c hc with hold | ⟨-, -, rfl⟩
        · exact Or.inl ⟨q, i, c, hused q i c hold, hkind, rfl⟩
        · refine Or.inr (capFrame_shareCap (I.tables.globalAlloc4k halloc).2.1.reserved.addr ?_)
          exact Nat.lt_of_lt_of_le (lt_of_globalAlloc4k halloc) I.below
      · rename_i s' hcap
        cases hk
        have hcap : (k.sched.useMemoryPage k.currentPid).capAlloc k.currentPid (shareCap f) = (s', none) := hcap
        rw [Scheduler.capAlloc_none hcap]
        exact I.share_proceed hx (hown hvalid) halloc hdrawn hmap hhouse (hnothing hused)
    · exact I.share_proceed hx (hown hvalid) halloc hdrawn hmap ⟨.refl k.sched, .refl k.sched⟩ (hnothing (.refl k.sched))

/-- `SYS_MAP_CAP` -/
theorem Isolated.sysMapCap (I : Isolated es k tag) (hx : k.sched.getProcess k.currentPid = some x)
    {vaddr slot flags : Word} (hown : k.OwnFrames (.mapCap vaddr slot flags))
    (h : k.sysMapCap vaddr slot flags = some (k', ret)) :
    ∃ tag', Isolated (es ++ [k.event (.mapCap vaddr slot flags) ret]) k' tag' := by
  rcases Kernel.sysMapCap_cases h with ⟨rfl, -⟩ | ⟨c, m', hvalid, hslot, hkind, -, bits, hmap⟩
  · exact ⟨tag, I.quiet hx _ (.refl I.toSeparate)⟩
  · have hcap : k.HasMemoryCap (capFrame c) := ⟨_, _, c, hslot, hkind, rfl⟩
    obtain ⟨hres, hdrop, hsharer⟩ := I.caps hcap
    have hstep : ∀ {ok : Bool}, k.mem.mapPageGlobal k.cr3 vaddr (capFrame c) (pageFlags true bits) = (m', ok) →
        (ok = true → ret = .value 0) → ∃ tag', Isolated (es ++ [k.event (.mapCap vaddr slot flags) ret]) { k with mem := m' } tag' := by
      intro ok hmap hret
      have hcons := Consumes.mapPageGlobal k.mem k.cr3 vaddr (capFrame c) (pageFlags true bits)
      rw [hmap] at hcons
      obtain ⟨tag', hp⟩ := Proceeds.of_map I.toSeparate hx (hown hvalid) (fun _ => .refl I.tables) hmap
      refine ⟨tag', I.proceed hx hp ⟨.refl k.sched, .refl k.sched⟩ (fun _ => Kernel.not_reserved_of_drawn)
        (capsFrom_of_keeps (.refl k.sched)) (fun _ h => h.elim) ?_⟩
      rintro f ⟨hok, -, rfl⟩
      rw [show capFrame c &&& pteAddrMask = capFrame c from hres.addr]
      refine ⟨hres.consumes hcons, fun r y _ hy => hdrop r y hy, Or.inl ⟨hcap, ?_⟩⟩
      have hdrawn : (k.event (.mapCap vaddr slot flags) ret).2.drawn ≠ some (capFrame c) := nofun
      have hvia : (k.event (.mapCap vaddr slot flags) ret).2.viaCap = some (capFrame c) := by
        unfold Kernel.event Kernel.viaCap
        simp only
        rw [if_pos (hret hok), hslot]
        rfl
      obtain ⟨r, hr⟩ := Option.ne_none_iff_exists'.1 hsharer
      exact ⟨r, (sharer_snoc hdrawn).trans hr, Or.inr (capMapped_of_viaCap hdrawn rfl hvia)⟩
    rcases hmap with ⟨hmap, rfl, hret⟩ | ⟨hmap, rfl, -⟩
    · exact hstep hmap fun _ => hret
    · exact hstep hmap nofun

/-- `SYS_CAP_GRANT` -/
theorem Isolated.sysCapGrant (I : Isolated es k tag) (hx : k.sched.getProcess k.currentPid = some x) {slot toPid : Word}
    (h : k.sysCapGrant slot toPid = some (k', ret)) : Isolated (es ++ [k.event (.capGrant slot toPid) ret]) k' tag := by
  have hgrant : ∀ {s' r}, k.sched.capGrant k.currentPid slot.toNat (u32 toPid) = (s', r) →
      Isolated (es ++ [k.event (.capGrant slot toPid) ret]) { k with sched := s' } tag := by
    intro s' r hs'
    rcases k.sched.capGrant_cases k.currentPid slot.toNat (u32 toPid) with hnone | ⟨c, hc, -, halloc⟩
    · rw [hnone] at hs'
      cases hs'
      exact I.quiet hx _ (.refl I.toSeparate)
    · rw [halloc] at hs'
      have hhouse := sameHouse_capAlloc k.sched (u32 toPid) c
      rw [hs'] at hhouse
      have hcaps : CapsFrom k s' fun _ => False := by
        rintro f ⟨q, i, d, hd, hkind, rfl⟩
        cases r with
        | none =>
          rw [Scheduler.capAlloc_none hs'] at hd
          exact Or.inl ⟨q, i, d, hd, hkind, rfl⟩
        | some n =>
          rcases (Scheduler.capAlloc_some hs').2.2 q i d hd with hold | ⟨-, -, rfl⟩
          · exact Or.inl ⟨q, i, d, hold, hkind, rfl⟩
          · exact Or.inl ⟨_, _, d, hc, hkind, rfl⟩
      exact I.proceed hx (.refl I.toSeparate) hhouse (fun _ => Kernel.not_reserved_of_drawn) hcaps (fun _ h => h.elim)
        fun _ h => h.elim
  unfold Kernel.sysCapGrant at h
  split at h
  · rename_i s' n hs'
    cases h
    exact hgrant hs'
  · rename_i s' hs'
    simp only at h
    split at h
    · cases h
      exact hgrant hs'
    · cases h
      exact hgrant hs'

/-- The records after frames have been recorded. -/
private theorem appendUserFrames_records {s : Scheduler} {pid q : Nat} {frames : List Word} {x' : Pcb}
    (hx' : (s.appendUserFrames pid frames).getProcess q = some x') :
    ∃ x, s.getProcess q = some x ∧ x'.pageTableBase = x.pageTableBase ∧
      ∀ f ∈ x'.droppedFrames, f ∈ x.droppedFrames ∨ (q = pid ∧ f ∈ frames) := by
  unfold Scheduler.appendUserFrames at hx'
  rw [Scheduler.getProcess_update] at hx'
  split at hx'
  · rename_i hq
    obtain ⟨x, hx, rfl⟩ := Option.map_eq_some_iff.1 hx'
    obtain ⟨fs, hfs⟩ := Pcb.foldl_addUserFrame_eq frames x
    have hsub := userFrames_foldl_addUserFrame frames x
    rw [hfs] at hsub ⊢
    refine ⟨x, hx, rfl, fun f hf => ?_⟩
    unfold Pcb.droppedFrames at hf ⊢
    rcases List.mem_append.1 hf with hf | hf
    · rcases List.mem_append.1 (hsub hf) with hold | hnew
      · exact Or.inl (List.mem_append_left _ hold)
      · exact Or.inr ⟨hq, hnew⟩
    · exact Or.inl (List.mem_append_right _ hf)
  · exact ⟨x', hx', rfl, fun f hf => Or.inl hf⟩

private theorem appendUserFrames_live {s : Scheduler} {q : Nat} (pid : Nat) (frames : List Word)
    (hx : s.getProcess q = some x) :
    ∃ x', (s.appendUserFrames pid frames).getProcess q = some x' ∧ x'.pageTableBase = x.pageTableBase := by
  unfold Scheduler.appendUserFrames
  rw [Scheduler.getProcess_update]
  by_cases hq : q = pid
  · rw [if_pos hq, hx]
    obtain ⟨fs, hfs⟩ := Pcb.foldl_addUserFrame_eq frames x
    refine ⟨_, rfl, ?_⟩
    simp only [hfs]
  · rw [if_neg hq]
    exact ⟨x, hx, rfl⟩

/-- A frame that is none of the page tables has no tag. -/
private theorem Separate.untagged (S : Separate k tag) {f : Word} (hf : ¬ k.mem.IsTable k.roots f) : tag f = none := by
  cases htag : tag f with
  | none => rfl
  | some t =>
    refine absurd ⟨t.1, ?_, t.2, S.tables.layout.descend_of_tag htag⟩ hf
    rcases S.owner htag with hkern | ⟨q, y, hy, hbase⟩
    · rw [hkern]
      exact List.mem_cons_self
    · refine List.mem_cons_of_mem _ (List.mem_map.2 ⟨y, ?_, hbase⟩)
      exact ProcessTable.mem_live_of_getProcess hy

/-- Frames are recorded for the process `pid`. -/
private theorem Isolated.record (I : Isolated es k tag) {pid : Nat} {frames : List Word}
    (hown : ∀ y, k.sched.getProcess pid = some y → ∀ f ∈ frames,
      k.Unclaimed pid f ∧ ¬ k.mem.IsTable k.roots f ∧ f ∉ k.mem.ptPool) {e : FrameEvent}
    (hdrawn : e.2.drawn = none) :
    Isolated (es ++ [e]) { k with sched := k.sched.appendUserFrames pid frames } tag := by
  have hpast : ∀ f, e.2.drawn ≠ some f := by
    intro f
    rw [hdrawn]
    exact nofun
  have hkeep : KeepsCaps k.sched (k.sched.appendUserFrames pid frames) := by
    have hstep : k.sched.step (.appendUserFrames pid frames) = some (k.sched.appendUserFrames pid frames, _) := rfl
    exact Scheduler.keepsCaps_step rfl hstep
  have hcaps : ∀ {f}, Kernel.HasMemoryCap { k with sched := k.sched.appendUserFrames pid frames } f → k.HasMemoryCap f :=
    fun hf => (capsFrom_of_keeps hkeep _ hf).elim (fun h => h) False.elim
  have huntagged : ∀ {y f}, k.sched.getProcess pid = some y → f ∈ frames → tag f = none :=
    fun hy hf => I.toSeparate.untagged (hown _ hy _ hf).2.1
  -- nobody else uses what is recorded
  have hnobody : ∀ {q x y f}, q ≠ pid → k.sched.getProcess q = some x → k.sched.getProcess pid = some y → f ∈ frames →
      f ∉ x.droppedFrames ∧ f ≠ x.pageTableBase ∧ ¬ Opens k.mem tag x.pageTableBase f := by
    intro q x y f hq hx hy hf
    have halone := (hown y hy f hf).1.alone
    refine ⟨fun hmem => halone ⟨q, x, hq, hx, Or.inr hmem⟩, ?_, fun hopens => ?_⟩
    · rintro rfl
      have hnone := huntagged hy hf
      rw [I.root hx] at hnone
      cases hnone
    · exact halone ⟨q, x, hq, hx, Or.inl ((I.closed.userMaps_iff I.tables (I.root hx)).2 hopens)⟩
  refine ⟨⟨⟨I.tables, fun {q x'} hx' => ?_, fun {q x' f} hx' hf => ?_, fun {q r x' y' f} hqr hx' hy' hf => ?_⟩, I.closed,
    fun {f t} hf => ?_, fun {q r x' y'} hqr hx' hy' hbase => ?_, I.below, fun {q x' f} hx' hf => ?_⟩, fun {f} hcap => ?_,
    fun {q x' f} hx' hf => ?_⟩
  · obtain ⟨x, hx, hbase, -⟩ := appendUserFrames_records hx'
    rw [hbase]
    exact I.root hx
  · obtain ⟨x, hx, hbase, hdrop⟩ := appendUserFrames_records hx'
    rw [hbase]
    rcases hdrop f hf with hold | ⟨rfl, hnew⟩
    · exact I.frames hx hold
    · exact Or.inl ⟨huntagged hx hnew, (hown x hx f hnew).1.reserved, (hown x hx f hnew).2.2⟩
  · obtain ⟨x, hx, -, hdrop⟩ := appendUserFrames_records hx'
    obtain ⟨y, hy, hbase, hdrop'⟩ := appendUserFrames_records hy'
    rw [hbase]
    rcases hdrop f hf with hold | ⟨rfl, hnew⟩
    · refine ⟨fun hmem => ?_, (I.apart hqr hx hy hold).2⟩
      rcases hdrop' f hmem with hold' | ⟨rfl, hnew⟩
      · exact (I.apart hqr hx hy hold).1 hold'
      · exact (hnobody hqr hx hy hnew).1 hold
    · obtain ⟨hnot, hne, -⟩ := hnobody hqr.symm hy hx hnew
      refine ⟨fun hmem => ?_, hne⟩
      rcases hdrop' f hmem with hold' | ⟨heq, -⟩
      · exact hnot hold'
      · exact hqr heq.symm
  · rcases I.owner hf with hkern | ⟨q, x, hx, hbase⟩
    · exact Or.inl hkern
    · obtain ⟨x', hx', hsame⟩ := appendUserFrames_live pid frames hx
      exact Or.inr ⟨q, x', hx', hsame.trans hbase⟩
  · obtain ⟨x, hx, hbase₁, -⟩ := appendUserFrames_records hx'
    obtain ⟨y, hy, hbase₂, -⟩ := appendUserFrames_records hy'
    rw [hbase₁, hbase₂] at hbase
    rw [hbase₁]
    exact I.distinct hqr hx hy hbase
  · obtain ⟨x, hx, hbase, -⟩ := appendUserFrames_records hx'
    rw [hbase] at hf
    obtain ⟨hres, hdrop⟩ := I.opened hx hf
    refine ⟨hres, fun r y' hr hy' hmem => ?_⟩
    obtain ⟨y, hy, -, hdrop'⟩ := appendUserFrames_records hy'
    rcases hdrop' f hmem with hold | ⟨rfl, hnew⟩
    · exact hdrop r y hr hy hold
    · exact (hnobody hr.symm hx hy hnew).2.2 hf
  · obtain ⟨hres, hdrop, hsharer⟩ := I.caps (hcaps hcap)
    refine ⟨hres, fun r y' hy' hmem => ?_, by rw [sharer_snoc (hpast f)]; exact hsharer⟩
    obtain ⟨y, hy, -, hdrop'⟩ := appendUserFrames_records hy'
    rcases hdrop' f hmem with hold | ⟨rfl, hnew⟩
    · exact hdrop r y hy hold
    · exact (hown y hy f hnew).1.no_cap (hcaps hcap)
  · obtain ⟨x, hx, hbase, -⟩ := appendUserFrames_records hx'
    rw [hbase] at hf
    rcases I.came hx hf with hcame | ⟨honly, hcap⟩
    · exact Or.inl (hcame.snoc (hpast f))
    · refine Or.inr ⟨fun r y' hr hy' hopens => ?_, fun h => hcap (hcaps h)⟩
      obtain ⟨y, hy, hbase', -⟩ := appendUserFrames_records hy'
      rw [hbase'] at hopens
      exact honly r y hr hy hopens

/-- `SYS_REGISTER_FRAMES` -/
theorem Isolated.sysRegisterFrames (I : Isolated es k tag) (hx : k.sched.getProcess k.currentPid = some x)
    {pid ptr count : Word} (hown : k.OwnFrames (.registerFrames pid ptr count))
    (h : k.sysRegisterFrames pid ptr count = some (k', ret)) :
    Isolated (es ++ [k.event (.registerFrames pid ptr count) ret]) k' tag := by
  unfold Kernel.sysRegisterFrames at h
  simp only at h
  split at h
  · cases h
    exact I.quiet hx _ (.refl I.toSeparate)
  · split at h
    · cases h
      exact I.quiet hx _ (.refl I.toSeparate)
    · obtain ⟨bytes, hload, heq⟩ := Option.map_eq_some_iff.1 h
      cases heq
      refine I.record (fun y hy => hown y _ hy ?_) rfl
      unfold Kernel.framesArg
      rw [hload]
      rfl

/-- The page tables that are left after an exit: those of the kernel and of the other processes. -/
private theorem Separate.exit_tables (S : Separate k tag) (hx : k.sched.getProcess k.currentPid = some x)
    (h : k.sysExit = some (k', ret)) :
    ∃ tag', Housed k' tag' ∧ (∀ {f t}, tag' f = some t → tag f = some t) ∧ ∀ {f t}, tag' f = some t →
      t.1 = k.kernelPml4 ∨ ∃ q y, q ≠ k.currentPid ∧ k.sched.getProcess q = some y ∧ y.pageTableBase = t.1 := by
  have hpool : ∀ f ∈ x.droppedFrames, f ∉ k.mem.ptPool := fun f hf => S.toHoused.not_pooled_of_dropped hx hf
  by_cases hne : x.pageTableBase = k.kernelPml4
  · refine ⟨tag, (S.toHoused.exit_of_tables hx h S.tables (fun f hf => ⟨?_, hpool f hf⟩) (fun hf => hf)
      fun _ hy => S.root hy).1, fun hf => hf, fun {f t} hf => ?_⟩
    · rcases S.frames hx hf with hfresh | ⟨rfl, hkern⟩
      · exact hfresh.untagged
      · exact absurd hne hkern
    · rcases S.owner hf with hkern | ⟨q, y, hy, hbase⟩
      · exact Or.inl hkern
      · by_cases hq : q = k.currentPid
        · subst hq
          rw [hx] at hy
          cases hy
          exact Or.inl (hbase.symm.trans hne)
        · exact Or.inr ⟨q, y, hq, hy, hbase⟩
  · refine ⟨dropTag tag x.pageTableBase, (S.toHoused.exit_of_tables hx h (S.tables.dropOwner hne)
      (fun f hf => ⟨S.toHoused.untagged_of_dropped hx hf, hpool f hf⟩) (fun hf => hf.dropTag _) fun hq hy => ?_).1,
      fun hf => (dropTag_eq_some.1 hf).1, fun {f t} hf => ?_⟩
    · refine dropTag_eq_some.2 ⟨S.root hy, fun heq => hne ?_⟩
      exact heq ▸ S.distinct hq hy hx heq
    · obtain ⟨htag, hown⟩ := dropTag_eq_some.1 hf
      rcases S.owner htag with hkern | ⟨q, y, hy, hbase⟩
      · exact Or.inl hkern
      · refine Or.inr ⟨q, y, ?_, hy, hbase⟩
        rintro rfl
        rw [hx] at hy
        cases hy
        exact hown hbase.symm

/-- `SYS_EXIT` -/
theorem Isolated.sysExit (I : Isolated es k tag) (hx : k.sched.getProcess k.currentPid = some x)
    (h : k.sysExit = some (k', ret)) : ∃ tag', Isolated (es ++ [k.event .exit ret]) k' tag' := by
  have hpast : ∀ f, (k.event .exit ret).2.drawn ≠ some f := fun _ => nofun
  obtain ⟨hmem, hkern⟩ := Housed.exit_mem hx h
  have hkeep : KeepsCaps k.sched k'.sched := by
    have hcall : k.dispatch FrameCall.exit.request = some (k', ret) := h
    exact Kernel.keepsCaps_dispatch rfl hcall
  have hcaps : ∀ {f}, k'.HasMemoryCap f → k.HasMemoryCap f := by
    rintro f ⟨q, i, c, hc, hkind, hf⟩
    exact ⟨q, i, c, hkeep q i c hc, hkind, hf⟩
  have haddr : ∀ p ∈ x.droppedFrames, IsTableAddr p := fun p hp => (I.toHoused.reserved_of_dropped hx hp).addr
  have hres : ∀ {f}, k.mem.Reserved f → f ∉ x.droppedFrames → k'.mem.Reserved f := by
    intro f hf hnot
    rw [hmem]
    exact hf.release haddr hnot
  have hram : k'.mem.ram = k.mem.ram := by
    rw [hmem]
    exact (Memory.foldl_globalFree4k _ _).1
  have hregion : k'.mem.region = k.mem.region := by
    rw [hmem]
    exact (Memory.foldl_globalFree4k _ _).2.2
  obtain ⟨tag', H', hold, howner⟩ := I.toSeparate.exit_tables hx h
  have hsealed : k'.mem.Sealed k'.kernelPml4 tag' := by
    rw [hkern]
    exact I.closed.of_tags hold hram
  refine ⟨tag', ⟨H', hsealed, fun {f t} hf => ?_, fun {q r y' z'} hqr hy' hz' hbase => ?_, ?_, fun {q y' f} hy' hf => ?_⟩,
    fun {f} hcap => ?_, fun {q y' f} hy' hf => ?_⟩
  · rw [hkern]
    rcases howner hf with hkern' | ⟨q, y, hq, hy, hbase⟩
    · exact Or.inl hkern'
    · obtain ⟨y', hy', hsame⟩ := Housed.exit_live h hq hy
      exact Or.inr ⟨q, y', hy', hsame.trans hbase⟩
  · obtain ⟨-, y, hy, hbase₁, -⟩ := Housed.exit_house h hy'
    obtain ⟨-, z, hz, hbase₂, -⟩ := Housed.exit_house h hz'
    rw [hbase₁, hbase₂] at hbase
    rw [hbase₁, hkern]
    exact I.distinct hqr hy hz hbase
  · rw [hregion]
    exact I.below
  · obtain ⟨hq, y, hy, hbase, -⟩ := Housed.exit_house h hy'
    rw [hbase] at hf
    obtain ⟨hreserved, hdrop⟩ := I.opened hy (hf.of_tags hold hram)
    refine ⟨hres hreserved (hdrop _ x hq.symm hx), fun r z' hr hz' => ?_⟩
    obtain ⟨-, z, hz, -, hsame⟩ := Housed.exit_house h hz'
    rw [hsame]
    exact hdrop r z hr hz
  · obtain ⟨hreserved, hdrop, hsharer⟩ := I.caps (hcaps hcap)
    refine ⟨hres hreserved (hdrop _ x hx), fun r z' hz' => ?_, by rw [sharer_snoc (hpast f)]; exact hsharer⟩
    obtain ⟨-, z, hz, -, hsame⟩ := Housed.exit_house h hz'
    rw [hsame]
    exact hdrop r z hz
  · obtain ⟨-, y, hy, hbase, -⟩ := Housed.exit_house h hy'
    rw [hbase] at hf
    rcases I.came hy (hf.of_tags hold hram) with hcame | ⟨honly, hcap⟩
    · exact Or.inl (hcame.snoc (hpast f))
    · refine Or.inr ⟨fun r z' hr hz' hopens => ?_, fun hc => hcap (hcaps hc)⟩
      obtain ⟨-, z, hz, hbase', -⟩ := Housed.exit_house h hz'
      rw [hbase'] at hopens
      exact honly r z hr hz (hopens.of_tags hold hram)

/-- Every call of the current process. -/
theorem Isolated.call (I : Isolated es k tag) (hx : k.sched.getProcess k.currentPid = some x) {c : FrameCall}
    (hown : k.OwnFrames c) (h : k.dispatch c.request = some (k', ret)) :
    ∃ tag', Isolated (es ++ [k.event c ret]) k' tag' := by
  cases c with
  | map vaddr paddr flags => exact I.sysMap hx hown h
  | mapShare vaddr flags => exact I.sysMapShare hx hown h
  | mapCap vaddr slot flags => exact I.sysMapCap hx hown h
  | capGrant slot toPid => exact ⟨tag, I.sysCapGrant hx h⟩
  | allocPhys => exact ⟨tag, I.sysAllocPhys hx h⟩
  | registerFrames pid ptr count => exact ⟨tag, I.sysRegisterFrames hx hown h⟩
  | exit => exact I.sysExit hx h

/-- The frames are isolated in every state that is reached by calls of live processes that keep to their own frames. -/
theorem frames_isolated {k₀ : Kernel} {tag₀ : Tags} (h₀ : Unshared k₀ tag₀)
    (hrun : Run Kernel.frameStep (fun k i => (k.sched.getProcess i.1).isSome = true ∧ (k.calledBy i.1).OwnFrames i.2)
      k₀ es k) : FrameIsolation es k := by
  have hisolated : ∃ tag, Isolated es k tag := by
    refine hrun.history (P := fun es k => ∃ tag, Isolated es k tag) ?_ ⟨tag₀, h₀.isolated⟩
    rintro es k k' i o ⟨tag, I⟩ ⟨hlive, hown⟩ hstep
    obtain ⟨x, hx⟩ := Option.isSome_iff_exists.1 hlive
    obtain ⟨⟨k'', ret⟩, hcall, heq⟩ := Option.map_eq_some_iff.1 hstep
    cases heq
    exact (I.calledBy i.1).call hx hown hcall
  obtain ⟨tag, I⟩ := hisolated
  exact I.frameIsolation

end Calls

/-! ### New address spaces -/

/-- A new address space opens its own pages only. -/
theorem Elf.NewSpace.opens {kern o : Word} {m m' : Memory} {tag tag' : Tags} {D : List Word}
    (h : Elf.NewSpace kern o m tag m' tag' D) (hs : Sealed m kern tag) :
    Sealed m' kern tag' ∧ ∀ {q f}, Opens m' tag' q f → Opens m tag q f ∨ (q = o ∧ f ∈ D) := by
  have hold : ∀ {f q p}, tag' f = some (q, p) → q ≠ o → tag f = some (q, p) := by
    intro f q p hf hq
    rcases h.grows.new hf with hf | hnew
    · exact hf
    · exact absurd hnew hq
  have hcopied : ∀ {path e}, Memory.Copied kern m tag path e → path.length < 4 ∧ e &&& pteUser = 0 := by
    rintro path e ⟨p, j, g, rfl, ⟨hp, -⟩, hg, rfl⟩
    refine ⟨?_, hs.supervisor j hg⟩
    rcases hp with rfl | rfl | rfl
    · simp
    · simp
    · simp
  have hcrash : ∀ {path e}, Elf.CrashLogAt path e → path.length = 4 ∧ e &&& pteUser = 0 := by
    rintro path e ⟨rfl, rfl⟩
    exact ⟨rfl, by decide⟩
  have hlen : ∀ (p : List (Fin 512)) j, (p ++ [j]).length = p.length + 1 := fun p j => by
    rw [List.length_append, List.length_singleton]
  refine ⟨⟨fun {f p} j hf => ?_, fun {f q p} j e hf hp hleaf => ?_⟩, ?_⟩
  · have hf' := hold hf h.ne_kern.symm
    rw [h.others hf' j]
    exact hs.supervisor j hf'
  · obtain ⟨-, -, rfl⟩ := decode_eq_leaf hleaf
    by_cases hq : q = o
    · subst hq
      rcases h.slots j hf with hnone | ⟨c, hc, -⟩ | ⟨hthree, -⟩ | hcopy | hlog
      · rw [hnone] at hleaf
        cases hleaf
      · rw [hc] at hleaf
        cases hleaf
      · omega
      · exact (hcopied hcopy).2
      · exact (hcrash hlog).2
    · have hf' := hold hf hq
      unfold Memory.links at hleaf
      rw [h.others hf' j] at hleaf ⊢
      exact hs.huge j hf' hp hleaf
  · rintro q f ⟨g, p, j, hg, hp, hpresent, huser, rfl⟩
    by_cases hq : q = o
    · subst hq
      rcases h.slots j hg with hnone | ⟨c, hc, -⟩ | ⟨-, hmem⟩ | hcopy | hlog
      · exact absurd (decode_eq_none.1 hnone) hpresent
      · rw [show 3 - p.length = 0 by omega] at hc
        exact absurd hc (decode_zero_ne_table _ c)
      · exact Or.inr ⟨rfl, hmem⟩
      · have := (hcopied hcopy).1
        rw [hlen] at this
        omega
      · exact absurd (hcrash hlog).2 huser
    · have hg' := hold hg hq
      rw [h.others hg' j] at hpresent huser ⊢
      exact Or.inl ⟨g, p, j, hg', hp, hpresent, huser, rfl⟩

/-! ### A machine with two processes -/

/-- The kernel of the machine, with sixteen frames left. -/
def Kernel.spare : Kernel :=
  { Kernel.small with
    kernelPml4 := 0x10000
    mem := ⟨heapRegion, (List.range' 512 16).foldl Lib.Bitmap.set Lib.Bitmap.empty, fun _ => .free, [], bothMapped.1.ram⟩ }

/-- Two fresh processes on the given PML4s. -/
def Scheduler.lodgers (a b : Word) : Scheduler :=
  (((Scheduler.new 0).addProcess a).bind fun r => r.1.addProcess b).elim (Scheduler.new 0) Prod.fst

def Kernel.withSched (k : Kernel) (s : Scheduler) : Kernel := { k with sched := s }

/-- The processes run on two PML4s that `SYS_CREATE_VAS` has made. -/
def Kernel.lodging : Kernel :=
  (((Kernel.spare.sysCreateVas.map Prod.fst).bind fun k => k.sysCreateVas.map Prod.fst).getD Kernel.spare).withSched
    (Scheduler.lodgers 0x303000 0x307000)

private theorem addProcess_records {s s' : Scheduler} {base : Word} {r : Option Nat} (h : s.addProcess base = some (s', r))
    {q : Nat} {x : Pcb} (hx : s'.getProcess q = some x) :
    s.getProcess q = some x ∨ (q = s.processTable.nextPid ∧ ∃ id rsp, x = Pcb.fresh q id rsp base) := by
  obtain ⟨-, -, ⟨-, -, hsame⟩ | ⟨-, -, -, id, rsp, hget⟩⟩ := Scheduler.addProcess_adds h
  · rw [hsame] at hx
    exact Or.inl hx
  · rw [hget] at hx
    split at hx
    · rename_i hq
      cases hx
      rw [hq]
      exact Or.inr ⟨rfl, id, rsp, rfl⟩
    · exact Or.inl hx

/-- Each of the processes is a fresh one, on its PML4. -/
private theorem lodgers_records (a b : Word) : ∃ pa pb, ∀ {q : Nat} {x : Pcb},
    (Scheduler.lodgers a b).getProcess q = some x →
      (q = pa ∧ ∃ id rsp, x = Pcb.fresh q id rsp a) ∨ (q = pb ∧ ∃ id rsp, x = Pcb.fresh q id rsp b) := by
  have hnew : ∀ {q x}, (Scheduler.new 0).getProcess q ≠ some x := by
    intro q x h
    rw [Scheduler.getProcess, Scheduler.new, ProcessTable.getProcess_new] at h
    cases h
  unfold Scheduler.lodgers
  cases hadd : ((Scheduler.new 0).addProcess a).bind fun r => r.1.addProcess b with
  | none => exact ⟨0, 0, fun hx => absurd hx hnew⟩
  | some out =>
    obtain ⟨⟨s₁, r₁⟩, h₁, h₂⟩ := Option.bind_eq_some_iff.1 hadd
    obtain ⟨s₂, r₂⟩ := out
    refine ⟨(Scheduler.new 0).processTable.nextPid, s₁.processTable.nextPid, fun hx => ?_⟩
    rcases addProcess_records h₂ hx with hold | hb
    · rcases addProcess_records h₁ hold with hold | ha
      · exact absurd hold hnew
      · exact Or.inl ha
    · exact Or.inr hb

/-- A fresh process has no capabilities. -/
private theorem capTable_fresh (pid stackId rsp : Nat) (base : Word) {slot : Nat} (h : slot < capTableSize) :
    ((Pcb.fresh pid stackId rsp base).capTable[slot]).isEmpty = true := by
  unfold Pcb.fresh
  simp only [Vector.getElem_replicate]
  rfl

/-- Two fresh processes on two new address spaces, besides the page tables of a booted kernel. -/
theorem unshared_of_newSpaces {m m₁ : Memory} {tag tag₁ tag₂ : Tags} {k : Kernel} {a b : Word}
    (hclosed : Sealed m k.kernelPml4 tag) (hkern : ∀ {f t}, tag f = some t → t.1 = k.kernelPml4)
    (ha : Elf.NewSpace k.kernelPml4 a m tag m₁ tag₁ []) (hb : Elf.NewSpace k.kernelPml4 b m₁ tag₁ k.mem tag₂ [])
    (hsched : k.sched = Scheduler.lodgers a b) (hne : a ≠ b) (hlive : (k.sched.getProcess 1).map Pcb.pageTableBase = some a ∧
      (k.sched.getProcess 2).map Pcb.pageTableBase = some b)
    (hbelow : k.mem.region.base + k.mem.region.size ≤ 2 ^ 44) : Unshared k tag₂ := by
  obtain ⟨pa, pb, hrecords⟩ := lodgers_records a b
  rw [← hsched] at hrecords
  obtain ⟨hclosed₁, hopens₁⟩ := ha.opens hclosed
  obtain ⟨hclosed₂, hopens₂⟩ := hb.opens hclosed₁
  -- there are no pages for user mode yet
  have hnothing : ∀ {q f}, ¬ Opens k.mem tag₂ q f := by
    intro q f h
    rcases hopens₂ h with h | ⟨-, hf⟩
    · rcases hopens₁ h with h | ⟨-, hf⟩
      · obtain ⟨g, p, j, hg, hrest⟩ := h
        cases hkern hg
        exact hclosed.not_opens_kern f ⟨g, p, j, hg, hrest⟩
      · cases hf
    · cases hf
  have hfresh : ∀ {q x}, k.sched.getProcess q = some x → x.droppedFrames = [] := by
    intro q x hx
    rcases hrecords hx with ⟨-, id, rsp, rfl⟩ | ⟨-, id, rsp, rfl⟩
    · rfl
    · rfl
  have hbases : ∀ {q x}, k.sched.getProcess q = some x → (q = pa ∧ x.pageTableBase = a) ∨ (q = pb ∧ x.pageTableBase = b) := by
    intro q x hx
    rcases hrecords hx with ⟨rfl, id, rsp, rfl⟩ | ⟨rfl, id, rsp, rfl⟩
    · exact Or.inl ⟨rfl, rfl⟩
    · exact Or.inr ⟨rfl, rfl⟩
  obtain ⟨⟨x, hx, hxa⟩, y, hy, hyb⟩ := hlive.imp Option.map_eq_some_iff.1 Option.map_eq_some_iff.1
  refine ⟨⟨⟨hb.tables, fun hx => ?_, fun hx hf => ?_, fun _ hx _ hf => ?_⟩, hclosed₂, fun hf => ?_, fun hqr hx hy heq => ?_,
    hbelow, fun _ hf => absurd hf hnothing⟩, fun _ _ _ hf => absurd hf hnothing, fun f hcap => ?_⟩
  · rcases hbases hx with ⟨-, hbase⟩ | ⟨-, hbase⟩
    · rw [hbase]
      exact hb.grows.keeps ha.root
    · rw [hbase]
      exact hb.root
  · rw [hfresh hx] at hf
    cases hf
  · rw [hfresh hx] at hf
    cases hf
  · rcases hb.grows.new hf with hf | hown
    · rcases ha.grows.new hf with hf | hown
      · exact Or.inl (hkern hf)
      · exact Or.inr ⟨1, x, hx, hxa.trans hown.symm⟩
    · exact Or.inr ⟨2, y, hy, hyb.trans hown.symm⟩
  · rcases hbases hx with ⟨hq, hbase⟩ | ⟨hq, hbase⟩
    · rcases hbases hy with ⟨hr, hbase'⟩ | ⟨hr, hbase'⟩
      · exact absurd (hq.trans hr.symm) hqr
      · exact absurd (hbase.symm.trans (heq.trans hbase')) hne
    · rcases hbases hy with ⟨hr, hbase'⟩ | ⟨hr, hbase'⟩
      · exact absurd (hbase'.symm.trans (heq.symm.trans hbase)) hne
      · exact absurd (hq.trans hr.symm) hqr
  · obtain ⟨q, slot, c, hinfo, -⟩ := hcap
    obtain ⟨z, hz, hslot, rfl, hfull⟩ := Scheduler.capSlotInfo_eq_some_iff.1 hinfo
    rcases hrecords hz with ⟨-, id, rsp, rfl⟩ | ⟨-, id, rsp, rfl⟩
    · rw [capTable_fresh] at hfull
      cases hfull
    · rw [capTable_fresh] at hfull
      cases hfull

/-- The page tables of the machine, all of them the kernel's. -/
private theorem tables_spare : ∃ tag, Tables Kernel.spare.mem Kernel.spare.kernelPml4 tag ∧
    Sealed Kernel.spare.mem Kernel.spare.kernelPml4 tag ∧ ∀ {f t}, tag f = some t → t.1 = Kernel.spare.kernelPml4 := by
  have hbooted : Memory.Booted (fun flags => flags &&& pteUser = 0) 0x10000 _ := booted_machine (by decide)
  obtain ⟨tag, T, hk⟩ := hbooted.tables
  obtain ⟨hcons, hram⟩ := consumes_heap (n := 16) (by decide)
  generalize ((bothMapped.1.initGlobalAllocator heapRegion).poolInit ptPoolCap).1 = m at T hk hcons hram
  have hsupervisor : Memory.Supervisor m 0x10000 tag := hk.supervisor fun _ h => h
  have hclosed : Sealed m 0x10000 tag := by
    refine ⟨hsupervisor, fun j e hf _ hleaf => ?_⟩
    obtain ⟨-, -, rfl⟩ := decode_eq_leaf hleaf
    cases hk.only hf
    exact hsupervisor j hf
  have hsame : Kernel.spare.mem.ram = m.ram := hram.symm
  exact ⟨tag, T.consume hcons fun f t _ j => by rw [hsame], hclosed.of_tags (fun h => h) hsame, hk.only⟩

private theorem kernelPml4_sysCreateVas {k k' : Kernel} {ret : Ret} (h : k.sysCreateVas = some (k', ret)) :
    k'.kernelPml4 = k.kernelPml4 := by
  unfold Kernel.sysCreateVas at h
  split at h
  · cases h
    rfl
  · cases h
    rfl

/-- Nothing is shared yet. -/
theorem unshared_lodging : ∃ tag, Unshared Kernel.lodging tag := by
  obtain ⟨tag, T, hclosed, hkern⟩ := tables_spare
  have hret : Kernel.spare.sysCreateVas.map Prod.snd = some (.value 0x303000) := by decide +kernel
  obtain ⟨⟨k₁, ret₁⟩, hcall₁, rfl⟩ := Option.map_eq_some_iff.1 hret
  have hret : (Kernel.spare.sysCreateVas.map Prod.fst).bind (fun k => k.sysCreateVas.map Prod.snd) =
      some (.value 0x307000) := by decide +kernel
  rw [hcall₁, Option.map_some, Option.bind_some] at hret
  obtain ⟨⟨k₂, ret₂⟩, hcall₂, rfl⟩ := Option.map_eq_some_iff.1 hret
  have hlodging : Kernel.lodging = k₂.withSched (Scheduler.lodgers 0x303000 0x307000) := by
    unfold Kernel.lodging
    rw [hcall₁, Option.map_some, Option.bind_some, hcall₂]
    rfl
  have hlive : ((Scheduler.lodgers 0x303000 0x307000).getProcess 1).map Pcb.pageTableBase = some 0x303000 ∧
      ((Scheduler.lodgers 0x303000 0x307000).getProcess 2).map Pcb.pageTableBase = some 0x307000 := by decide +kernel
  have hregion : Kernel.lodging.mem.region.base + Kernel.lodging.mem.region.size ≤ 2 ^ 44 := by decide +kernel
  obtain ⟨tag₁, hspace₁⟩ := newSpace_of_createVas T hcall₁ (by decide)
  have hkern₁ : k₁.kernelPml4 = Kernel.spare.kernelPml4 := kernelPml4_sysCreateVas hcall₁
  have hkern₂ : k₂.kernelPml4 = k₁.kernelPml4 := kernelPml4_sysCreateVas hcall₂
  obtain ⟨tag₂, hspace₂⟩ := newSpace_of_createVas (by rw [hkern₁]; exact hspace₁.tables) hcall₂ (by decide)
  refine ⟨tag₂, ?_⟩
  rw [hlodging] at hregion ⊢
  rw [hkern₁] at hkern₂ hspace₂
  rw [← hkern₂] at hspace₁ hspace₂ hclosed hkern
  exact unshared_of_newSpaces hclosed hkern hspace₁ hspace₂ rfl (by decide) hlive hregion

/-- User mode reaches the frame `f` at the address, in the process `pid`. -/
def Kernel.reaches (k : Kernel) (pid : Nat) (vaddr f : Word) : Bool :=
  (k.sched.getProcess pid).any fun x => decide (k.mem.translateAddress x.pageTableBase vaddr = some f ∧
    k.mem.hasRight x.pageTableBase vaddr pteUser = true ∧ Memory.frameOf f = f)

theorem accessible_of_reaches {k : Kernel} {pid : Nat} {vaddr f : Word} (h : k.reaches pid vaddr f = true) :
    ∃ x, k.sched.getProcess pid = some x ∧ k.mem.Accessible x.pageTableBase f := by
  obtain ⟨x, hx, hreach⟩ := (Option.any_eq_true _ _).1 h
  exact ⟨x, hx, vaddr, f, of_decide_eq_true hreach⟩

/-- The first process takes a frame with `SYS_MAP_SHARE` and grants the capability to the second one, which maps it. -/
theorem frames_isolated_lodging : (∃ tag, Unshared Kernel.lodging tag) ∧ ∃ es k x y,
    Run Kernel.frameStep (fun k i => (k.sched.getProcess i.1).isSome = true ∧ (k.calledBy i.1).OwnFrames i.2)
      Kernel.lodging es k ∧
    es.map Prod.fst = [(1, .mapShare 0x80000000 3), (1, .capGrant 0 2), (2, .mapCap 0x80000000 0 3)] ∧
    k.sched.getProcess 1 = some x ∧ k.sched.getProcess 2 = some y ∧ k.mem.Accessible x.pageTableBase 0x30B000 ∧
    k.mem.Accessible y.pageTableBase 0x30B000 ∧ FrameIsolation es k ∧ Came es 1 0x30B000 ∧ Came es 2 0x30B000 := by
  have hexec : (exec Kernel.frameStep (fun k i => (k.sched.getProcess i.1).isSome = true ∧
      (k.calledBy i.1).OwnPage 0x80000000 ∧
      i ∈ [(1, .mapShare 0x80000000 3), (1, .capGrant 0 2), (2, .mapCap 0x80000000 0 3)]) Kernel.lodging
      [(1, .mapShare 0x80000000 3), (1, .capGrant 0 2), (2, .mapCap 0x80000000 0 3)]).any (fun out =>
        decide (out.2.map Prod.fst = [(1, .mapShare 0x80000000 3), (1, .capGrant 0 2), (2, .mapCap 0x80000000 0 3)] ∧
          out.1.reaches 1 0x80000000 0x30B000 = true ∧ out.1.reaches 2 0x80000000 0x30B000 = true)) = true := by decide +kernel
  obtain ⟨⟨k, es⟩, hrun, hout⟩ := (Option.any_eq_true _ _).1 hexec
  obtain ⟨hcalls, hfirst, hsecond⟩ := of_decide_eq_true hout
  obtain ⟨x, hx, hfx⟩ := accessible_of_reaches hfirst
  obtain ⟨y, hy, hfy⟩ := accessible_of_reaches hsecond
  have hown : Run Kernel.frameStep (fun k i => (k.sched.getProcess i.1).isSome = true ∧ (k.calledBy i.1).OwnFrames i.2)
      Kernel.lodging es k := by
    refine (run_of_exec hrun).mono fun k i hi => ?_
    obtain ⟨hlive, hpage, hi⟩ := hi
    refine ⟨hlive, ?_⟩
    simp only [List.mem_cons, List.not_mem_nil, or_false] at hi
    rcases hi with rfl | rfl | rfl
    · exact fun _ => hpage
    · trivial
    · exact fun _ => hpage
  obtain ⟨tag, hstart⟩ := unshared_lodging
  have hisolated := frames_isolated hstart hown
  obtain ⟨hone, htwo⟩ := hisolated.shared (by decide) hx hy hfx hfy
  exact ⟨⟨tag, hstart⟩, es, k, x, y, hown, hcalls, hx, hy, hfx, hfy, hisolated, hone, htwo⟩

/-- Two runs of live processes.  The second process maps a frame of the first one, whose address it passes to `SYS_MAP`;
and the first process maps a free frame in the same way. -/
theorem frames_not_isolated : (∃ tag, Unshared Kernel.lodging tag) ∧
    (∃ es k, Run Kernel.frameStep (fun k i => (k.sched.getProcess i.1).isSome = true) Kernel.lodging es k ∧
      es.map Prod.fst = [(1, .map 0x80000000 0 3), (2, .map 0x80000000 0x30B000 3)] ∧ ¬ FrameIsolation es k) ∧
    ∃ es k, Run Kernel.frameStep (fun k i => (k.sched.getProcess i.1).isSome = true) Kernel.lodging es k ∧
      es.map Prod.fst = [(1, .map 0x80000000 0x30E000 3)] ∧ ¬ FrameIsolation es k := by
  refine ⟨unshared_lodging, ?_, ?_⟩
  · have hexec : (exec Kernel.frameStep (fun k i => (k.sched.getProcess i.1).isSome = true) Kernel.lodging
        [(1, .map 0x80000000 0 3), (2, .map 0x80000000 0x30B000 3)]).any (fun out =>
          decide (out.2.map Prod.fst = [(1, .map 0x80000000 0 3), (2, .map 0x80000000 0x30B000 3)] ∧
            out.1.reaches 1 0x80000000 0x30B000 = true ∧ out.1.reaches 2 0x80000000 0x30B000 = true ∧
            sharer 0x30B000 out.2 = none)) = true := by decide +kernel
    obtain ⟨⟨k, es⟩, hrun, hout⟩ := (Option.any_eq_true _ _).1 hexec
    obtain ⟨hcalls, hfirst, hsecond, hsharer⟩ := of_decide_eq_true hout
    obtain ⟨x, hx, hfx⟩ := accessible_of_reaches hfirst
    obtain ⟨y, hy, hfy⟩ := accessible_of_reaches hsecond
    refine ⟨es, k, run_of_exec hrun, hcalls, fun h => ?_⟩
    obtain ⟨⟨r, hr, -⟩, -⟩ := h.shared (by decide) hx hy hfx hfy
    rw [show sharer 0x30B000 es = none from hsharer] at hr
    cases hr
  · have hexec : (exec Kernel.frameStep (fun k i => (k.sched.getProcess i.1).isSome = true) Kernel.lodging
        [(1, .map 0x80000000 0x30E000 3)]).any (fun out =>
          decide (out.2.map Prod.fst = [(1, .map 0x80000000 0x30E000 3)] ∧
            out.1.reaches 1 0x80000000 0x30E000 = true ∧ out.1.mem.frameAddr 523 = 0x30E000 ∧
            out.1.mem.isFree 523 = true)) = true := by decide +kernel
    obtain ⟨⟨k, es⟩, hrun, hout⟩ := (Option.any_eq_true _ _).1 hexec
    obtain ⟨hcalls, hfirst, haddr, hfree⟩ := of_decide_eq_true hout
    obtain ⟨x, hx, hfx⟩ := accessible_of_reaches hfirst
    refine ⟨es, k, run_of_exec hrun, hcalls, fun h => ?_⟩
    have hnot := h.not_free hx hfx (by decide) haddr
    rw [show k.mem.isFree 523 = true from hfree] at hnot
    cases hnot

end Rost
