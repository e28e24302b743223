import Rost.Memory.Physical
import Rost.Lib.Run

/-!
# Every frame has one owner

The statics of `physical.rs` and `pool.rs` for a region at any address and of any size; `Memory` has the same
allocator over a region that boot promises to be aligned and below `2 ^ 52` (`Memory.allocator`).  The frames of the
region are handed out, in the pool of page-table frames, or free in the bitmap, and each is exactly one of the three
(`Partition`), as long as only frames that were handed out are given back, each once.

When `base + size` overflows, the end of the region lies below its start: no frame is tracked and none is handed out.
-/

namespace Rost

open Lib (Bitmap Run exec run_of_exec)

/-- `kind as usize`, the index of a kind in the result of `frame_stats`. -/
def FrameKind.index : FrameKind → Fin 5
  | .free => 0
  | .kernelData => 1
  | .userOwned => 2
  | .guard => 3
  | .mmio => 4

/-- `GLOBAL_ALLOC_BASE`, `GLOBAL_ALLOC_END`, `FREE_BITMAP`, `FRAME_TAGS` and `PT_POOL[..PT_POOL_TOP]`, last one first. -/
structure FrameAllocator where
  base : Word
  limit : Word
  freeBitmap : Bitmap
  frameTags : Nat → FrameKind
  ptPool : List Word

namespace FrameAllocator

/-! ### The two allocators -/

def frameAddr (a : FrameAllocator) (idx : Nat) : Word := a.base + BitVec.ofNat 64 (idx * pageSize)

def isFree (a : FrameAllocator) (idx : Nat) : Bool := a.freeBitmap.test idx

def frameIndex (a : FrameAllocator) (phys : Word) : Option Nat :=
  if phys < a.base then none
  else
    let idx := (phys - a.base).toNat / pageSize
    if maxTrackedFrames ≤ idx then none else some idx

def frameTag (a : FrameAllocator) (phys : Word) (kind : FrameKind) : FrameAllocator :=
  match a.frameIndex phys with
  | none => a
  | some idx => { a with frameTags := fun i => if i = idx then kind else a.frameTags i }

/-- The number of frames `frame_stats` looks at. -/
def tracked (a : FrameAllocator) : Nat :=
  if a.base < a.limit then min ((a.limit - a.base).toNat / pageSize) maxTrackedFrames else 0

/-- The number of tracked frames of each kind. -/
def frameStats (a : FrameAllocator) : Vector Nat 5 :=
  (List.range a.tracked).foldl
    (fun stats i => let k := (a.frameTags i).index; stats.set k (stats.get k + 1)) (Vector.replicate 5 0)

def initGlobalAllocator (a : FrameAllocator) (base size : Word) : FrameAllocator :=
  { a with
    base := base
    limit := base + size
    freeBitmap := (List.range (min (size.toNat / pageSize) maxTrackedFrames)).foldl Bitmap.set Bitmap.empty
    frameTags := fun _ => .free }

def globalAlloc4k (a : FrameAllocator) : FrameAllocator × Option Word :=
  match a.freeBitmap.findFirst (maxTrackedFrames / 64) with
  | none => (a, none)
  | some idx =>
    if a.limit ≤ a.frameAddr idx then (a, none)
    else (({ a with freeBitmap := a.freeBitmap.clear idx } : FrameAllocator).frameTag (a.frameAddr idx) .kernelData,
      some (a.frameAddr idx))

def globalFree4k (a : FrameAllocator) (phys : Word) : FrameAllocator :=
  match a.frameIndex phys with
  | none => a
  | some idx => ({ a with freeBitmap := a.freeBitmap.set idx } : FrameAllocator).frameTag phys .free

/-- The loop of `pool_init`; `filled` are the frames drawn so far, last one first. -/
def poolFill : Nat → FrameAllocator → List Word → FrameAllocator × List Word
  | 0, a, filled => (a, filled)
  | count + 1, a, filled =>
    match a.globalAlloc4k with
    | (a, none) => (a, filled)
    | (a, some phys) => poolFill count a (phys :: filled)

def poolInit (a : FrameAllocator) (count : Nat) : FrameAllocator × Nat :=
  let (a, filled) := poolFill (min count ptPoolCap) a []
  ({ a with ptPool := filled }, filled.length)

def poolAllocPt (a : FrameAllocator) : FrameAllocator × Option Word :=
  match a.ptPool with
  | [] => (a, none)
  | phys :: rest => ({ a with ptPool := rest }, some phys)

def poolFreePt (a : FrameAllocator) (phys : Word) : FrameAllocator :=
  if a.ptPool.length < ptPoolCap then { a with ptPool := phys :: a.ptPool } else a.globalFree4k phys

/-- The statics before boot. -/
def zeroed : FrameAllocator := ⟨0, 0, Bitmap.empty, fun _ => .free, []⟩

/-! ### Addresses and indices of tracked frames -/

variable {a : FrameAllocator}

theorem tracked_le (a : FrameAllocator) : a.tracked ≤ maxTrackedFrames := by
  unfold tracked
  split
  · exact Nat.min_le_right _ _
  · exact Nat.zero_le _

/-- The frames that are tracked lie below the end of the region. -/
theorem tracked_end {i : Nat} (h : i < a.tracked) : a.base.toNat + (i + 1) * pageSize ≤ a.limit.toNat := by
  unfold tracked at h
  split at h
  · rename_i hlt
    have hlt' : a.base.toNat < a.limit.toNat := hlt
    rw [BitVec.toNat_sub_of_le (BitVec.le_of_lt hlt)] at h
    have hdiv : (i + 1) * pageSize ≤ a.limit.toNat - a.base.toNat :=
      (Nat.le_div_iff_mul_le (by decide)).1 (Nat.le_trans h (Nat.min_le_left _ _))
    omega
  · omega

theorem toNat_frameAddr {i : Nat} (h : i < a.tracked) : (a.frameAddr i).toNat = a.base.toNat + i * pageSize := by
  have hend := tracked_end h
  have hlim := a.limit.isLt
  unfold frameAddr pageSize at *
  rw [BitVec.toNat_add, BitVec.toNat_ofNat]
  omega

theorem frameAddr_inj {i j : Nat} (hi : i < a.tracked) (hj : j < a.tracked) (h : a.frameAddr i = a.frameAddr j) :
    i = j := by
  have := congrArg BitVec.toNat h
  rw [toNat_frameAddr hi, toNat_frameAddr hj] at this
  unfold pageSize at this
  omega

theorem frameIndex_frameAddr {i : Nat} (h : i < a.tracked) : a.frameIndex (a.frameAddr i) = some i := by
  have hto := toNat_frameAddr h
  have hle : a.base ≤ a.frameAddr i := by
    rw [BitVec.le_def, hto]; omega
  have hdiv : (a.frameAddr i - a.base).toNat / pageSize = i := by
    rw [BitVec.toNat_sub_of_le hle, hto, Nat.add_sub_cancel_left]
    exact Nat.mul_div_cancel i (by decide)
  unfold frameIndex
  rw [if_neg (BitVec.not_lt.2 hle)]
  simp only [hdiv]
  rw [if_neg (Nat.not_le.2 (Nat.lt_of_lt_of_le h a.tracked_le))]

theorem frameTag_frameAddr {i : Nat} (h : i < a.tracked) (kind : FrameKind) :
    a.frameTag (a.frameAddr i) kind = { a with frameTags := fun j => if j = i then kind else a.frameTags j } := by
  unfold frameTag
  rw [frameIndex_frameAddr h]

/-- Taking and giving back frames does not move the region. -/
theorem tracked_congr {b : FrameAllocator} (hbase : b.base = a.base) (hlimit : b.limit = a.limit) :
    b.tracked = a.tracked := by
  unfold tracked
  rw [hbase, hlimit]

/-! ### Counting kinds -/

private theorem sum_list_set (l : List Nat) (k : Nat) (h : k < l.length) :
    (l.set k (l[k] + 1)).sum = l.sum + 1 := by
  induction l generalizing k with
  | nil => cases h
  | cons x l ih =>
    cases k with
    | zero => simp only [List.set_cons_zero, List.getElem_cons_zero, List.sum_cons]; omega
    | succ k =>
      have hk : k < l.length := Nat.lt_of_succ_lt_succ h
      simp only [List.set_cons_succ, List.getElem_cons_succ, List.sum_cons, ih k hk]
      omega

private theorem sum_vector_set (v : Vector Nat 5) (k : Fin 5) : (v.set k (v.get k + 1)).sum = v.sum + 1 := by
  have h : (k : Nat) < v.toList.length := by rw [Vector.length_toList]; exact k.isLt
  have hget : v.get k = v.toList[(k : Nat)] := by simp [Vector.get]
  rw [← Vector.sum_toList, ← Vector.sum_toList, Vector.toList_set, hget]
  exact sum_list_set v.toList k h

/-- Every tracked frame is counted once. -/
theorem sum_frameStats (a : FrameAllocator) : a.frameStats.sum = a.tracked := by
  have hfold : ∀ (l : List Nat) (v : Vector Nat 5),
      (l.foldl (fun stats i => let k := (a.frameTags i).index; stats.set k (stats.get k + 1)) v).sum =
        v.sum + l.length := by
    intro l
    induction l with
    | nil => intro v; rfl
    | cons i l ih =>
      intro v
      rw [List.foldl_cons, ih, sum_vector_set, List.length_cons]
      omega
  unfold frameStats
  rw [hfold, List.length_range, show (Vector.replicate 5 0).sum = 0 from rfl, Nat.zero_add]

/-! ### The partition of the frames -/

/-- The tracked frames that are not free are handed out or in the pool, each once, and the tags agree with the bitmap.
The bitmap has bits beyond the tracked frames only if the end of the region wrapped around: then the first frame is
free and lies above the end. -/
structure Partition (a : FrameAllocator) (handed : List Word) : Prop where
  nodup : (handed ++ a.ptPool).Nodup
  mem_iff : ∀ p, p ∈ handed ++ a.ptPool ↔ ∃ i < a.tracked, p = a.frameAddr i ∧ a.isFree i = false
  bits : (a.limit < a.base ∧ a.isFree 0 = true) ∨ ∀ i < maxTrackedFrames, a.isFree i = true → i < a.tracked
  tags : ∀ i < a.tracked, a.frameTags i = .free ↔ a.isFree i = true

/-- Take the frame with index `i` out of the bitmap. -/
def taken (a : FrameAllocator) (i : Nat) : FrameAllocator :=
  { a with
    freeBitmap := a.freeBitmap.clear i
    frameTags := fun j => if j = i then .kernelData else a.frameTags j }

/-- Put the frame with index `i` into the bitmap. -/
def released (a : FrameAllocator) (i : Nat) : FrameAllocator :=
  { a with
    freeBitmap := a.freeBitmap.set i
    frameTags := fun j => if j = i then .free else a.frameTags j }

theorem isFree_taken (a : FrameAllocator) (i j : Nat) : (a.taken i).isFree j = (a.isFree j && !decide (j = i)) :=
  Bitmap.test_clear a.freeBitmap i j

theorem isFree_released (a : FrameAllocator) (i j : Nat) : (a.released i).isFree j = (a.isFree j || decide (j = i)) :=
  Bitmap.test_set a.freeBitmap i j

theorem tracked_eq_zero (h : a.limit < a.base) : a.tracked = 0 := by
  unfold tracked
  rw [if_neg (BitVec.not_lt.2 (BitVec.le_of_lt h))]

namespace Partition

variable {handed : List Word}

/-- The allocator fails when no tracked frame is free, else it takes one of these. -/
theorem globalAlloc4k_cases (h : a.Partition handed) :
    ((∀ i < a.tracked, a.isFree i = false) ∧ a.globalAlloc4k = (a, none)) ∨
    ∃ i < a.tracked, a.isFree i = true ∧ a.globalAlloc4k = (a.taken i, some (a.frameAddr i)) := by
  unfold globalAlloc4k
  cases hfind : a.freeBitmap.findFirst (maxTrackedFrames / 64) with
  | none =>
    refine Or.inl ⟨fun i hi => ?_, rfl⟩
    exact Bitmap.findFirst_eq_none hfind (Nat.lt_of_lt_of_le hi a.tracked_le)
  | some idx =>
    obtain ⟨hlt, htest, hleast⟩ := Bitmap.findFirst_eq_some hfind
    dsimp only
    rcases h.bits with ⟨hwrap, hzero⟩ | hbits
    · -- the first frame is free, so it is the one that is found
      have hidx : idx = 0 := by
        by_contra hne
        have := hleast 0 (Nat.pos_of_ne_zero hne)
        rw [show a.freeBitmap.test 0 = a.isFree 0 from rfl, hzero] at this
        cases this
      have haddr : a.frameAddr idx = a.base := by
        rw [hidx]
        unfold frameAddr
        rw [Nat.zero_mul]
        exact BitVec.add_zero _
      rw [haddr, if_pos (BitVec.le_of_lt hwrap)]
      refine Or.inl ⟨fun i hi => ?_, rfl⟩
      rw [tracked_eq_zero hwrap] at hi
      omega
    · have hidx : idx < a.tracked := hbits idx hlt htest
      have hbelow : ¬ a.limit ≤ a.frameAddr idx := by
        have hend := tracked_end hidx
        rw [BitVec.le_def, toNat_frameAddr hidx]
        unfold pageSize at *
        omega
      rw [if_neg hbelow]
      refine Or.inr ⟨idx, hidx, htest, ?_⟩
      have htag := frameTag_frameAddr (a := { a with freeBitmap := a.freeBitmap.clear idx }) (i := idx) hidx .kernelData
      exact congrArg (·, some (a.frameAddr idx)) htag

/-- With a tracked frame, the end of the region did not wrap around. -/
theorem lt_tracked (h : a.Partition handed) {i : Nat} (hi : i < a.tracked) :
    ∀ j < maxTrackedFrames, a.isFree j = true → j < a.tracked := by
  rcases h.bits with ⟨hwrap, -⟩ | hbits
  · rw [tracked_eq_zero hwrap] at hi
    omega
  · exact hbits

/-- A frame that is handed out or pooled is not free. -/
theorem exists_index (h : a.Partition handed) {p : Word} (hp : p ∈ handed ++ a.ptPool) :
    ∃ i < a.tracked, p = a.frameAddr i ∧ a.isFree i = false := (h.mem_iff p).1 hp

/-- Frames may move between the callers and the pool. -/
theorem move (h : a.Partition handed) {handed' pool' : List Word}
    (hperm : (handed' ++ pool').Perm (handed ++ a.ptPool)) : ({ a with ptPool := pool' }).Partition handed' where
  nodup := hperm.nodup_iff.2 h.nodup
  mem_iff := fun p => (hperm.mem_iff).trans (h.mem_iff p)
  bits := h.bits
  tags := h.tags

/-- A free frame can be handed out. -/
theorem take (h : a.Partition handed) {i : Nat} (hi : i < a.tracked) (hfree : a.isFree i = true) :
    (a.taken i).Partition (a.frameAddr i :: handed) where
  nodup := by
    refine List.nodup_cons.2 ⟨fun hm => ?_, h.nodup⟩
    obtain ⟨j, hj, haddr, hnot⟩ := h.exists_index hm
    rw [← frameAddr_inj hi hj haddr, hfree] at hnot
    cases hnot
  mem_iff := by
    intro p
    show p ∈ a.frameAddr i :: (handed ++ a.ptPool) ↔ ∃ j < a.tracked, p = a.frameAddr j ∧ (a.taken i).isFree j = false
    rw [List.mem_cons, h.mem_iff]
    constructor
    · rintro (rfl | ⟨j, hj, haddr, hnot⟩)
      · exact ⟨i, hi, rfl, by simp [isFree_taken]⟩
      · exact ⟨j, hj, haddr, by simp [isFree_taken, hnot]⟩
    · rintro ⟨j, hj, haddr, hnot⟩
      rw [isFree_taken] at hnot
      by_cases hji : j = i
      · exact Or.inl (hji ▸ haddr)
      · exact Or.inr ⟨j, hj, haddr, by simpa [hji] using hnot⟩
  bits := by
    refine Or.inr fun j hj hjfree => h.lt_tracked hi j hj ?_
    rw [isFree_taken] at hjfree
    exact (Bool.and_eq_true_iff.1 hjfree).1
  tags := by
    intro j hj
    rw [isFree_taken]
    show (if j = i then FrameKind.kernelData else a.frameTags j) = .free ↔ _
    by_cases hji : j = i
    · simp [hji]
    · simp [hji, h.tags j hj]

/-- A frame that was handed out can become free. -/
theorem release (h : a.Partition handed) {i : Nat} (hi : i < a.tracked) (hmem : a.frameAddr i ∈ handed) :
    (a.released i).Partition (handed.erase (a.frameAddr i)) := by
  have hperm : (handed ++ a.ptPool).Perm (a.frameAddr i :: (handed.erase (a.frameAddr i) ++ a.ptPool)) :=
    (List.perm_cons_erase hmem).append_right _
  have hnodup := hperm.nodup_iff.1 h.nodup
  refine ⟨(List.nodup_cons.1 hnodup).2, fun p => ?_, Or.inr fun j hj hjfree => ?_, fun j hj => ?_⟩
  · show p ∈ handed.erase (a.frameAddr i) ++ a.ptPool ↔
      ∃ j < a.tracked, p = a.frameAddr j ∧ (a.released i).isFree j = false
    constructor
    · intro hp
      obtain ⟨j, hj, haddr, hnot⟩ := h.exists_index (hperm.mem_iff.2 (List.mem_cons_of_mem _ hp))
      have hji : j ≠ i := by
        rintro rfl
        exact (List.nodup_cons.1 hnodup).1 (haddr ▸ hp)
      exact ⟨j, hj, haddr, by simp [isFree_released, hnot, hji]⟩
    · rintro ⟨j, hj, haddr, hnot⟩
      rw [isFree_released, Bool.or_eq_false_iff, decide_eq_false_iff_not] at hnot
      have hp := hperm.mem_iff.1 ((h.mem_iff p).2 ⟨j, hj, haddr, hnot.1⟩)
      rcases List.mem_cons.1 hp with heq | hp
      · exact absurd (frameAddr_inj hj hi (haddr.symm.trans heq)) hnot.2
      · exact hp
  · rw [isFree_released, Bool.or_eq_true, decide_eq_true_iff] at hjfree
    rcases hjfree with hjfree | rfl
    · exact h.lt_tracked hi j hj hjfree
    · exact hi
  · rw [isFree_released]
    show (if j = i then FrameKind.free else a.frameTags j) = .free ↔ _
    by_cases hji : j = i
    · simp [hji]
    · simp [hji, h.tags j hj]

/-- `global_free_4k` of a frame that was handed out. -/
theorem globalFree4k (h : a.Partition handed) {p : Word} (hp : p ∈ handed) :
    (a.globalFree4k p).Partition (handed.erase p) ∧ (a.globalFree4k p).base = a.base ∧
      (a.globalFree4k p).limit = a.limit := by
  obtain ⟨i, hi, rfl, -⟩ := h.exists_index (List.mem_append_left _ hp)
  have heq : a.globalFree4k (a.frameAddr i) = a.released i := by
    unfold FrameAllocator.globalFree4k
    rw [frameIndex_frameAddr hi]
    exact frameTag_frameAddr (a := { a with freeBitmap := a.freeBitmap.set i }) hi .free
  rw [heq]
  exact ⟨h.release hi hp, rfl, rfl⟩

end Partition

/-! ### Boot -/

/-- The frames of the region are tracked, unless its end wraps around. -/
theorem tracked_initGlobalAllocator (a : FrameAllocator) (base size : Word) :
    (a.initGlobalAllocator base size).tracked =
      if base.toNat + size.toNat < 2 ^ 64 then min (size.toNat / pageSize) maxTrackedFrames else 0 := by
  have hsize := size.isLt
  have hbase := base.isLt
  have hto : (base + size).toNat = (base.toNat + size.toNat) % 2 ^ 64 := BitVec.toNat_add _ _
  unfold tracked
  show (if base < base + size then min ((base + size - base).toNat / pageSize) maxTrackedFrames else 0) = _
  rw [show base + size - base = size by rw [BitVec.add_comm, BitVec.add_sub_cancel]]
  by_cases hfit : base.toNat + size.toNat < 2 ^ 64
  · rw [if_pos hfit]
    by_cases hzero : size.toNat = 0
    · rw [hzero]
      simp
    · rw [if_pos]
      rw [BitVec.lt_def]
      omega
  · rw [if_neg hfit, if_neg]
    rw [BitVec.lt_def]
    omega

theorem isFree_initGlobalAllocator (a : FrameAllocator) (base size : Word) (i : Nat) :
    (a.initGlobalAllocator base size).isFree i = true ↔ i < min (size.toNat / pageSize) maxTrackedFrames := by
  show ((List.range _).foldl Bitmap.set Bitmap.empty).test i = true ↔ _
  rw [Bitmap.test_foldl_set, List.mem_range]
  simp

/-- After `init_global_allocator` every tracked frame is free. -/
theorem Partition.init (base size : Word) : (zeroed.initGlobalAllocator base size).Partition [] := by
  have htracked := zeroed.tracked_initGlobalAllocator base size
  have hfree := zeroed.isFree_initGlobalAllocator base size
  refine ⟨List.nodup_nil, fun p => ⟨fun hp => (List.not_mem_nil hp).elim, ?_⟩, ?_, fun i hi => ?_⟩
  · rintro ⟨i, hi, -, hnot⟩
    rw [htracked] at hi
    split at hi
    · rw [(hfree i).2 hi] at hnot
      cases hnot
    · omega
  · by_cases hfit : base.toNat + size.toNat < 2 ^ 64
    · refine Or.inr fun i _ hi => ?_
      rw [htracked, if_pos hfit]
      exact (hfree i).1 hi
    · by_cases hpage : size.toNat / pageSize = 0
      · refine Or.inr fun i _ hi => ?_
        have := (hfree i).1 hi
        omega
      · refine Or.inl ⟨?_, (hfree 0).2 (Nat.lt_min.2 ⟨Nat.pos_of_ne_zero hpage, by decide⟩)⟩
        show base + size < base
        rw [BitVec.lt_def, BitVec.toNat_add]
        have := size.isLt
        have := base.isLt
        omega
  · rw [htracked] at hi
    split at hi
    · exact ⟨fun _ => (hfree i).2 hi, fun _ => rfl⟩
    · omega

/-- The pool is filled with frames taken from the bitmap. -/
theorem Partition.poolFill {filled : List Word} (count : Nat) (h : a.Partition filled) (hpool : a.ptPool = []) :
    (FrameAllocator.poolFill count a filled).1.Partition (FrameAllocator.poolFill count a filled).2 ∧
      (FrameAllocator.poolFill count a filled).1.ptPool = [] ∧
      (FrameAllocator.poolFill count a filled).1.base = a.base ∧
      (FrameAllocator.poolFill count a filled).1.limit = a.limit := by
  induction count generalizing a filled with
  | zero => exact ⟨h, hpool, rfl, rfl⟩
  | succ count ih =>
    unfold FrameAllocator.poolFill
    rcases h.globalAlloc4k_cases with ⟨-, heq⟩ | ⟨i, hi, hfree, heq⟩
    · rw [heq]
      exact ⟨h, hpool, rfl, rfl⟩
    · rw [heq]
      exact ih (h.take hi hfree) hpool

/-- Both allocators after boot. -/
def boot (base size : Word) (count : Nat) : FrameAllocator :=
  ((zeroed.initGlobalAllocator base size).poolInit count).1

theorem Partition.boot (base size : Word) (count : Nat) :
    (FrameAllocator.boot base size count).Partition [] ∧ (FrameAllocator.boot base size count).base = base ∧
      (FrameAllocator.boot base size count).limit = base + size := by
  obtain ⟨hpart, hpool, hbase, hlimit⟩ := (Partition.init base size).poolFill (min count ptPoolCap) rfl
  refine ⟨hpart.move ?_, hbase, hlimit⟩
  rw [hpool, List.append_nil]
  exact List.Perm.refl _

end FrameAllocator

/-! ### The allocators of the memory -/

namespace Memory

/-- The statics of the allocators in a memory. -/
def allocator (m : Memory) : FrameAllocator where
  base := BitVec.ofNat 64 m.region.base
  limit := BitVec.ofNat 64 (m.region.base + m.region.size)
  freeBitmap := m.freeBitmap
  frameTags := m.frameTags
  ptPool := m.ptPool

theorem toNat_base (m : Memory) : m.allocator.base.toNat = m.region.base := by
  have := m.region.end_le
  show (BitVec.ofNat 64 m.region.base).toNat = _
  rw [BitVec.toNat_ofNat]
  omega

theorem toNat_limit (m : Memory) : m.allocator.limit.toNat = m.region.base + m.region.size := by
  have := m.region.end_le
  show (BitVec.ofNat 64 (m.region.base + m.region.size)).toNat = _
  rw [BitVec.toNat_ofNat]
  omega

private theorem allocator_frameAddr (m : Memory) (i : Nat) : m.allocator.frameAddr i = m.frameAddr i := by
  unfold FrameAllocator.frameAddr frameAddr allocator
  rw [← BitVec.ofNat_add]

private theorem allocator_frameIndex (m : Memory) (phys : Word) : m.allocator.frameIndex phys = m.frameIndex phys := by
  have hbase := m.toNat_base
  unfold FrameAllocator.frameIndex frameIndex
  by_cases hlt : phys.toNat < m.region.base
  · rw [if_pos hlt, if_pos]
    rw [BitVec.lt_def, hbase]; exact hlt
  · have hle : m.allocator.base ≤ phys := by
      rw [BitVec.le_def, hbase]; omega
    rw [if_neg hlt, if_neg (BitVec.not_lt.2 hle), BitVec.toNat_sub_of_le hle, hbase]

theorem allocator_frameTag (m : Memory) (phys : Word) (kind : FrameKind) :
    (m.frameTag phys kind).allocator = m.allocator.frameTag phys kind := by
  unfold frameTag FrameAllocator.frameTag
  rw [allocator_frameIndex]
  cases m.frameIndex phys <;> rfl

theorem allocator_initGlobalAllocator (m : Memory) (region : AllocRegion) :
    (m.initGlobalAllocator region).allocator =
      m.allocator.initGlobalAllocator (BitVec.ofNat 64 region.base) (BitVec.ofNat 64 region.size) := by
  have hsize : (BitVec.ofNat 64 region.size).toNat = region.size := by
    have := region.end_le
    rw [BitVec.toNat_ofNat]
    omega
  unfold allocator initGlobalAllocator FrameAllocator.initGlobalAllocator
  rw [hsize, ← BitVec.ofNat_add]

theorem allocator_globalAlloc4k (m : Memory) :
    (m.globalAlloc4k.1.allocator, m.globalAlloc4k.2) = m.allocator.globalAlloc4k := by
  unfold globalAlloc4k FrameAllocator.globalAlloc4k
  rw [show m.allocator.freeBitmap = m.freeBitmap from rfl]
  cases hfind : m.freeBitmap.findFirst (maxTrackedFrames / 64) with
  | none => rfl
  | some idx =>
    have hiff : m.allocator.limit ≤ m.allocator.frameAddr idx ↔
        m.region.base + m.region.size ≤ (m.frameAddr idx).toNat := by
      rw [BitVec.le_def, toNat_limit, allocator_frameAddr]
    dsimp only
    by_cases hend : m.region.base + m.region.size ≤ (m.frameAddr idx).toNat
    · rw [if_pos hend, if_pos (hiff.2 hend)]
    · rw [if_neg hend, if_neg (fun h => hend (hiff.1 h)), allocator_frameTag, allocator_frameAddr]
      rfl

theorem allocator_globalFree4k (m : Memory) (phys : Word) :
    (m.globalFree4k phys).allocator = m.allocator.globalFree4k phys := by
  unfold globalFree4k FrameAllocator.globalFree4k
  rw [allocator_frameIndex]
  cases m.frameIndex phys with
  | none => rfl
  | some idx => exact allocator_frameTag _ phys .free

private theorem allocator_poolFill (count : Nat) (m : Memory) (filled : List Word) :
    ((poolFill count m filled).1.allocator, (poolFill count m filled).2) =
      FrameAllocator.poolFill count m.allocator filled := by
  induction count generalizing m filled with
  | zero => rfl
  | succ count ih =>
    unfold poolFill FrameAllocator.poolFill
    rw [← allocator_globalAlloc4k]
    rcases m.globalAlloc4k with ⟨m', _ | phys⟩
    · rfl
    · exact ih m' (phys :: filled)

theorem allocator_poolInit (m : Memory) (count : Nat) :
    ((m.poolInit count).1.allocator, (m.poolInit count).2) = m.allocator.poolInit count := by
  unfold poolInit FrameAllocator.poolInit
  rw [← allocator_poolFill]
  rfl

theorem allocator_poolAllocPt (m : Memory) :
    (m.poolAllocPt.1.allocator, m.poolAllocPt.2) = m.allocator.poolAllocPt := by
  unfold poolAllocPt FrameAllocator.poolAllocPt
  rw [show m.allocator.ptPool = m.ptPool from rfl]
  cases m.ptPool <;> rfl

theorem allocator_poolFreePt (m : Memory) (phys : Word) :
    (m.poolFreePt phys).allocator = m.allocator.poolFreePt phys := by
  unfold poolFreePt FrameAllocator.poolFreePt
  rw [show m.allocator.ptPool = m.ptPool from rfl]
  by_cases hroom : m.ptPool.length < ptPoolCap
  · rw [if_pos hroom, if_pos hroom]; rfl
  · rw [if_neg hroom, if_neg hroom]
    exact m.allocator_globalFree4k phys

end Memory

/-! ### Runs of the allocators -/

inductive FrameOp where
  | globalAlloc4k
  | poolAllocPt
  | globalFree4k (phys : Word)
  | poolFreePt (phys : Word)
deriving DecidableEq

/-- The allocators together with the frames that are handed out. -/
structure FrameLedger where
  alloc : FrameAllocator
  handed : List Word

namespace FrameLedger

/-- Only frames that are handed out are given back. -/
def GivesBack (s : FrameLedger) : FrameOp → Prop
  | .globalAlloc4k | .poolAllocPt => True
  | .globalFree4k phys | .poolFreePt phys => phys ∈ s.handed

instance (s : FrameLedger) (op : FrameOp) : Decidable (s.GivesBack op) :=
  match op with
  | .globalAlloc4k | .poolAllocPt => isTrue trivial
  | .globalFree4k phys | .poolFreePt phys => inferInstanceAs (Decidable (phys ∈ s.handed))

/-- The frames handed out after one more is returned, if any. -/
def received (s : FrameLedger) (out : FrameAllocator × Option Word) : FrameLedger × Option Word :=
  (⟨out.1, out.2.toList ++ s.handed⟩, out.2)

def step (s : FrameLedger) : FrameOp → Option (FrameLedger × Option Word)
  | .globalAlloc4k => some (s.received s.alloc.globalAlloc4k)
  | .poolAllocPt => some (s.received s.alloc.poolAllocPt)
  | .globalFree4k phys => some (⟨s.alloc.globalFree4k phys, s.handed.erase phys⟩, none)
  | .poolFreePt phys => some (⟨s.alloc.poolFreePt phys, s.handed.erase phys⟩, none)

/-- Nothing is handed out after boot. -/
def boot (base size : Word) (count : Nat) : FrameLedger := ⟨FrameAllocator.boot base size count, []⟩

/-- The frames of a region from `base` to `limit` have one owner each. -/
structure Sound (base limit : Word) (s : FrameLedger) : Prop where
  base_eq : s.alloc.base = base
  limit_eq : s.alloc.limit = limit
  part : s.alloc.Partition s.handed

variable {base limit : Word} {s s' : FrameLedger} {op : FrameOp} {r : Option Word}

theorem Sound.step (h : s.Sound base limit) (hop : s.GivesBack op) (hstep : s.step op = some (s', r)) :
    s'.Sound base limit := by
  cases op with
  | globalAlloc4k =>
    obtain ⟨rfl, rfl⟩ := Prod.mk.inj (Option.some.inj hstep)
    rcases h.part.globalAlloc4k_cases with ⟨-, heq⟩ | ⟨i, hi, hfree, heq⟩
    · rw [heq]; exact ⟨h.base_eq, h.limit_eq, h.part⟩
    · rw [heq]; exact ⟨h.base_eq, h.limit_eq, h.part.take hi hfree⟩
  | poolAllocPt =>
    obtain ⟨rfl, rfl⟩ := Prod.mk.inj (Option.some.inj hstep)
    unfold FrameAllocator.poolAllocPt
    split
    · exact ⟨h.base_eq, h.limit_eq, h.part⟩
    · rename_i phys rest hpool
      refine ⟨h.base_eq, h.limit_eq, h.part.move ?_⟩
      rw [hpool]
      exact List.perm_middle.symm
  | globalFree4k phys =>
    obtain ⟨rfl, rfl⟩ := Prod.mk.inj (Option.some.inj hstep)
    obtain ⟨hpart, hbase, hlimit⟩ := h.part.globalFree4k hop
    exact ⟨hbase.trans h.base_eq, hlimit.trans h.limit_eq, hpart⟩
  | poolFreePt phys =>
    obtain ⟨rfl, rfl⟩ := Prod.mk.inj (Option.some.inj hstep)
    have hmem : phys ∈ s.handed := hop
    unfold FrameAllocator.poolFreePt
    split
    · refine ⟨h.base_eq, h.limit_eq, h.part.move ?_⟩
      exact List.perm_middle.trans ((List.perm_cons_erase hmem).append_right _).symm
    · obtain ⟨hpart, hbase, hlimit⟩ := h.part.globalFree4k hmem
      exact ⟨hbase.trans h.base_eq, hlimit.trans h.limit_eq, hpart⟩

/-- A frame that a step returns is a tracked frame that nobody else had. -/
theorem Sound.returned (h : s.Sound base limit) {phys : Word} (hstep : s.step op = some (s', some phys)) :
    phys ∉ s.handed ∧ s'.handed = phys :: s.handed := by
  cases op with
  | globalAlloc4k =>
    obtain ⟨rfl, hr⟩ := Prod.mk.inj (Option.some.inj hstep)
    rcases h.part.globalAlloc4k_cases with ⟨-, heq⟩ | ⟨i, hi, hfree, heq⟩
    · rw [heq] at hr; cases hr
    · rw [heq] at hr ⊢
      cases hr
      have := h.part.take hi hfree
      exact ⟨fun hm => (List.nodup_cons.1 this.nodup).1 (List.mem_append_left _ hm), rfl⟩
  | poolAllocPt =>
    obtain ⟨rfl, hr⟩ := Prod.mk.inj (Option.some.inj hstep)
    unfold FrameAllocator.poolAllocPt at hr ⊢
    split at hr
    · cases hr
    · rename_i p rest hpool
      cases hr
      have hnodup := h.part.nodup
      rw [hpool] at hnodup
      exact ⟨fun hm => (List.nodup_append.1 hnodup).2.2 _ hm _ List.mem_cons_self rfl, rfl⟩
  | globalFree4k p => cases (Prod.mk.inj (Option.some.inj hstep)).2
  | poolFreePt p => cases (Prod.mk.inj (Option.some.inj hstep)).2

/-- In every state of a run, for any region and any size of the pool: a frame that an operation returns is a page of
the region that was not handed out and is now neither in the pool nor free; `global_alloc_4k` fails exactly when no
tracked frame is free; the tags agree with the bitmap; and the kinds add up to the tracked frames. -/
theorem frames_exclusive (base size : Word) (count : Nat) {es : List (FrameOp × Option Word)} {s : FrameLedger}
    (hrun : Run step GivesBack (boot base size count) es s) :
    (∀ op s' phys, s.GivesBack op → s.step op = some (s', some phys) →
      base.toNat ≤ phys.toNat ∧ phys.toNat < base.toNat + size.toNat ∧ phys ∉ s.handed ∧ phys ∉ s'.alloc.ptPool ∧
        ∃ i < s.alloc.tracked, phys.toNat = base.toNat + i * pageSize ∧ s'.alloc.isFree i = false) ∧
    (s.alloc.globalAlloc4k.2 = none ↔ ∀ i < s.alloc.tracked, s.alloc.isFree i = false) ∧
    (∀ i < s.alloc.tracked, s.alloc.frameTags i = .free ↔ s.alloc.isFree i = true) ∧
    s.alloc.frameStats.sum = s.alloc.tracked ∧
    s.alloc.tracked = if base.toNat + size.toNat < 2 ^ 64 then min (size.toNat / pageSize) maxTrackedFrames else 0 := by
  have hboot : (boot base size count).Sound base (base + size) := by
    obtain ⟨hpart, hbase, hlimit⟩ := FrameAllocator.Partition.boot base size count
    exact ⟨hbase, hlimit, hpart⟩
  have hs : s.Sound base (base + size) := hrun.invariant (fun h hop hstep => h.step hop hstep) hboot
  have htracked : s.alloc.tracked =
      if base.toNat + size.toNat < 2 ^ 64 then min (size.toNat / pageSize) maxTrackedFrames else 0 := by
    rw [← FrameAllocator.zeroed.tracked_initGlobalAllocator base size]
    exact FrameAllocator.tracked_congr hs.base_eq hs.limit_eq
  refine ⟨fun op s' phys hop hstep => ?_, ?_, hs.part.tags, s.alloc.sum_frameStats, htracked⟩
  · obtain ⟨hnew, hhanded⟩ := hs.returned hstep
    have hs' := hs.step hop hstep
    have hsame : s'.alloc.tracked = s.alloc.tracked :=
      FrameAllocator.tracked_congr (hs'.base_eq.trans hs.base_eq.symm) (hs'.limit_eq.trans hs.limit_eq.symm)
    have hmem : phys ∈ s'.handed := by rw [hhanded]; exact List.mem_cons_self
    obtain ⟨i, hi, haddr, hnot⟩ := hs'.part.exists_index (List.mem_append_left _ hmem)
    have hto : phys.toNat = base.toNat + i * pageSize := by
      rw [haddr, FrameAllocator.toNat_frameAddr hi, hs'.base_eq]
    rw [hsame] at hi
    have hsize : (i + 1) * pageSize ≤ size.toNat := by
      rw [htracked] at hi
      split at hi
      · exact (Nat.le_div_iff_mul_le (by decide)).1 (Nat.le_trans hi (Nat.min_le_left _ _))
      · omega
    refine ⟨by omega, ?_, hnew, ?_, i, hi, hto, hnot⟩
    · unfold pageSize at *
      omega
    · exact fun hpool => (List.nodup_append.1 hs'.part.nodup).2.2 _ hmem _ hpool rfl
  · rcases hs.part.globalAlloc4k_cases with ⟨hnone, heq⟩ | ⟨i, hi, hfree, heq⟩
    · rw [heq]
      exact ⟨fun _ => hnone, fun _ => rfl⟩
    · rw [heq]
      refine ⟨fun h => absurd h (Option.some_ne_none _), fun h => ?_⟩
      rw [h i hi] at hfree
      cases hfree

/-- An unaligned region of three frames and a bit, one of them in the pool. -/
theorem frames_exclusive_unaligned : ∃ s es,
    Run step GivesBack (boot 0x100010 0x3210 1) es s ∧ s.alloc.tracked = 3 ∧
      s.handed = [0x100010, 0x101010] ∧ s.alloc.ptPool = [] ∧ s.alloc.frameStats.sum = 3 := by
  have hexec : (exec step GivesBack (boot 0x100010 0x3210 1)
      [.globalAlloc4k, .poolAllocPt, .globalFree4k 0x101010, .globalAlloc4k, .poolFreePt 0x100010, .poolAllocPt]).any
        (fun out => decide (out.1.handed = [0x100010, 0x101010] ∧ out.1.alloc.ptPool = [])) = true := by
    decide +kernel
  obtain ⟨⟨s, es⟩, hrun, hout⟩ := (Option.any_eq_true _ _).1 hexec
  obtain ⟨hhanded, hpool⟩ := of_decide_eq_true hout
  have hrun := run_of_exec hrun
  obtain ⟨-, -, -, hsum, htracked⟩ := frames_exclusive 0x100010 0x3210 1 hrun
  have hthree : s.alloc.tracked = 3 := htracked.trans (by decide)
  exact ⟨s, es, hrun, hthree, hhanded, hpool, hsum.trans hthree⟩

end FrameLedger

end Rost
