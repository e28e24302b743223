import Rost.Basic
import Rost.Lib.Bitmap

/-!
# Physical memory

The frame allocator (a bitmap of 65536 frames of 4 KB above a base address, first fit), the tags of the frames, the
pool of page-table frames, and the contents of memory.  Every frame is an array of 512 words; page tables and data
frames are not told apart.  `GLOBAL_ALLOC_NEXT` is left out: it is a diagnostic that nothing reads.
-/

namespace Rost

open Lib (Bitmap)

def pageSize : Nat := 4096
def maxTrackedFrames : Nat := 65536
def ptPoolCap : Nat := 512

inductive FrameKind where
  | free
  | kernelData
  | userOwned
  | guard
  | mmio
deriving DecidableEq, Repr

/-- The region handed to `init_global_allocator`: the boot code passes page-aligned memory above its own 1 MB heap, and
physical addresses have at most 52 bits. -/
structure AllocRegion where
  base : Nat
  size : Nat
  base_pos : 0 < base
  base_aligned : base % pageSize = 0
  end_le : base + size ≤ 2 ^ 52

/-- The region of `size` bytes at 1 MB. -/
def AllocRegion.atOneMb (size : Nat) (h : size ≤ 2 ^ 32) : AllocRegion :=
  ⟨0x100000, size, by decide, by decide, by omega⟩

instance neZero_entries : NeZero 512 := ⟨by decide⟩

/-- The statics of the two allocators, and the contents of memory by the address of the frame. -/
structure Memory where
  region : AllocRegion
  freeBitmap : Bitmap
  frameTags : Nat → FrameKind
  ptPool : List Word
  ram : Word → Fin 512 → Word

/-- `w & 0x1FF` as an index into a table of 512 entries. -/
def low9 (w : Word) : Fin 512 := ⟨(w &&& 0x1FF#64).toNat, by
  have h : (w &&& 0x1FF#64).toNat ≤ (0x1FF#64).toNat := by
    rw [BitVec.toNat_and]; exact Nat.and_le_right
  exact Nat.lt_of_le_of_lt h (by decide)⟩

namespace Memory

/-! ### Contents -/

def writeEntry (m : Memory) (frame : Word) (i : Fin 512) (value : Word) : Memory :=
  { m with ram := fun f j => if f = frame ∧ j = i then value else m.ram f j }

/-- `write_bytes(frame, 0, 4096)`. -/
def zeroFrame (m : Memory) (frame : Word) : Memory :=
  { m with ram := fun f j => if f = frame then 0 else m.ram f j }

/-- The frame that holds the byte at a physical address. -/
def frameOf (phys : Word) : Word := phys &&& ~~~0xFFF#64

/-- The index in its frame of the word that holds the byte at a physical address. -/
def wordOf (phys : Word) : Fin 512 := low9 (phys >>> 3)

/-- Eight times the position of a byte in its word. -/
def bitOf (phys : Word) : Nat := 8 * (phys &&& 7#64).toNat

def readWord (m : Memory) (phys : Word) : Word := m.ram (frameOf phys) (wordOf phys)

def readByte (m : Memory) (phys : Word) : BitVec 8 := (m.readWord phys >>> bitOf phys).setWidth 8

def writeByte (m : Memory) (phys : Word) (value : BitVec 8) : Memory :=
  m.writeEntry (frameOf phys) (wordOf phys)
    (m.readWord phys &&& ~~~(0xFF#64 <<< bitOf phys) ||| value.setWidth 64 <<< bitOf phys)

/-! ### The frame allocator -/

/-- The address of the frame with index `idx`. -/
def frameAddr (m : Memory) (idx : Nat) : Word := BitVec.ofNat 64 (m.region.base + idx * pageSize)

def isFree (m : Memory) (idx : Nat) : Bool := m.freeBitmap.test idx

def frameIndex (m : Memory) (phys : Word) : Option Nat :=
  if phys.toNat < m.region.base then none
  else
    let idx := (phys.toNat - m.region.base) / pageSize
    if maxTrackedFrames ≤ idx then none else some idx

def frameTag (m : Memory) (phys : Word) (kind : FrameKind) : Memory :=
  match m.frameIndex phys with
  | none => m
  | some idx => { m with frameTags := fun i => if i = idx then kind else m.frameTags i }

def frameKind (m : Memory) (phys : Word) : FrameKind :=
  match m.frameIndex phys with
  | none => .free
  | some idx => m.frameTags idx

/-- Every frame of the region becomes free. -/
def initGlobalAllocator (m : Memory) (region : AllocRegion) : Memory :=
  { m with
    region := region
    freeBitmap := (List.range (min (region.size / pageSize) maxTrackedFrames)).foldl Bitmap.set Bitmap.empty
    frameTags := fun _ => .free }

/-- Zeroed memory with every frame of the region free. -/
def ofRegion (region : AllocRegion) : Memory :=
  initGlobalAllocator ⟨region, Bitmap.empty, fun _ => .free, [], fun _ _ => 0⟩ region

/-- Take the first free frame, unless it lies beyond the end of the region. -/
def globalAlloc4k (m : Memory) : Memory × Option Word :=
  match m.freeBitmap.findFirst (maxTrackedFrames / 64) with
  | none => (m, none)
  | some idx =>
    if m.region.base + m.region.size ≤ (m.frameAddr idx).toNat then (m, none)
    else (({ m with freeBitmap := m.freeBitmap.clear idx } : Memory).frameTag (m.frameAddr idx) .kernelData,
      some (m.frameAddr idx))

def globalFree4k (m : Memory) (phys : Word) : Memory :=
  match m.frameIndex phys with
  | none => m
  | some idx => ({ m with freeBitmap := m.freeBitmap.set idx } : Memory).frameTag phys .free

/-! ### The pool of page-table frames -/

/-- The loop of `pool_init`; `filled` are the frames drawn so far, last one first. -/
def poolFill : Nat → Memory → List Word → Memory × List Word
  | 0, m, filled => (m, filled)
  | count + 1, m, filled =>
    match m.globalAlloc4k with
    | (m, none) => (m, filled)
    | (m, some phys) => poolFill count m (phys :: filled)

def poolInit (m : Memory) (count : Nat) : Memory × Nat :=
  let (m, filled) := poolFill (min count ptPoolCap) m []
  ({ m with ptPool := filled }, filled.length)

def poolAllocPt (m : Memory) : Memory × Option Word :=
  match m.ptPool with
  | [] => (m, none)
  | phys :: rest => ({ m with ptPool := rest }, some phys)

def poolFreePt (m : Memory) (phys : Word) : Memory :=
  if m.ptPool.length < ptPoolCap then { m with ptPool := phys :: m.ptPool } else m.globalFree4k phys

/-- A frame for a page table: from the pool, else from the bitmap. -/
def allocPtFrame (m : Memory) : Memory × Option Word :=
  match m.poolAllocPt with
  | (m, some phys) => (m, some phys)
  | (m, none) => m.globalAlloc4k

end Memory

/-! ### The boot allocator -/

/-- The bump allocator that serves the kernel's own page tables during boot. -/
structure PhysicalAllocator where
  heapStart : Nat
  heapRemaining : Nat

namespace PhysicalAllocator

def allocate (a : PhysicalAllocator) (size : Nat) : PhysicalAllocator × Option Nat :=
  let aligned := (size + 4095) / 4096 * 4096
  if a.heapRemaining < aligned then (a, none)
  else (⟨a.heapStart + aligned, a.heapRemaining - aligned⟩, some a.heapStart)

def currentBase (a : PhysicalAllocator) : Nat := a.heapStart

end PhysicalAllocator

namespace Memory

/-! ### What the allocators change -/

@[simp] theorem frameTag_ram (m : Memory) (p : Word) (k : FrameKind) : (m.frameTag p k).ram = m.ram := by
  unfold frameTag; split <;> rfl

@[simp] theorem frameTag_region (m : Memory) (p : Word) (k : FrameKind) : (m.frameTag p k).region = m.region := by
  unfold frameTag; split <;> rfl

@[simp] theorem frameTag_ptPool (m : Memory) (p : Word) (k : FrameKind) : (m.frameTag p k).ptPool = m.ptPool := by
  unfold frameTag; split <;> rfl

@[simp] theorem frameTag_isFree (m : Memory) (p : Word) (k : FrameKind) (i : Nat) :
    (m.frameTag p k).isFree i = m.isFree i := by
  unfold frameTag; split <;> rfl

@[simp] theorem writeEntry_isFree (m : Memory) (f : Word) (i : Fin 512) (w : Word) (j : Nat) :
    (m.writeEntry f i w).isFree j = m.isFree j := rfl

@[simp] theorem writeEntry_ptPool (m : Memory) (f : Word) (i : Fin 512) (w : Word) :
    (m.writeEntry f i w).ptPool = m.ptPool := rfl

@[simp] theorem writeEntry_region (m : Memory) (f : Word) (i : Fin 512) (w : Word) :
    (m.writeEntry f i w).region = m.region := rfl

theorem writeEntry_ram (m : Memory) (f : Word) (i : Fin 512) (w g : Word) (j : Fin 512) :
    (m.writeEntry f i w).ram g j = if g = f ∧ j = i then w else m.ram g j := rfl

@[simp] theorem zeroFrame_isFree (m : Memory) (f : Word) (j : Nat) : (m.zeroFrame f).isFree j = m.isFree j := rfl

@[simp] theorem zeroFrame_ptPool (m : Memory) (f : Word) : (m.zeroFrame f).ptPool = m.ptPool := rfl

@[simp] theorem zeroFrame_region (m : Memory) (f : Word) : (m.zeroFrame f).region = m.region := rfl

theorem zeroFrame_ram (m : Memory) (f g : Word) (j : Fin 512) :
    (m.zeroFrame f).ram g j = if g = f then 0 else m.ram g j := rfl

/-- The address of a frame that can be allocated is not reduced modulo `2 ^ 64`. -/
theorem toNat_frameAddr (m : Memory) {idx : Nat} (h : idx < maxTrackedFrames) :
    (m.frameAddr idx).toNat = m.region.base + idx * pageSize := by
  have hend := m.region.end_le
  unfold frameAddr
  rw [BitVec.toNat_ofNat]
  apply Nat.mod_eq_of_lt
  unfold maxTrackedFrames at h
  unfold pageSize
  omega

theorem frameAddr_ne_zero (m : Memory) {idx : Nat} (h : idx < maxTrackedFrames) : m.frameAddr idx ≠ 0#64 := by
  intro h0
  have hto := m.toNat_frameAddr h
  have hpos := m.region.base_pos
  rw [h0, BitVec.toNat_zero] at hto
  omega

theorem frameIndex_frameAddr (m : Memory) {idx : Nat} (h : idx < maxTrackedFrames) :
    m.frameIndex (m.frameAddr idx) = some idx := by
  have hdiv : (m.region.base + idx * pageSize - m.region.base) / pageSize = idx := by
    rw [Nat.add_sub_cancel_left]
    exact Nat.mul_div_cancel idx (by decide)
  unfold frameIndex
  rw [toNat_frameAddr m h, if_neg (by omega)]
  simp only [hdiv]
  rw [if_neg (by omega)]

/-- A frame index is below the number of tracked frames. -/
theorem frameIndex_lt {m : Memory} {p : Word} {idx : Nat} (h : m.frameIndex p = some idx) :
    idx < maxTrackedFrames := by
  unfold frameIndex at h
  split at h
  · cases h
  · simp only at h
    split at h
    · cases h
    · cases h; omega

/-- A frame that `global_alloc_4k` can hand out. -/
def Allocatable (m : Memory) (idx : Nat) : Prop :=
  idx < maxTrackedFrames ∧ m.isFree idx = true ∧ m.region.base + idx * pageSize < m.region.base + m.region.size

/-- The allocator fails when no frame can be handed out; else it takes the first free frame out of the bitmap and
changes nothing but the frame's tag. -/
theorem globalAlloc4k_cases (m : Memory) :
    ((∀ idx, ¬ m.Allocatable idx) ∧ m.globalAlloc4k = (m, none)) ∨
    (∃ idx, m.Allocatable idx ∧ (m.globalAlloc4k).2 = some (m.frameAddr idx) ∧
      (∀ j, (m.globalAlloc4k).1.isFree j = (m.isFree j && !decide (j = idx))) ∧
      (m.globalAlloc4k).1.ptPool = m.ptPool ∧ (m.globalAlloc4k).1.region = m.region ∧
      (m.globalAlloc4k).1.ram = m.ram) := by
  unfold globalAlloc4k
  cases hfind : m.freeBitmap.findFirst (maxTrackedFrames / 64) with
  | none =>
    refine Or.inl ⟨fun idx h => ?_, rfl⟩
    have hnot := Bitmap.findFirst_eq_none hfind (i := idx) h.1
    rw [show m.freeBitmap.test idx = m.isFree idx from rfl, h.2.1] at hnot
    cases hnot
  | some idx =>
    obtain ⟨hlt, htest, hleast⟩ := Bitmap.findFirst_eq_some hfind
    have hlt' : idx < maxTrackedFrames := hlt
    simp only
    rw [toNat_frameAddr m hlt']
    split
    · rename_i hge
      refine Or.inl ⟨fun j h => ?_, rfl⟩
      -- every other free frame lies above the first one
      have hj : ¬ j < idx := by
        intro hj
        have := hleast j hj
        rw [show m.freeBitmap.test j = m.isFree j from rfl, h.2.1] at this
        cases this
      have hmul : idx * pageSize ≤ j * pageSize := Nat.mul_le_mul_right _ (Nat.le_of_not_lt hj)
      have := h.2.2
      omega
    · rename_i hge
      refine Or.inr ⟨idx, ⟨hlt', htest, by omega⟩, rfl, fun j => ?_, ?_, ?_, ?_⟩
      · rw [frameTag_isFree]
        exact Bitmap.test_clear m.freeBitmap idx j
      · rw [frameTag_ptPool]
      · rw [frameTag_region]
      · rw [frameTag_ram]

/-- A freed frame becomes free, and nothing else changes but its tag. -/
theorem isFree_globalFree4k (m : Memory) (p : Word) (j : Nat) :
    (m.globalFree4k p).isFree j = (m.isFree j || decide (m.frameIndex p = some j)) := by
  unfold globalFree4k
  cases h : m.frameIndex p with
  | none => simp
  | some idx =>
    simp only [frameTag_isFree]
    rw [show (({ m with freeBitmap := m.freeBitmap.set idx } : Memory).isFree j) = (m.freeBitmap.set idx).test j
      from rfl, Bitmap.test_set]
    congr 1
    by_cases hj : j = idx
    · simp [hj]
    · simp [hj, Ne.symm hj]

@[simp] theorem globalFree4k_ram (m : Memory) (p : Word) : (m.globalFree4k p).ram = m.ram := by
  unfold globalFree4k; split
  · rfl
  · rw [frameTag_ram]

@[simp] theorem globalFree4k_ptPool (m : Memory) (p : Word) : (m.globalFree4k p).ptPool = m.ptPool := by
  unfold globalFree4k; split
  · rfl
  · rw [frameTag_ptPool]

@[simp] theorem globalFree4k_region (m : Memory) (p : Word) : (m.globalFree4k p).region = m.region := by
  unfold globalFree4k; split
  · rfl
  · rw [frameTag_region]

end Memory

end Rost
