import Rost.Lib.ByteMemory
import Rost.Lib.FreeList

/-!
# The C heap

Blocks are carved one behind the other from a range of addresses that starts at `heapStart`, and pages are mapped as the
range grows.  A block starts with a header; the pointer that a client gets is behind the header.  A freed small block goes
to the front of the free list of its size class, with the link in its user data.  Addresses and sizes are natural numbers;
an addition that does not fit 64 bits stops the program (`none`), as the dev profile does.
-/

namespace Rost.Libc

open Lib (ByteMemory)

/-- `HEAP_START` -/
def heapStart : Nat := 0x800000

/-- `HDR_SIZE` -/
def hdrSize : Nat := 16

/-- `HDR_ALIGN` -/
def hdrAlign : Nat := 16

/-- `NUM_CLASSES` -/
def numClasses : Nat := 9

/-- `CLASS_SIZES`: the user payload limits. -/
def classSizes : Vector Nat numClasses := #v[8, 16, 32, 64, 128, 256, 512, 1024, 2048]

/-- `a + b` on `usize`. -/
def checkedAdd (a b : Nat) : Option Nat := if a + b < 2 ^ 64 then some (a + b) else none

/-- `a - b` on `usize`. -/
def checkedSub (a b : Nat) : Option Nat := if b ≤ a then some (a - b) else none

/-- The memory with the statics of the allocator.  The kernel's page table is `mapped`, by page address. -/
structure Heap where
  mem : ByteMemory
  freeHeads : Fin numClasses → Nat
  heapBump : Nat
  heapMapTop : Nat
  mapped : Nat → Bool

namespace Heap

/-- The heap before the first call, over any memory. -/
def new (mem : ByteMemory) : Heap := ⟨mem, fun _ => 0, heapStart, heapStart, fun _ => false⟩

/-! ### The block header

`total` is the `u32` at offset 0, `flags` the `u32` at 4, `_res` the `u64` at 8. -/

def total (h : Heap) (hdr : Nat) : Nat := h.mem.read hdr 4

def flags (h : Heap) (hdr : Nat) : Nat := h.mem.read (hdr + 4) 4

def flagUsed : Nat := 1

def isFree (h : Heap) (hdr : Nat) : Bool := h.flags hdr % 2 == 0

def userPtr (hdr : Nat) : Nat := hdr + hdrSize

def fromUser (ptr : Nat) : Nat := ptr - hdrSize

/-- The link in the user data of a free block. -/
def next (h : Heap) (hdr : Nat) : Nat := h.mem.read (userPtr hdr) 8

def setTotal (h : Heap) (hdr v : Nat) : Heap := { h with mem := h.mem.write hdr 4 v }

def setFlags (h : Heap) (hdr v : Nat) : Heap := { h with mem := h.mem.write (hdr + 4) 4 v }

def setRes (h : Heap) (hdr v : Nat) : Heap := { h with mem := h.mem.write (hdr + 8) 8 v }

/-! ### Internal helpers -/

/-- The first class whose limit is not below the size. -/
def sizeClass (userSize : Nat) : Option (Fin numClasses) :=
  (List.finRange numClasses).find? fun i => userSize ≤ classSizes.get i

def totalFor (userSize : Nat) : Option Nat := do
  let raw ← checkedAdd hdrSize userSize
  let sum ← checkedAdd raw hdrAlign
  some ((sum - 1) / hdrAlign * hdrAlign)

/-- The loop of `ensureMapped`: map pages until `HEAP_MAP_TOP` reaches `stop`.  Every pass adds a page, so `stop` passes
are enough.  `sysMap` says for which pages `SYS_MAP` returns 0; on a failure what was mapped stays. -/
def mapUpTo (sysMap : Nat → Bool) (stop : Nat) : Nat → Heap → Option (Heap × Bool)
  | 0, h => some (h, true)
  | fuel + 1, h =>
    if h.heapMapTop < stop then
      let page := h.heapMapTop / 0x1000 * 0x1000
      if sysMap page then do
        let top ← checkedAdd h.heapMapTop 0x1000
        mapUpTo sysMap stop fuel { h with heapMapTop := top, mapped := Function.update h.mapped page true }
      else some (h, false)
    else some (h, true)

def ensureMapped (sysMap : Nat → Bool) (h : Heap) (addr size : Nat) : Option (Heap × Bool) := do
  let stop ← checkedAdd addr size
  mapUpTo sysMap stop (stop - h.heapMapTop) h

/-- The header of a new block, or 0 (null). -/
def bumpAlloc (sysMap : Nat → Bool) (h : Heap) (total : Nat) : Option (Heap × Nat) := do
  let sum ← checkedAdd h.heapBump hdrAlign
  let aligned := (sum - 1) / hdrAlign * hdrAlign
  let (h1, ok) ← ensureMapped sysMap h aligned total
  if ok then do
    let bump ← checkedAdd aligned total
    some ({ h1 with heapBump := bump }, aligned)
  else some (h1, 0)

/-! ### The calls

Each one returns the heap and the pointer, 0 for null. -/

/-- The free-list branch of `malloc`. -/
def reuse (h : Heap) (ci : Fin numClasses) : Heap × Nat :=
  let hdr := h.freeHeads ci
  let h1 := { h with freeHeads := Function.update h.freeHeads ci (h.next hdr) }
  (h1.setFlags hdr flagUsed, userPtr hdr)

/-- The rest of `malloc`: carve from the bump pointer. -/
def carve (sysMap : Nat → Bool) (h : Heap) (total : Nat) : Option (Heap × Nat) := do
  let (h1, hdr) ← bumpAlloc sysMap h total
  if hdr = 0 then some (h1, 0)
  -- the cast to `u32` keeps the low half
  else some ((((h1.setTotal hdr (total % 2 ^ 32)).setFlags hdr flagUsed).setRes hdr 0), userPtr hdr)

def malloc (sysMap : Nat → Bool) (h : Heap) (size : Nat) : Option (Heap × Nat) :=
  if size = 0 then some (h, 0)
  else match sizeClass size with
    | some ci => do
      let total ← totalFor (classSizes.get ci)
      if h.freeHeads ci ≠ 0 then some (h.reuse ci) else h.carve sysMap total
    | none => do
      let total ← totalFor size
      h.carve sysMap total

def free (h : Heap) (ptr : Nat) : Option Heap :=
  if ptr = 0 then some h
  else
    let hdr := fromUser ptr
    if h.isFree hdr then some h
    else do
      let h1 := h.setFlags hdr 0
      let userBytes ← checkedSub (h1.total hdr) hdrSize
      match sizeClass userBytes with
      | some ci =>
        some { h1 with mem := h1.mem.write ptr 8 (h1.freeHeads ci), freeHeads := Function.update h1.freeHeads ci hdr }
      | none => some h1

/-- A product that does not fit 64 bits gives null, as a product of 0 does. -/
def calloc (sysMap : Nat → Bool) (h : Heap) (nmemb size : Nat) : Option (Heap × Nat) :=
  if nmemb * size < 2 ^ 64 ∧ 0 < nmemb * size then do
    let (h1, ptr) ← h.malloc sysMap (nmemb * size)
    if ptr ≠ 0 then some ({ h1 with mem := h1.mem.fill ptr (nmemb * size) 0 }, ptr) else some (h1, ptr)
  else some (h, 0)

def realloc (sysMap : Nat → Bool) (h : Heap) (ptr newSize : Nat) : Option (Heap × Nat) :=
  if ptr = 0 then h.malloc sysMap newSize
  else if newSize = 0 then do
    let h1 ← h.free ptr
    some (h1, 0)
  else do
    let oldUser ← checkedSub (h.total (fromUser ptr)) hdrSize
    if newSize ≤ oldUser then some (h, ptr)
    else do
      let (h1, newPtr) ← h.malloc sysMap newSize
      if newPtr = 0 then some (h1, 0)
      else do
        let h2 ← free { h1 with mem := h1.mem.copy ptr newPtr oldUser } ptr
        some (h2, newPtr)

end Heap

end Rost.Libc
