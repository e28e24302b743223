import Rost.Memory.Paging
import Rost.Scheduler.Step

/-!
# The ELF loader

`load` maps the `PT_LOAD` segments of an image into a fresh address space, `spawn_elf` adds a stack and a process.  An
image is read through a function of the memory, so that the same loader serves the images built into the kernel and
the buffers of `SYS_SPAWN_ELF`; a read that faults, like an index out of bounds, stops the kernel (`none`).  Frames
are tracked in two bounded lists, of the loader and of the process.  The trace output on the serial line is left out.
-/

namespace Rost

def elfClass64 : Nat := 2
def elfData2Lsb : Nat := 1
def emX86_64 : Nat := 0x3E
def ptLoad : Nat := 1
def pfExec : Nat := 0x1
def pfWrite : Nat := 0x2

/-- `size_of::<Elf64Ehdr>()` -/
def ehdrSize : Nat := 64

/-- `size_of::<Elf64Phdr>()` -/
def phdrSize : Nat := 56

def loadFramesMax : Nat := 64
def userStackPages : Nat := 32
def userStackTop : Word := 0x00007FFFFFFFF000

/-- The `&[u8]` given to the loader; a slice has at most `isize::MAX` bytes. -/
structure Image where
  len : Nat
  read : Memory → Nat → Option Byte
  len_lt : len < 2 ^ 63

namespace Image

/-- An image built into the kernel. -/
def ofBytes (bytes : List Byte) (h : bytes.length < 2 ^ 63) : Image := ⟨bytes.length, fun _ i => bytes[i]?, h⟩

@[simp] theorem ofBytes_len (bytes : List Byte) (h : bytes.length < 2 ^ 63) : (ofBytes bytes h).len = bytes.length :=
  rfl

def readBytes (img : Image) (m : Memory) (off : Nat) : Nat → Option (List Byte)
  | 0 => some []
  | n + 1 => (img.read m off).bind fun b => (img.readBytes m (off + 1) n).map (b :: ·)

end Image

/-- A little-endian number. -/
def leNat : List Byte → Nat
  | [] => 0
  | b :: bs => b.toNat + 256 * leNat bs

/-- The `n` bytes at offset `off` of a structure, as a number. -/
def field (bytes : List Byte) (off n : Nat) : Nat := leNat ((bytes.drop off).take n)

/-- The fields of `Elf64Ehdr` that the loader reads. -/
structure Elf64Ehdr where
  ident : List Nat
  machine : Nat
  entry : Nat
  phoff : Nat
  phentsize : Nat
  phnum : Nat
deriving DecidableEq

/-- The fields of `Elf64Phdr` that the loader reads. -/
structure Elf64Phdr where
  type : Nat
  flags : Nat
  offset : Nat
  vaddr : Nat
  filesz : Nat
  memsz : Nat
deriving DecidableEq

def Elf64Ehdr.ofBytes (b : List Byte) : Elf64Ehdr :=
  ⟨(b.take 6).map BitVec.toNat, field b 18 2, field b 24 8, field b 32 8, field b 54 2, field b 56 2⟩

def Elf64Phdr.ofBytes (b : List Byte) : Elf64Phdr :=
  ⟨field b 0 4, field b 4 4, field b 8 8, field b 16 8, field b 32 8, field b 40 8⟩

/-- The checks on the header: magic, class, byte order, machine, size and number of program headers. -/
def Elf64Ehdr.valid (h : Elf64Ehdr) : Bool :=
  h.ident.take 4 == [0x7f, 0x45, 0x4c, 0x46] && h.ident[4]? == some elfClass64 && h.ident[5]? == some elfData2Lsb &&
    h.machine == emX86_64 && h.phentsize == phdrSize && h.phnum != 0

/-- What `load` returns on success. -/
structure LoadedElf where
  entry : Nat
  pml4Phys : Word
  frames : List Word

namespace Elf

/-- The macro `track!`: frames beyond the limit are dropped. -/
def track (frames : List Word) (phys : Word) : List Word :=
  if frames.length < loadFramesMax then frames ++ [phys] else frames

def writeBytes (m : Memory) (phys : Word) : List Byte → Memory
  | [] => m
  | b :: bs => writeBytes (m.writeByte phys b) (phys + 1) bs

/-- Copy the part of the segment that lies on page `pageIdx` into its frame. -/
def copyPage (img : Image) (segOff segLen pageAlignOffset pageIdx : Nat) (phys : Word) (m : Memory) : Option Memory :=
  let segStart := if pageIdx = 0 then 0 else pageIdx * 4096 - pageAlignOffset
  let physOffset := if pageIdx = 0 then pageAlignOffset else 0
  if segStart < segLen then
    (img.readBytes m (segOff + segStart) (min (segLen - segStart) (4096 - physOffset))).map fun bytes =>
      writeBytes m (phys + BitVec.ofNat 64 physOffset) bytes
  else some m

/-- The page loop of one segment: `count` pages from `pageIdx` on.  `some (m, none)` is an early `return None`. -/
def loadPages (img : Image) (pml4 flags virtPageBase : Word) (segOff segLen pageAlignOffset : Nat) :
    Nat → Nat → Memory → List Word → Option (Memory × Option (List Word))
  | 0, _, m, frames => some (m, some frames)
  | count + 1, pageIdx, m, frames =>
    match m.globalAlloc4k with
    | (m, none) => some (m, none)
    | (m, some phys) =>
      let m := (m.frameTag phys .userOwned).zeroFrame phys
      let frames := track frames phys
      match copyPage img segOff segLen pageAlignOffset pageIdx phys m with
      | none => none
      | some m =>
        match m.mapPageGlobal pml4 (virtPageBase + BitVec.ofNat 64 (pageIdx * 4096)) phys flags with
        | (m, false) => some (m, none)
        | (m, true) =>
          loadPages img pml4 flags virtPageBase segOff segLen pageAlignOffset count (pageIdx + 1) m frames

/-- The flags of a segment's pages. -/
def segmentFlags (ph : Elf64Phdr) : Word :=
  let flags := ptePresent ||| pteUser
  let flags := if ph.flags &&& pfWrite ≠ 0 then flags ||| pteWritable else flags
  if ph.flags &&& pfExec = 0 then flags ||| pteNoExecute else flags

/-- One program header. -/
def loadSegment (img : Image) (pml4 : Word) (ph : Elf64Phdr) (m : Memory) (frames : List Word) :
    Option (Memory × Option (List Word)) :=
  if ph.type ≠ ptLoad then some (m, some frames)
  else if 2 ^ 64 ≤ ph.offset + ph.filesz ∨ img.len < ph.offset + ph.filesz then some (m, none)
  else if ph.memsz = 0 then some (m, some frames)
  else
    let vaddr := BitVec.ofNat 64 ph.vaddr
    let pageAlignOffset := (vaddr &&& 0xFFF#64).toNat
    let totalPages := wrapAdd 64 (wrapAdd 64 pageAlignOffset ph.memsz) 4095 / 4096
    loadPages img pml4 (segmentFlags ph) (vaddr &&& ~~~0xFFF#64) ph.offset ph.filesz pageAlignOffset totalPages 0 m
      frames

/-- The loop over the program headers: `count` headers from the `i`-th on. -/
def loadSegments (img : Image) (pml4 : Word) (phoff : Nat) :
    Nat → Nat → Memory → List Word → Option (Memory × Option (List Word))
  | 0, _, m, frames => some (m, some frames)
  | count + 1, i, m, frames =>
    let off := wrapAdd 64 phoff (i * phdrSize)
    if img.len < wrapAdd 64 off phdrSize then some (m, none)
    -- the bounds check of `data[off..]`
    else if img.len < off then none
    else
      match img.readBytes m off phdrSize with
      | none => none
      | some bytes =>
        match loadSegment img pml4 (Elf64Phdr.ofBytes bytes) m frames with
        | none => none
        | some (m, none) => some (m, none)
        | some (m, some frames) => loadSegments img pml4 phoff count (i + 1) m frames

/-- The segments of an image whose header has been accepted, mapped into `pml4`. -/
def loadInto (img : Image) (ehdr : Elf64Ehdr) (m : Memory) (pml4 : Word) (frames : List Word) :
    Option (Memory × Option LoadedElf) :=
  (loadSegments img pml4 ehdr.phoff ehdr.phnum 0 m frames).map fun (m, r) =>
    (m, r.map fun frames => ⟨ehdr.entry, pml4, frames⟩)

/-- Load an image into the given PML4, or into a fresh one. -/
def load (m : Memory) (img : Image) (pml4 : Option Word) : Option (Memory × Option LoadedElf) :=
  if img.len < ehdrSize then some (m, none)
  else
    match img.readBytes m 0 ehdrSize with
    | none => none
    | some bytes =>
      let ehdr := Elf64Ehdr.ofBytes bytes
      if !ehdr.valid then some (m, none)
      else
        match pml4 with
        | some pml4 => loadInto img ehdr m pml4 []
        | none =>
          match m.globalAlloc4k with
          | (m, none) => some (m, none)
          | (m, some phys) => loadInto img ehdr (m.zeroFrame phys) phys (track [] phys)

/-- The flags of a stack page. -/
def stackFlags : Word := ptePresent ||| pteWritable ||| pteUser ||| pteNoExecute

/-- The stack loop of `spawn_elf`: `count` pages from `page` on. -/
def mapStack (pml4 : Word) : Nat → Nat → Memory → List Word → Memory × Option (List Word)
  | 0, _, m, frames => (m, some frames)
  | count + 1, page, m, frames =>
    match m.globalAlloc4k with
    | (m, none) => (m, none)
    | (m, some phys) =>
      let m := m.zeroFrame phys
      let frames := track frames phys
      let virt := userStackTop - BitVec.ofNat 64 (userStackPages * 4096) + BitVec.ofNat 64 (page * 4096)
      match m.mapPageGlobal pml4 virt phys stackFlags with
      | (m, false) => (m, none)
      | (m, true) => mapStack pml4 count (page + 1) m frames

/-- Load an image and create its process. -/
def spawnElf (m : Memory) (s : Scheduler) (kernelPml4 : Word) (img : Image) (priority : Nat) :
    Option (Memory × Scheduler × Option Nat) :=
  match load m img none with
  | none => none
  | some (m, none) => some (m, s, none)
  | some (m, some loaded) =>
    match mapStack loaded.pml4Phys userStackPages 0 m loaded.frames with
    | (m, none) => some (m, s, none)
    | (m, some frames) =>
      let m := (m.mergeKernelIntoUserPml4 kernelPml4 loaded.pml4Phys).mapCrashLogPage loaded.pml4Phys
      match s.addRing3Process loaded.pml4Phys with
      | none => none
      | some (s, none) => some (m, s, none)
      | some (s, some pid) =>
        let s := if 0 < priority then s.setPriority pid priority else s
        some (m, s.registerUserFrames pid frames, some pid)

/-! ### The loader only consumes frames -/

theorem consumes_writeBytes (m : Memory) (phys : Word) (bytes : List Byte) :
    m.Consumes (writeBytes m phys bytes) := by
  induction bytes generalizing m phys with
  | nil => exact .refl m
  | cons b bytes ih => exact (Memory.Consumes.writeEntry m _ _ _).trans (ih _ _)

theorem consumes_copyPage {img : Image} {segOff segLen align pageIdx : Nat} {phys : Word} {m m' : Memory}
    (h : copyPage img segOff segLen align pageIdx phys m = some m') : m.Consumes m' := by
  unfold copyPage at h
  simp only at h
  generalize (if pageIdx = 0 then 0 else pageIdx * 4096 - align) = segStart at h
  generalize (if pageIdx = 0 then align else 0) = physOffset at h
  split at h
  · obtain ⟨bytes, -, rfl⟩ := Option.map_eq_some_iff.1 h
    exact consumes_writeBytes m _ bytes
  · cases h
    exact .refl m

theorem prefix_track (frames : List Word) (phys : Word) : frames <+: track frames phys := by
  unfold track
  split
  · exact List.prefix_append _ _
  · exact List.prefix_refl _

/-- What a part of the loader does: no frame becomes free, and the frames tracked so far stay in front. -/
def Extends (m : Memory) (frames : List Word) (r : Memory × Option (List Word)) : Prop :=
  m.Consumes r.1 ∧ ∀ frames', r.2 = some frames' → frames <+: frames'

private theorem extends_refl (m : Memory) (frames : List Word) : Extends m frames (m, some frames) :=
  ⟨.refl m, fun _ h => by cases h; exact List.prefix_refl _⟩

private theorem extends_stop {m m' : Memory} (frames : List Word) (h : m.Consumes m') : Extends m frames (m', none) :=
  ⟨h, fun _ h => by cases h⟩

private theorem Extends.after {m m' : Memory} {frames frames' : List Word} {r : Memory × Option (List Word)}
    (h : Extends m' frames' r) (hm : m.Consumes m') (hf : frames <+: frames') : Extends m frames r :=
  ⟨hm.trans h.1, fun fs hfs => hf.trans (h.2 fs hfs)⟩

theorem extends_loadPages {img : Image} {pml4 flags virtPageBase : Word} {segOff segLen align count pageIdx : Nat}
    {m : Memory} {frames : List Word} {r : Memory × Option (List Word)}
    (h : loadPages img pml4 flags virtPageBase segOff segLen align count pageIdx m frames = some r) :
    Extends m frames r := by
  induction count generalizing pageIdx m frames with
  | zero =>
    cases h
    exact extends_refl m frames
  | succ count ih =>
    unfold loadPages at h
    have halloc := Memory.Consumes.globalAlloc4k m
    split at h
    · rename_i heq
      rw [heq] at halloc
      cases h
      exact extends_stop frames halloc
    · rename_i m₁ phys heq
      rw [heq] at halloc
      simp only at h
      have hzero := (halloc.trans (.frameTag m₁ phys .userOwned)).trans (.zeroFrame _ phys)
      split at h
      · cases h
      · rename_i m₂ hcopy
        have hcopied := hzero.trans (consumes_copyPage hcopy)
        have hmap := hcopied.trans (.mapPageGlobal m₂ pml4 (virtPageBase + BitVec.ofNat 64 (pageIdx * 4096)) phys flags)
        split at h
        · rename_i heq₂
          rw [heq₂] at hmap
          cases h
          exact extends_stop frames hmap
        · rename_i heq₂
          rw [heq₂] at hmap
          exact (ih h).after hmap (prefix_track frames phys)

theorem extends_loadSegment {img : Image} {pml4 : Word} {ph : Elf64Phdr} {m : Memory} {frames : List Word}
    {r : Memory × Option (List Word)} (h : loadSegment img pml4 ph m frames = some r) : Extends m frames r := by
  unfold loadSegment at h
  split at h
  · cases h; exact extends_refl m frames
  · split at h
    · cases h; exact extends_stop frames (.refl m)
    · split at h
      · cases h; exact extends_refl m frames
      · exact extends_loadPages h

theorem extends_loadSegments {img : Image} {pml4 : Word} {phoff count i : Nat} {m : Memory} {frames : List Word}
    {r : Memory × Option (List Word)} (h : loadSegments img pml4 phoff count i m frames = some r) :
    Extends m frames r := by
  induction count generalizing i m frames with
  | zero =>
    cases h
    exact extends_refl m frames
  | succ count ih =>
    unfold loadSegments at h
    simp only at h
    split at h
    · cases h; exact extends_stop frames (.refl m)
    · split at h
      · cases h
      · split at h
        · cases h
        · rename_i bytes hbytes
          split at h
          · cases h
          · rename_i m₁ hseg
            cases h
            exact extends_stop frames (extends_loadSegment hseg).1
          · rename_i m₁ frames₁ hseg
            obtain ⟨hcons, hpre⟩ := extends_loadSegment hseg
            exact (ih h).after hcons (hpre frames₁ rfl)

theorem extends_mapStack (pml4 : Word) (count page : Nat) (m : Memory) (frames : List Word) :
    Extends m frames (mapStack pml4 count page m frames) := by
  induction count generalizing page m frames with
  | zero => exact extends_refl m frames
  | succ count ih =>
    unfold mapStack
    have halloc := Memory.Consumes.globalAlloc4k m
    split
    · rename_i heq
      rw [heq] at halloc
      exact extends_stop frames halloc
    · rename_i m₁ phys heq
      rw [heq] at halloc
      simp only
      generalize userStackTop - BitVec.ofNat 64 (userStackPages * 4096) + BitVec.ofNat 64 (page * 4096) = virt
      have hmap := (halloc.trans (.zeroFrame m₁ phys)).trans (.mapPageGlobal _ pml4 virt phys stackFlags)
      split
      · rename_i heq₂
        rw [heq₂] at hmap
        exact extends_stop frames hmap
      · rename_i heq₂
        rw [heq₂] at hmap
        exact (ih _ _ _).after hmap (prefix_track frames phys)

/-- Once the loader has taken a frame for the PML4, the memory has changed for good. -/
theorem spawnElf_mem_ne {m m' : Memory} {s s' : Scheduler} {kernelPml4 : Word} {img : Image} {priority idx : Nat}
    {pid : Option Nat} {bytes : List Byte} (hlen : ehdrSize ≤ img.len) (hread : img.readBytes m 0 ehdrSize = some bytes)
    (hvalid : (Elf64Ehdr.ofBytes bytes).valid = true) (halloc : m.Allocatable idx)
    (h : spawnElf m s kernelPml4 img priority = some (m', s', pid)) : m' ≠ m := by
  rcases m.globalAlloc4k_cases with ⟨hfull, -⟩ | ⟨first, hfirst, haddr, hfree, -⟩
  · exact absurd halloc (hfull idx)
  · have hpair : m.globalAlloc4k = (m.globalAlloc4k.1, some (m.frameAddr first)) := Prod.ext rfl haddr
    have hlost : (m.globalAlloc4k.1.zeroFrame (m.frameAddr first)).isFree first = false := by
      rw [Memory.zeroFrame_isFree, hfree first]
      simp
    suffices hnot : m'.isFree first = false by
      intro heq
      rw [heq, hfirst.2.1] at hnot
      cases hnot
    have hload : load m img none = loadInto img (Elf64Ehdr.ofBytes bytes)
        (m.globalAlloc4k.1.zeroFrame (m.frameAddr first)) (m.frameAddr first) (track [] (m.frameAddr first)) := by
      unfold load
      rw [if_neg (Nat.not_lt.2 hlen), hread]
      simp only [hvalid, Bool.not_true, Bool.false_eq_true, if_false]
      rw [hpair]
    have hkeep : ∀ {m₁ : Memory} {r : Option LoadedElf}, load m img none = some (m₁, r) → m₁.isFree first = false := by
      intro m₁ r hr
      rw [hload] at hr
      obtain ⟨⟨m₂, frames⟩, hseg, heq⟩ := Option.map_eq_some_iff.1 hr
      simp only [Prod.mk.injEq] at heq
      rw [← heq.1]
      exact (extends_loadSegments hseg).1.not_free hlost
    unfold spawnElf at h
    split at h
    · cases h
    · rename_i m₁ hl
      cases h
      exact hkeep hl
    · rename_i m₁ loaded hl
      have hstack := (extends_mapStack loaded.pml4Phys userStackPages 0 m₁ loaded.frames).1.not_free (hkeep hl)
      split at h
      · rename_i m₂ hs
        rw [hs] at hstack
        cases h
        exact hstack
      · rename_i m₂ frames hs
        rw [hs] at hstack
        have hmerge := ((Memory.Consumes.mergeKernelIntoUserPml4 m₂ kernelPml4 loaded.pml4Phys).trans
          (.mapCrashLogPage _ loaded.pml4Phys)).not_free hstack
        simp only at h
        split at h
        · cases h
        · cases h; exact hmerge
        · cases h; exact hmerge

end Elf

end Rost
