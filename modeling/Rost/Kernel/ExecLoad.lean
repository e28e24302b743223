import Rost.Kernel.Lifetime
import Rost.Kernel.MapCalls

/-!
# The loader of the exec server

The exec server builds an address space out of user mode, one syscall after the other.  What other processes do between its
syscalls is given by the environment.  The loader returns from the middle of its loops when a syscall fails, and gives back
nothing of what it has taken; and it takes the error value of `SYS_CREATE_VAS` for the address of a PML4
(`load_and_spawn_iff`).
-/

namespace Rost.Exec

open Elf (headerOk headerOk_iff SameFree headerOnlyElf)
open Memory (Consumes)
open Lib (Bitmap)

/-- `MAP_USER_RW` -/
def mapUserRw : Word := 0b11

/-- `VAS_RX` -/
def vasRx : Word := 0b010

/-- `VAS_RW` -/
def vasRw : Word := 0b011

def maxFrames : Nat := 128

/-- What has happened to the kernel before a syscall, by the number of the syscalls before it. -/
abbrev Env := Nat → Kernel → Kernel

/-- Nothing happens between the syscalls. -/
def quiet : Env := fun _ k => k

/-- The server inside of `load_and_spawn`, with its syscalls and what they returned. -/
structure Loader where
  kernel : Kernel
  /-- `STAGING_VA` -/
  stagingVa : Word
  log : List (Request × Option Word)

/-- How `load_and_spawn` ends when it does not return a pid: it returns `None`, or the server does not go on, because of a
fault, a panic, or a syscall that does not return. -/
inductive Stop where
  | failed
  | fault
deriving DecidableEq

namespace Loader

def call (env : Env) (s : Loader) (sys : Sys) (a0 a1 a2 a3 : Word) : Loader × Option Word :=
  let k := env s.log.length s.kernel
  let r : Request := ⟨sys, a0, a1, a2, a3, 0⟩
  match k.dispatch r with
  | some (k, .value v) => (⟨k, s.stagingVa, s.log ++ [(r, some v)]⟩, some v)
  | some (k, _) => (⟨k, s.stagingVa, s.log ++ [(r, none)]⟩, none)
  | none => (⟨k, s.stagingVa, s.log ++ [(r, none)]⟩, none)

/-- Bytes are written by the server itself, in user mode. -/
def write (s : Loader) (va : Word) (bytes : List Byte) : Option Loader :=
  if (List.range bytes.length).all fun i => s.kernel.mem.hasRight s.kernel.cr3 (va + BitVec.ofNat 64 i) pteUser then
    (s.kernel.mem.storeBytes s.kernel.cr3 va bytes).map fun m => { s with kernel := { s.kernel with mem := m } }
  else none

/-! ### Pages -/

/-- The part of the segment on page `pageIdx`, and where it begins on the page. -/
def pageData (segData : List Byte) (pageAlignOffset pageIdx : Nat) : List Byte × Nat :=
  let segStart := if pageIdx = 0 then 0 else pageIdx * 4096 - pageAlignOffset
  let physOffset := if pageIdx = 0 then pageAlignOffset else 0
  ((segData.drop segStart).take (4096 - physOffset), physOffset)

/-- One page: a frame is taken, filled through the staging area, and mapped for the new process. -/
def loadPage (env : Env) (pml4 flags virtPageBase : Word) (segData : List Byte) (pageAlignOffset pageIdx : Nat) (s : Loader)
    (frames : List Word) : Loader × Except Stop (List Word) :=
  match s.call env .allocPhys 0 0 0 0 with
  | (s, none) => (s, .error .fault)
  | (s, some paddr) =>
    if paddr = 0 then (s, .error .failed)
    else
      let writeVa := s.stagingVa
      let s := { s with stagingVa := s.stagingVa + 4096 }
      match s.call env .map writeVa paddr mapUserRw 0 with
      | (s, none) => (s, .error .fault)
      | (s, some ret) =>
        if ret ≠ 0 then (s, .error .failed)
        else
          let part := pageData segData pageAlignOffset pageIdx
          match s.write (writeVa + BitVec.ofNat 64 part.2) part.1 with
          | none => (s, .error .fault)
          | some s =>
            match s.call env .mapIntoVas pml4 (virtPageBase + BitVec.ofNat 64 (pageIdx * 4096)) paddr flags with
            | (s, none) => (s, .error .fault)
            | (s, some ret) =>
              if ret ≠ 0 then (s, .error .failed)
              else (s, .ok (if frames.length < maxFrames then frames ++ [paddr] else frames))

/-- `count` pages from `pageIdx` on. -/
def loadPages (env : Env) (pml4 flags virtPageBase : Word) (segData : List Byte) (pageAlignOffset : Nat) :
    Nat → Nat → Loader → List Word → Loader × Except Stop (List Word)
  | 0, _, s, frames => (s, .ok frames)
  | count + 1, pageIdx, s, frames =>
    match loadPage env pml4 flags virtPageBase segData pageAlignOffset pageIdx s frames with
    | (s, .error e) => (s, .error e)
    | (s, .ok frames) => loadPages env pml4 flags virtPageBase segData pageAlignOffset count (pageIdx + 1) s frames

/-! ### Segments -/

/-- The flags of a segment's pages; code that may be written may also be executed. -/
def vasFlags (ph : Elf64Phdr) : Word :=
  if ph.flags &&& pfExec ≠ 0 then if ph.flags &&& pfWrite ≠ 0 then vasRw else vasRx else vasRw ||| 4

/-- `page_align_offset` -/
def alignOffset (ph : Elf64Phdr) : Nat := (BitVec.ofNat 64 ph.vaddr &&& 0xFFF#64).toNat

/-- `total_pages` -/
def totalPages (ph : Elf64Phdr) : Nat := wrapAdd 64 (wrapAdd 64 (alignOffset ph) ph.memsz) 4095 / 4096

/-- What a program header asks for: nothing, or the pages of a segment. -/
def segment (bytes : List Byte) (ph : Elf64Phdr) : Except Stop (Option (List Byte)) :=
  if ph.type ≠ ptLoad then .ok none
  else if 2 ^ 64 ≤ ph.offset + ph.filesz ∨ bytes.length < ph.offset + ph.filesz then .error .failed
  else if ph.memsz = 0 then .ok none
  else .ok (some ((bytes.drop ph.offset).take ph.filesz))

/-- Program header `i`, which has to lie inside of the image; the check wraps, and then the slice panics. -/
def phdrAt (bytes : List Byte) (phoff i : Nat) : Except Stop Elf64Phdr :=
  let off := wrapAdd 64 phoff (i * phdrSize)
  if bytes.length < wrapAdd 64 off phdrSize then .error .failed
  else if bytes.length < off then .error .fault
  else .ok (Elf64Phdr.ofBytes ((bytes.drop off).take phdrSize))

/-- `count` program headers from the `i`-th on. -/
def loadSegments (env : Env) (bytes : List Byte) (pml4 : Word) (phoff : Nat) :
    Nat → Nat → Loader → List Word → Loader × Except Stop (List Word)
  | 0, _, s, frames => (s, .ok frames)
  | count + 1, i, s, frames =>
    match phdrAt bytes phoff i with
    | .error e => (s, .error e)
    | .ok ph =>
      match segment bytes ph with
      | .error e => (s, .error e)
      | .ok none => loadSegments env bytes pml4 phoff count (i + 1) s frames
      | .ok (some segData) =>
        match loadPages env pml4 (vasFlags ph) (BitVec.ofNat 64 ph.vaddr &&& ~~~0xFFF#64) segData (alignOffset ph)
          (totalPages ph) 0 s frames with
        | (s, .error e) => (s, .error e)
        | (s, .ok frames) => loadSegments env bytes pml4 phoff count (i + 1) s frames

/-! ### The process -/

/-- `register_frames`; the frames stand in an array on the server's stack. -/
def registerFrames (env : Env) (s : Loader) (pid : Nat) (framesPtr : Word) (frames : List Word) : Loader × Except Stop Unit :=
  if frames = [] then (s, .ok ())
  else
    match s.write framesPtr (frames.flatMap fun f => leBytes 8 f.toNat) with
    | none => (s, .error .fault)
    | some s =>
      match s.call env .registerFrames (BitVec.ofNat 64 pid) framesPtr (BitVec.ofNat 64 frames.length) 0 with
      | (s, none) => (s, .error .fault)
      | (s, some _) => (s, .ok ())

def loadAndSpawn (env : Env) (bytes : List Byte) (priority : Byte) (framesPtr : Word) (s : Loader) :
    Loader × Except Stop Nat :=
  if bytes.length < ehdrSize then (s, .error .failed)
  else
    let ehdr := Elf64Ehdr.ofBytes (bytes.take ehdrSize)
    if !ehdr.valid then (s, .error .failed)
    else
      match s.call env .createVas 0 0 0 0 with
      | (s, none) => (s, .error .fault)
      | (s, some pml4) =>
        if pml4 = 0 then (s, .error .failed)
        else
          match loadSegments env bytes pml4 ehdr.phoff ehdr.phnum 0 s [] with
          | (s, .error e) => (s, .error e)
          | (s, .ok frames) =>
            match s.call env .spawnWithVas pml4 (BitVec.ofNat 64 ehdr.entry) (priority.setWidth 64) 0 with
            | (s, none) => (s, .error .fault)
            | (s, some ret) =>
              if u64Max - 7 ≤ ret.toNat then (s, .error .failed)
              else
                match registerFrames env s (u32 ret) framesPtr frames with
                | (s, .error e) => (s, .error e)
                | (s, .ok _) => (s, .ok (u32 ret))

/-! ### What is wanted -/

/-- The server as it begins to load an image. -/
def enter (k : Kernel) (stagingVa : Word) : Loader := ⟨k, stagingVa, []⟩

/-- The PML4 that is passed to a call was returned by `SYS_CREATE_VAS`, and not as an error. -/
def UsesCreated (log : List (Request × Option Word)) : Prop :=
  ∀ e ∈ log, e.1.sys = .mapIntoVas ∨ e.1.sys = .spawnWithVas →
    ∃ c ∈ log, c.1.sys = .createVas ∧ c.2 = some e.1.a0 ∧ e.1.a0 ≠ enomem

/-- No frame can be allocated. -/
def Exhausted (m : Memory) : Prop := ∀ idx, ¬ m.Allocatable idx

/-- Whether `count` program headers from the `i`-th on have a page that is mapped, or what stops the loop before that. -/
def mapsPage (bytes : List Byte) (phoff : Nat) : Nat → Nat → Except Stop Bool
  | 0, _ => .ok false
  | count + 1, i =>
    match phdrAt bytes phoff i with
    | .error e => .error e
    | .ok ph =>
      match segment bytes ph with
      | .error e => .error e
      | .ok none => mapsPage bytes phoff count (i + 1)
      | .ok (some _) => if totalPages ph = 0 then mapsPage bytes phoff count (i + 1) else .ok true

/-- The program headers are in order, and none of them has a page. -/
def MapsNothing (bytes : List Byte) : Prop :=
  mapsPage bytes (Elf64Ehdr.ofBytes (bytes.take ehdrSize)).phoff (Elf64Ehdr.ofBytes (bytes.take ehdrSize)).phnum 0 = .ok false

/-! ### What the loader keeps -/

/-- A relation that holds along the syscalls and the writes of the loader, when it uses the given PML4. -/
structure Kept (env : Env) (pml4 : Word) (R : Loader → Loader → Prop) : Prop where
  refl : ∀ s, R s s
  trans : ∀ {s t u}, R s t → R t u → R s u
  call : ∀ (s : Loader) (sys : Sys) (a0 a1 a2 a3 : Word), sys ∈ [.allocPhys, .map, .registerFrames] →
    R s (s.call env sys a0 a1 a2 a3).1
  use : ∀ (s : Loader) (sys : Sys) (a1 a2 a3 : Word), sys ∈ [.mapIntoVas, .spawnWithVas] →
    R s (s.call env sys pml4 a1 a2 a3).1
  staging : ∀ (s : Loader) (va : Word), R s { s with stagingVa := va }
  write : ∀ {s t : Loader} {va : Word} {bytes : List Byte}, s.write va bytes = some t → R s t

namespace Kept

variable {env : Env} {pml4 : Word} {R : Loader → Loader → Prop}

theorem loadPage (hR : Kept env pml4 R) (flags virtPageBase : Word) (segData : List Byte) (align pageIdx : Nat) (s : Loader)
    (frames : List Word) : R s (loadPage env pml4 flags virtPageBase segData align pageIdx s frames).1 := by
  unfold Loader.loadPage
  have halloc := hR.call s .allocPhys 0 0 0 0 (by decide)
  generalize s.call env .allocPhys 0 0 0 0 = out at halloc ⊢
  obtain ⟨s₁, _ | paddr⟩ := out
  · exact halloc
  dsimp only at halloc ⊢
  by_cases hzero : paddr = 0
  · rw [if_pos hzero]
    exact halloc
  rw [if_neg hzero]
  have hstaged := hR.trans halloc (hR.staging s₁ (s₁.stagingVa + 4096))
  generalize ({ s₁ with stagingVa := s₁.stagingVa + 4096 } : Loader) = s₂ at hstaged ⊢
  have hmap := hR.trans hstaged (hR.call s₂ .map s₁.stagingVa paddr mapUserRw 0 (by decide))
  generalize s₂.call env .map s₁.stagingVa paddr mapUserRw 0 = out at hmap ⊢
  obtain ⟨s₃, _ | ret⟩ := out
  · exact hmap
  dsimp only at hmap ⊢
  by_cases hret : ret ≠ 0
  · rw [if_pos hret]
    exact hmap
  rw [if_neg hret]
  generalize hwrite : s₃.write (s₁.stagingVa + BitVec.ofNat 64 (pageData segData align pageIdx).2)
    (pageData segData align pageIdx).1 = written
  obtain _ | s₄ := written
  · exact hmap
  dsimp only
  have huse := hR.trans (hR.trans hmap (hR.write hwrite)) (hR.use s₄ .mapIntoVas
    (virtPageBase + BitVec.ofNat 64 (pageIdx * 4096)) paddr flags (by decide))
  generalize s₄.call env .mapIntoVas pml4 (virtPageBase + BitVec.ofNat 64 (pageIdx * 4096)) paddr flags = out at huse ⊢
  obtain ⟨s₅, _ | ret⟩ := out
  · exact huse
  dsimp only at huse ⊢
  by_cases hret : ret ≠ 0
  · rw [if_pos hret]
    exact huse
  · rw [if_neg hret]
    exact huse

theorem loadPages (hR : Kept env pml4 R) (flags virtPageBase : Word) (segData : List Byte) (align count : Nat)
    (pageIdx : Nat) (s : Loader) (frames : List Word) :
    R s (loadPages env pml4 flags virtPageBase segData align count pageIdx s frames).1 := by
  induction count generalizing pageIdx s frames with
  | zero => exact hR.refl s
  | succ count ih =>
    unfold Loader.loadPages
    have hpage := hR.loadPage flags virtPageBase segData align pageIdx s frames
    generalize Loader.loadPage env pml4 flags virtPageBase segData align pageIdx s frames = out at hpage ⊢
    obtain ⟨s₁, e | frames₁⟩ := out
    · exact hpage
    · exact hR.trans hpage (ih (pageIdx + 1) s₁ frames₁)

theorem loadSegments (hR : Kept env pml4 R) (bytes : List Byte) (phoff count : Nat) (i : Nat) (s : Loader)
    (frames : List Word) : R s (loadSegments env bytes pml4 phoff count i s frames).1 := by
  induction count generalizing i s frames with
  | zero => exact hR.refl s
  | succ count ih =>
    unfold Loader.loadSegments
    obtain e | ph := phdrAt bytes phoff i
    · exact hR.refl s
    dsimp only
    obtain e | _ | segData := segment bytes ph
    · exact hR.refl s
    · exact ih (i + 1) s frames
    dsimp only
    have hpages := hR.loadPages (vasFlags ph) (BitVec.ofNat 64 ph.vaddr &&& ~~~0xFFF#64) segData (alignOffset ph)
      (totalPages ph) 0 s frames
    generalize Loader.loadPages env pml4 (vasFlags ph) (BitVec.ofNat 64 ph.vaddr &&& ~~~0xFFF#64) segData (alignOffset ph)
      (totalPages ph) 0 s frames = out at hpages ⊢
    obtain ⟨s₁, e | frames₁⟩ := out
    · exact hpages
    · exact hR.trans hpages (ih (i + 1) s₁ frames₁)

theorem registerFrames (hR : Kept env pml4 R) (s : Loader) (pid : Nat) (framesPtr : Word) (frames : List Word) :
    R s (registerFrames env s pid framesPtr frames).1 := by
  unfold Loader.registerFrames
  by_cases hnil : frames = []
  · rw [if_pos hnil]
    exact hR.refl s
  rw [if_neg hnil]
  generalize hwrite : s.write framesPtr (frames.flatMap fun f => leBytes 8 f.toNat) = written
  obtain _ | s₁ := written
  · exact hR.refl s
  dsimp only
  have hcall := hR.trans (hR.write hwrite) (hR.call s₁ .registerFrames (BitVec.ofNat 64 pid) framesPtr
    (BitVec.ofNat 64 frames.length) 0 (by decide))
  generalize s₁.call env .registerFrames (BitVec.ofNat 64 pid) framesPtr (BitVec.ofNat 64 frames.length) 0 = out at hcall ⊢
  obtain ⟨s₂, _ | ret⟩ := out
  · exact hcall
  · exact hcall

/-- From the PML4 on that was created, the relation holds to the end. -/
theorem loadAndSpawn (hR : Kept env pml4 R) {bytes : List Byte} (hok : headerOk bytes = true) (priority : Byte)
    (framesPtr : Word) {s s₁ : Loader} (hcreate : s.call env .createVas 0 0 0 0 = (s₁, some pml4)) :
    R s₁ (loadAndSpawn env bytes priority framesPtr s).1 := by
  obtain ⟨hlen, hvalid⟩ := headerOk_iff.1 hok
  unfold Loader.loadAndSpawn
  rw [if_neg (Nat.not_lt.2 hlen)]
  dsimp only
  rw [hvalid, hcreate]
  generalize Elf64Ehdr.ofBytes (bytes.take ehdrSize) = ehdr
  dsimp only
  rw [if_neg (by decide)]
  by_cases hzero : pml4 = 0
  · rw [if_pos hzero]
    exact hR.refl s₁
  rw [if_neg hzero]
  have hsegs := hR.loadSegments bytes ehdr.phoff ehdr.phnum 0 s₁ []
  generalize Loader.loadSegments env bytes pml4 ehdr.phoff ehdr.phnum 0 s₁ [] = out at hsegs ⊢
  obtain ⟨s₂, e | frames⟩ := out
  · exact hsegs
  dsimp only at hsegs ⊢
  have hspawn := hR.trans hsegs (hR.use s₂ .spawnWithVas (BitVec.ofNat 64 ehdr.entry) (priority.setWidth 64) 0 (by decide))
  generalize s₂.call env .spawnWithVas pml4 (BitVec.ofNat 64 ehdr.entry) (priority.setWidth 64) 0 = out at hspawn ⊢
  obtain ⟨s₃, _ | ret⟩ := out
  · exact hspawn
  dsimp only at hspawn ⊢
  by_cases herr : u64Max - 7 ≤ ret.toNat
  · rw [if_pos herr]
    exact hspawn
  rw [if_neg herr]
  have hreg := hR.trans hspawn (hR.registerFrames s₃ (u32 ret) framesPtr frames)
  generalize Loader.registerFrames env s₃ (u32 ret) framesPtr frames = out at hreg ⊢
  obtain ⟨s₄, e | _⟩ := out
  · exact hreg
  · exact hreg

end Kept

/-! ### The PML4 that is used -/

theorem log_call (env : Env) (s : Loader) (sys : Sys) (a0 a1 a2 a3 : Word) :
    (s.call env sys a0 a1 a2 a3).1.log = s.log ++ [(⟨sys, a0, a1, a2, a3, 0⟩, (s.call env sys a0 a1 a2 a3).2)] := by
  unfold call
  dsimp only
  generalize (env s.log.length s.kernel).dispatch ⟨sys, a0, a1, a2, a3, 0⟩ = out
  obtain _ | ⟨k, _ | _ | _⟩ := out <;> rfl

/-- The calls that take a PML4 get the given one. -/
def UsesOnly (pml4 : Word) (s t : Loader) : Prop :=
  ∃ new, t.log = s.log ++ new ∧ ∀ e ∈ new, e.1.sys = .mapIntoVas ∨ e.1.sys = .spawnWithVas → e.1.a0 = pml4

private theorem usesOnly_call {env : Env} {pml4 : Word} {s : Loader} {sys : Sys} {a0 a1 a2 a3 : Word}
    (h : sys = .mapIntoVas ∨ sys = .spawnWithVas → a0 = pml4) : UsesOnly pml4 s (s.call env sys a0 a1 a2 a3).1 := by
  refine ⟨_, log_call env s sys a0 a1 a2 a3, fun e he huse => ?_⟩
  rw [List.mem_singleton.1 he] at huse ⊢
  exact h huse

theorem kept_usesOnly (env : Env) (pml4 : Word) : Kept env pml4 (UsesOnly pml4) where
  refl s := ⟨[], (List.append_nil _).symm, fun e he => absurd he List.not_mem_nil⟩
  trans := by
    rintro s t u ⟨new, ht, hnew⟩ ⟨new', hu, hnew'⟩
    refine ⟨new ++ new', by rw [hu, ht, List.append_assoc], fun e he huse => ?_⟩
    obtain he | he := List.mem_append.1 he
    · exact hnew e he huse
    · exact hnew' e he huse
  call s sys a0 a1 a2 a3 hsys := usesOnly_call fun huse => by
    obtain rfl | rfl := huse
    · exact absurd hsys (by decide)
    · exact absurd hsys (by decide)
  use s sys a1 a2 a3 _ := usesOnly_call fun _ => rfl
  staging s va := ⟨[], (List.append_nil _).symm, fun e he => absurd he List.not_mem_nil⟩
  write := by
    intro s t va bytes h
    unfold Loader.write at h
    split at h
    · obtain ⟨m, -, rfl⟩ := Option.map_eq_some_iff.1 h
      exact ⟨[], (List.append_nil _).symm, fun e he => absurd he List.not_mem_nil⟩
    · cases h

/-! ### The frames that are taken -/

private theorem consumes_storeBytes {m m' : Memory} {pml4 virt : Word} {bytes : List Byte}
    (h : m.storeBytes pml4 virt bytes = some m') : Consumes m m' := by
  induction bytes generalizing m virt with
  | nil =>
    cases h
    exact .refl _
  | cons b bytes ih =>
    obtain ⟨m₁, hbyte, hrest⟩ := Option.bind_eq_some_iff.1 h
    unfold Memory.storeByte at hbyte
    split at hbyte
    · obtain ⟨phys, -, rfl⟩ := Option.map_eq_some_iff.1 hbyte
      exact (Consumes.writeEntry _ _ _ _).trans (ih hrest)
    · cases hbyte

private theorem consumes_sysMap {k k' : Kernel} {ret : Ret} {a0 a1 a2 : Word} (h : k.sysMap a0 a1 a2 = some (k', ret)) :
    Consumes k.mem k'.mem := by
  obtain ⟨rfl, -⟩ | ⟨phys, m₁, m', -, -, hsource, hmap⟩ := Kernel.sysMap_cases h
  · exact .refl _
  have hfirst : Consumes k.mem m₁ := by
    obtain ⟨-, -, rfl⟩ | ⟨-, m₀, halloc, rfl⟩ := hsource
    · exact .refl _
    · have hcons := Consumes.globalAlloc4k k.mem
      rw [halloc] at hcons
      exact hcons.trans (.frameTag m₀ phys .userOwned)
  have hsecond := Consumes.mapPageGlobal m₁ k.cr3 a0 phys (Kernel.mapFlags a2)
  obtain ⟨heq, rfl, -⟩ | ⟨heq, rfl, -⟩ := hmap
  all_goals
    rw [heq] at hsecond
    exact hfirst.trans hsecond

private theorem consumes_sysMapIntoVas {k k' : Kernel} {ret : Ret} {a0 a1 a2 a3 : Word}
    (h : k.sysMapIntoVas a0 a1 a2 a3 = some (k', ret)) : Consumes k.mem k'.mem := by
  unfold Kernel.sysMapIntoVas at h
  by_cases hzero : a0 = 0 ∨ a2 = 0
  · rw [if_pos hzero] at h
    cases h
    exact .refl _
  rw [if_neg hzero] at h
  by_cases haligned : a2 &&& 0xFFF#64 ≠ 0
  · rw [if_pos haligned] at h
    cases h
    exact .refl _
  rw [if_neg haligned] at h
  dsimp only at h
  generalize (if a3 &&& 4 ≠ 0 then Kernel.mapFlags a3 ||| pteNoExecute else Kernel.mapFlags a3) = flags at h
  have hcons := Consumes.mapPageGlobal k.mem a0 a1 a2 flags
  generalize k.mem.mapPageGlobal a0 a1 a2 flags = out at h hcons
  obtain ⟨m, _ | _⟩ := out
  all_goals
    cases h
    exact hcons

private theorem consumes_sysSpawnWithVas {k k' : Kernel} {ret : Ret} {a0 a1 a2 : Word}
    (h : k.sysSpawnWithVas a0 a1 a2 = some (k', ret)) : Consumes k.mem k'.mem := by
  unfold Kernel.sysSpawnWithVas at h
  by_cases hzero : a0 = 0 ∨ a1 = 0
  · rw [if_pos hzero] at h
    cases h
    exact .refl _
  rw [if_neg hzero] at h
  have hcons := (Elf.extends_mapStack a0 userStackPages 0 k.mem []).1
  generalize Elf.mapStack a0 userStackPages 0 k.mem [] = out at h hcons
  obtain ⟨m, _ | frames⟩ := out
  · cases h
    exact hcons
  dsimp only at h
  generalize k.sched.addRing3Process a0 = added at h
  obtain _ | ⟨sched, _ | pid⟩ := added
  · cases h
  all_goals
    cases h
    exact hcons

private theorem consumes_dispatch {k k' : Kernel} {ret : Ret} {sys : Sys} {a0 a1 a2 a3 : Word}
    (hsys : sys ∈ [.allocPhys, .map, .registerFrames, .mapIntoVas, .spawnWithVas])
    (h : k.dispatch ⟨sys, a0, a1, a2, a3, 0⟩ = some (k', ret)) : Consumes k.mem k'.mem := by
  simp only [List.mem_cons, List.not_mem_nil, or_false] at hsys
  obtain rfl | rfl | rfl | rfl | rfl := hsys
  · change k.sysAllocPhys = some (k', ret) at h
    unfold Kernel.sysAllocPhys at h
    have hcons := Consumes.globalAlloc4k k.mem
    generalize k.mem.globalAlloc4k = out at h hcons
    obtain ⟨m, _ | p⟩ := out
    · cases h
      exact hcons
    · cases h
      exact hcons.trans (.zeroFrame m p)
  · exact consumes_sysMap h
  · change k.sysRegisterFrames a0 a1 a2 = some (k', ret) at h
    unfold Kernel.sysRegisterFrames at h
    dsimp only at h
    split at h
    · cases h
      exact .refl _
    · split at h
      · cases h
        exact .refl _
      · obtain ⟨bytes, -, heq⟩ := Option.map_eq_some_iff.1 h
        cases heq
        exact .refl _
  · exact consumes_sysMapIntoVas h
  · exact consumes_sysSpawnWithVas h

/-- In an uninterrupted run no frame becomes free. -/
theorem kept_consumes (pml4 : Word) : Kept quiet pml4 fun s t => Consumes s.kernel.mem t.kernel.mem := by
  have hcall : ∀ (s : Loader) (sys : Sys) (a0 a1 a2 a3 : Word),
      sys ∈ [.allocPhys, .map, .registerFrames, .mapIntoVas, .spawnWithVas] →
      Consumes s.kernel.mem (s.call quiet sys a0 a1 a2 a3).1.kernel.mem := by
    intro s sys a0 a1 a2 a3 hsys
    unfold call quiet
    dsimp only
    generalize hout : s.kernel.dispatch ⟨sys, a0, a1, a2, a3, 0⟩ = out
    obtain _ | ⟨k, _ | _ | _⟩ := out
    · exact .refl _
    all_goals exact consumes_dispatch hsys hout
  refine ⟨fun s => .refl _, fun h h' => h.trans h', fun s sys a0 a1 a2 a3 hsys => hcall s sys a0 a1 a2 a3 ?_,
    fun s sys a1 a2 a3 hsys => hcall s sys pml4 a1 a2 a3 ?_, fun s va => .refl _, fun {s t va bytes} h => ?_⟩
  · exact List.mem_append_left [.mapIntoVas, .spawnWithVas] hsys
  · exact List.mem_append_right [.allocPhys, .map, .registerFrames] hsys
  · unfold Loader.write at h
    split at h
    · obtain ⟨m, hm, rfl⟩ := Option.map_eq_some_iff.1 h
      exact consumes_storeBytes hm
    · cases h

/-! ### Calls without a free frame -/

section Exhausted

variable {s : Loader} {bytes : List Byte} {phoff : Nat}

private theorem globalAlloc4k_of_exhausted {m : Memory} (h : Exhausted m) : m.globalAlloc4k = (m, none) := by
  obtain ⟨-, heq⟩ | ⟨idx, halloc, -⟩ := m.globalAlloc4k_cases
  · exact heq
  · exact absurd halloc (h idx)

private theorem allocPhys_of_exhausted (h : Exhausted s.kernel.mem) :
    s.call quiet .allocPhys 0 0 0 0 = ({ s with log := s.log ++ [(⟨.allocPhys, 0, 0, 0, 0, 0⟩, some 0)] }, some 0) := by
  have hdispatch : s.kernel.dispatch ⟨.allocPhys, 0, 0, 0, 0, 0⟩ = some (s.kernel, .value 0) := by
    show s.kernel.sysAllocPhys = _
    unfold Kernel.sysAllocPhys
    rw [globalAlloc4k_of_exhausted h]
  unfold call quiet
  dsimp only
  rw [hdispatch]

private theorem createVas_of_exhausted (h : Exhausted s.kernel.mem) :
    s.call quiet .createVas 0 0 0 0 =
      ({ s with log := s.log ++ [(⟨.createVas, 0, 0, 0, 0, 0⟩, some enomem)] }, some enomem) := by
  have hdispatch : s.kernel.dispatch ⟨.createVas, 0, 0, 0, 0, 0⟩ = some (s.kernel, .value enomem) := by
    show s.kernel.sysCreateVas = _
    unfold Kernel.sysCreateVas
    rw [globalAlloc4k_of_exhausted h]
  unfold call quiet
  dsimp only
  rw [hdispatch]

private theorem spawnWithVas_of_exhausted (h : Exhausted s.kernel.mem) (pml4 entry prio : Word) :
    ∃ ret, u64Max - 7 ≤ ret.toNat ∧ s.call quiet .spawnWithVas pml4 entry prio 0 =
      ({ s with log := s.log ++ [(⟨.spawnWithVas, pml4, entry, prio, 0, 0⟩, some ret)] }, some ret) := by
  have hdispatch : ∃ ret, u64Max - 7 ≤ ret.toNat ∧
      s.kernel.dispatch ⟨.spawnWithVas, pml4, entry, prio, 0, 0⟩ = some (s.kernel, .value ret) := by
    by_cases hzero : pml4 = 0 ∨ entry = 0
    · refine ⟨einval, by decide, ?_⟩
      exact if_pos hzero
    · refine ⟨enomem, by decide, ?_⟩
      have hstack : Elf.mapStack pml4 userStackPages 0 s.kernel.mem [] = (s.kernel.mem, none) := by
        unfold userStackPages Elf.mapStack
        rw [globalAlloc4k_of_exhausted h]
      show s.kernel.sysSpawnWithVas pml4 entry prio = _
      unfold Kernel.sysSpawnWithVas
      rw [if_neg hzero, hstack]
  obtain ⟨ret, herr, hdispatch⟩ := hdispatch
  refine ⟨ret, herr, ?_⟩
  unfold call quiet
  dsimp only
  rw [hdispatch]

/-- What the loop does, by what comes first: an error, a page, for which there is no frame, or the end of the headers. -/
private theorem loadSegments_of_exhausted (hfull : Exhausted s.kernel.mem) (bytes : List Byte) (pml4 : Word)
    (phoff count i : Nat) (frames : List Word) :
    (∃ e, mapsPage bytes phoff count i = .error e ∧
      loadSegments quiet bytes pml4 phoff count i s frames = (s, .error e)) ∨
    (mapsPage bytes phoff count i = .ok true ∧ loadSegments quiet bytes pml4 phoff count i s frames =
      ({ s with log := s.log ++ [(⟨.allocPhys, 0, 0, 0, 0, 0⟩, some 0)] }, .error .failed)) ∨
    (mapsPage bytes phoff count i = .ok false ∧ loadSegments quiet bytes pml4 phoff count i s frames = (s, .ok frames)) := by
  induction count generalizing i with
  | zero => exact .inr (.inr ⟨rfl, rfl⟩)
  | succ count ih =>
    unfold mapsPage loadSegments
    generalize phdrAt bytes phoff i = header
    obtain e | ph := header
    · exact .inl ⟨e, rfl, rfl⟩
    dsimp only
    generalize segment bytes ph = seg
    obtain e | _ | segData := seg
    · exact .inl ⟨e, rfl, rfl⟩
    · exact ih (i + 1)
    dsimp only
    by_cases hpages : totalPages ph = 0
    · rw [if_pos hpages, hpages]
      exact ih (i + 1)
    · obtain ⟨pages, hsucc⟩ := Nat.exists_eq_succ_of_ne_zero hpages
      rw [if_neg hpages, hsucc]
      unfold loadPages loadPage
      rw [allocPhys_of_exhausted hfull]
      exact .inr (.inl ⟨rfl, rfl⟩)

/-- Without a free frame nothing is taken, and the error value is passed on exactly if there is no page to map. -/
private theorem loadAndSpawn_of_exhausted {k : Kernel} (hok : headerOk bytes = true) (hfull : Exhausted k.mem)
    (priority : Byte) (framesPtr stagingVa : Word) :
    (loadAndSpawn quiet bytes priority framesPtr (enter k stagingVa)).1.kernel = k ∧
    (UsesCreated (loadAndSpawn quiet bytes priority framesPtr (enter k stagingVa)).1.log ↔ ¬ MapsNothing bytes) := by
  obtain ⟨hlen, hvalid⟩ := headerOk_iff.1 hok
  have hcreate : (enter k stagingVa).call quiet .createVas 0 0 0 0 = _ := createVas_of_exhausted hfull
  unfold loadAndSpawn MapsNothing
  rw [if_neg (Nat.not_lt.2 hlen)]
  dsimp only
  rw [hvalid, hcreate]
  generalize Elf64Ehdr.ofBytes (bytes.take ehdrSize) = ehdr
  dsimp only
  rw [if_neg (by decide), if_neg (by decide)]
  generalize hs₁ : ({ enter k stagingVa with
    log := (enter k stagingVa).log ++ [(⟨.createVas, 0, 0, 0, 0, 0⟩, some enomem)] } : Loader) = s₁
  have hkernel : s₁.kernel = k := by
    rw [← hs₁]
    rfl
  have hlog : s₁.log = [(⟨.createVas, 0, 0, 0, 0, 0⟩, some enomem)] := by
    rw [← hs₁]
    rfl
  have hfull₁ : Exhausted s₁.kernel.mem := by
    rw [hkernel]
    exact hfull
  obtain ⟨e, hmaps, hloop⟩ | ⟨hmaps, hloop⟩ | ⟨hmaps, hloop⟩ :=
    loadSegments_of_exhausted hfull₁ bytes enomem ehdr.phoff ehdr.phnum 0 []
  · rw [hloop, hmaps]
    refine ⟨hkernel, iff_of_true (fun c hc huse => ?_) (fun h => by cases h)⟩
    dsimp only at hc
    rw [hlog, List.mem_singleton] at hc
    rw [hc] at huse
    exact absurd huse (by decide)
  · rw [hloop, hmaps]
    refine ⟨hkernel, iff_of_true (fun c hc huse => ?_) (fun h => by cases h)⟩
    dsimp only at hc
    rw [hlog, List.mem_append, List.mem_singleton, List.mem_singleton] at hc
    obtain hc | hc := hc
    all_goals
      rw [hc] at huse
      exact absurd huse (by decide)
  · obtain ⟨ret, herr, hspawn⟩ := spawnWithVas_of_exhausted hfull₁ enomem (BitVec.ofNat 64 ehdr.entry) (priority.setWidth 64)
    rw [hloop, hmaps]
    dsimp only
    rw [hspawn]
    dsimp only
    rw [if_pos herr]
    refine ⟨hkernel, iff_of_false (fun huses => ?_) (not_not.2 rfl)⟩
    obtain ⟨c, -, -, -, hne⟩ := huses _ (List.mem_append_right _ (List.mem_singleton_self _)) (.inr rfl)
    exact hne rfl

end Exhausted

/-! ### A PML4 that was created -/

/-- When a frame can be allocated, it becomes the PML4. -/
private theorem createVas_of_allocatable (env : Env) (s : Loader) (h : ¬ Exhausted (env s.log.length s.kernel).mem) :
    ∃ s₁ pml4 idx, s.call env .createVas 0 0 0 0 = (s₁, some pml4) ∧ pml4 ≠ enomem ∧
      s₁.log = s.log ++ [(⟨.createVas, 0, 0, 0, 0, 0⟩, some pml4)] ∧
      (env s.log.length s.kernel).mem.isFree idx = true ∧ s₁.kernel.mem.isFree idx = false := by
  generalize hk : env s.log.length s.kernel = k at h ⊢
  obtain ⟨hfull, -⟩ | ⟨idx, halloc, haddr, hfree, -⟩ := k.mem.globalAlloc4k_cases
  · exact absurd hfull h
  have hpair : k.mem.globalAlloc4k = (k.mem.globalAlloc4k.1, some (k.mem.frameAddr idx)) := Prod.ext rfl haddr
  generalize k.mem.globalAlloc4k.1 = m at hpair hfree
  have hdispatch : k.dispatch ⟨.createVas, 0, 0, 0, 0, 0⟩ = some ({ k with
      mem := ((m.zeroFrame (k.mem.frameAddr idx)).mergeKernelIntoUserPml4 k.kernelPml4 (k.mem.frameAddr idx)).mapCrashLogPage
        (k.mem.frameAddr idx) }, .value (k.mem.frameAddr idx)) := by
    show k.sysCreateVas = _
    unfold Kernel.sysCreateVas
    rw [hpair]
  generalize hk₁ : ({ k with
      mem := ((m.zeroFrame (k.mem.frameAddr idx)).mergeKernelIntoUserPml4 k.kernelPml4 (k.mem.frameAddr idx)).mapCrashLogPage
        (k.mem.frameAddr idx) } : Kernel) = k₁ at hdispatch
  have hcall : s.call env .createVas 0 0 0 0 =
      (⟨k₁, s.stagingVa, s.log ++ [(⟨.createVas, 0, 0, 0, 0, 0⟩, some (k.mem.frameAddr idx))]⟩, some (k.mem.frameAddr idx)) := by
    unfold call
    dsimp only
    rw [hk, hdispatch]
  refine ⟨_, _, idx, hcall, fun heq => ?_, rfl, halloc.2.1, ?_⟩
  · -- the addresses of frames are small
    have hnat := congrArg BitVec.toNat heq
    have hend := k.mem.region.end_le
    have hlt := halloc.2.2
    rw [Memory.toNat_frameAddr k.mem halloc.1, show enomem.toNat = 2 ^ 64 - 4 from rfl] at hnat
    omega
  · have hlost : (m.zeroFrame (k.mem.frameAddr idx)).isFree idx = false := by
      rw [Memory.zeroFrame_isFree, hfree idx]
      simp
    rw [← hk₁]
    exact ((Consumes.mergeKernelIntoUserPml4 _ k.kernelPml4 _).trans (.mapCrashLogPage _ _)).not_free hlost

private theorem usesCreated_of_allocatable {env : Env} {k : Kernel} {bytes : List Byte} (hok : headerOk bytes = true)
    (h : ¬ Exhausted (env 0 k).mem) (priority : Byte) (framesPtr stagingVa : Word) :
    UsesCreated (loadAndSpawn env bytes priority framesPtr (enter k stagingVa)).1.log := by
  obtain ⟨s₁, pml4, idx, hcreate, hne, hlog, -⟩ := createVas_of_allocatable env (enter k stagingVa) h
  obtain ⟨new, hend, hnew⟩ := (kept_usesOnly env pml4).loadAndSpawn hok priority framesPtr hcreate
  intro e he huse
  rw [hend, hlog] at he ⊢
  obtain he | he := List.mem_append.1 he
  · change e ∈ [(⟨.createVas, 0, 0, 0, 0, 0⟩, some pml4)] at he
    rw [List.mem_singleton.1 he] at huse
    obtain huse | huse := huse
    · cases huse
    · cases huse
  · have ha0 := hnew e he huse
    refine ⟨(⟨.createVas, 0, 0, 0, 0, 0⟩, some pml4), List.mem_append_left _ (List.mem_append_right _ (List.mem_singleton_self _)),
      rfl, ?_, ?_⟩
    · rw [ha0]
    · rw [ha0]
      exact hne

private theorem loadAndSpawn_rejected {bytes : List Byte} (h : headerOk bytes = false) (env : Env) (priority : Byte)
    (framesPtr : Word) (s : Loader) : loadAndSpawn env bytes priority framesPtr s = (s, .error .failed) := by
  unfold loadAndSpawn
  by_cases hlen : bytes.length < ehdrSize
  · rw [if_pos hlen]
  · have hvalid : (Elf64Ehdr.ofBytes (bytes.take ehdrSize)).valid = false := by
      by_contra hvalid
      rw [headerOk_iff.2 ⟨Nat.not_lt.1 hlen, Bool.eq_true_of_not_eq_false hvalid⟩] at h
      cases h
    rw [if_neg hlen]
    dsimp only
    rw [hvalid]
    rfl

/-! ### Failures that leave nothing behind -/

/-- In an uninterrupted run the PML4 that is used was created, unless no frame can be allocated and the image has no page;
and when the run fails, the same frames are free exactly if the header was rejected or no frame could be allocated.
Whatever happens between the calls, the PML4 was created if there was a frame for it. -/
theorem load_and_spawn_iff (bytes : List Byte) (priority : Byte) (framesPtr stagingVa : Word) (k : Kernel) :
    (UsesCreated (loadAndSpawn quiet bytes priority framesPtr (enter k stagingVa)).1.log ↔
      ¬ (headerOk bytes = true ∧ Exhausted k.mem ∧ MapsNothing bytes)) ∧
    ((loadAndSpawn quiet bytes priority framesPtr (enter k stagingVa)).2 = .error .failed →
      (SameFree k.mem (loadAndSpawn quiet bytes priority framesPtr (enter k stagingVa)).1.kernel.mem ↔
        headerOk bytes = false ∨ Exhausted k.mem)) ∧
    (∀ env : Env, (headerOk bytes = true → ¬ Exhausted (env 0 k).mem) →
      UsesCreated (loadAndSpawn env bytes priority framesPtr (enter k stagingVa)).1.log) := by
  have hnone : UsesCreated (enter k stagingVa).log := fun e he => absurd he List.not_mem_nil
  cases hok : headerOk bytes with
  | false =>
    refine ⟨?_, fun _ => ?_, fun env _ => ?_⟩
    · rw [loadAndSpawn_rejected hok]
      exact iff_of_true hnone fun h => by cases h.1
    · rw [loadAndSpawn_rejected hok]
      exact iff_of_true (SameFree.refl _) (.inl rfl)
    · rw [loadAndSpawn_rejected hok]
      exact hnone
  | true =>
    refine ⟨?_, fun _ => ?_, fun env h => usesCreated_of_allocatable hok (h rfl) priority framesPtr stagingVa⟩
    · by_cases hfull : Exhausted k.mem
      · rw [(loadAndSpawn_of_exhausted hok hfull priority framesPtr stagingVa).2]
        exact not_congr ⟨fun h => ⟨rfl, hfull, h⟩, fun h => h.2.2⟩
      · exact iff_of_true (usesCreated_of_allocatable hok hfull priority framesPtr stagingVa) fun h => hfull h.2.1
    · by_cases hfull : Exhausted k.mem
      · rw [(loadAndSpawn_of_exhausted hok hfull priority framesPtr stagingVa).1]
        exact iff_of_true (SameFree.refl _) (.inr hfull)
      · obtain ⟨s₁, pml4, idx, hcreate, -, -, hbefore, hafter⟩ :=
          createVas_of_allocatable quiet (enter k stagingVa) hfull
        have hcons := (kept_consumes pml4).loadAndSpawn hok priority framesPtr hcreate
        refine iff_of_false (fun hsame => ?_) fun h => h.elim (fun h => by cases h) hfull
        have hidx := hsame.isFree idx
        rw [hcons.not_free hafter] at hidx
        exact absurd (hidx.trans hbefore) (by decide)

/-- A kernel without a free frame. -/
def exhausted : Kernel := { Kernel.small with mem := { Memory.small with freeBitmap := Bitmap.empty } }

private theorem exhausted_exhausted : Exhausted exhausted.mem := by
  intro idx halloc
  have hfree : Bitmap.empty.test idx = true := halloc.2.1
  rw [Bitmap.test_empty] at hfree
  cases hfree

/-- Without a free frame, the failure at the program header leaves nothing behind. -/
theorem load_and_spawn_exhausted :
    UsesCreated (loadAndSpawn quiet headerOnlyElf 100 0x7000 (enter exhausted 0x10000000)).1.log ∧
    (loadAndSpawn quiet headerOnlyElf 100 0x7000 (enter exhausted 0x10000000)).2 = .error .failed ∧
    SameFree exhausted.mem (loadAndSpawn quiet headerOnlyElf 100 0x7000 (enter exhausted 0x10000000)).1.kernel.mem := by
  have hfailed : (loadAndSpawn quiet headerOnlyElf 100 0x7000 (enter exhausted 0x10000000)).2 = .error .failed := by
    decide +kernel
  have hmaps : ¬ MapsNothing headerOnlyElf := by
    unfold MapsNothing
    decide +kernel
  obtain ⟨hcreated, hframes, -⟩ := load_and_spawn_iff headerOnlyElf 100 0x7000 0x10000000 exhausted
  exact ⟨hcreated.2 fun h => hmaps h.2.2, hfailed, (hframes hfailed).2 (.inr exhausted_exhausted)⟩

/-- One program header, which is not to be loaded. -/
def emptyElf : List Byte := headerOnlyElf ++ List.replicate 56 0

/-- The PML4 is lost when a program header lies behind the end of the image; and without a free frame, the process is to be
spawned on the PML4 at the error value. -/
theorem failed_exec_leaves :
    ((loadAndSpawn quiet headerOnlyElf 100 0x7000 (enter Kernel.small 0x10000000)).2 = .error .failed ∧
      ¬ SameFree Kernel.small.mem
        (loadAndSpawn quiet headerOnlyElf 100 0x7000 (enter Kernel.small 0x10000000)).1.kernel.mem) ∧
    ¬ UsesCreated (loadAndSpawn quiet emptyElf 100 0x7000 (enter exhausted 0x10000000)).1.log := by
  refine ⟨⟨by decide +kernel, fun hsame => ?_⟩, fun hcreated => ?_⟩
  · have hfree : Kernel.small.mem.isFree 0 = true := by decide +kernel
    have hlost : (loadAndSpawn quiet headerOnlyElf 100 0x7000 (enter Kernel.small 0x10000000)).1.kernel.mem.isFree 0 = false := by
      decide +kernel
    rw [← hsame.isFree 0, hlost] at hfree
    cases hfree
  · have hmaps : MapsNothing emptyElf := by
      unfold MapsNothing
      decide +kernel
    have hok : headerOk emptyElf = true := by decide +kernel
    exact (loadAndSpawn_of_exhausted hok exhausted_exhausted 100 0x7000 0x10000000).2.1 hcreated hmaps

end Loader

end Rost.Exec
