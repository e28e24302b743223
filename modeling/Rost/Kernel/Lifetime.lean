import Rost.Kernel.Elf

/-!
# The frames of a process

Which calls of the loader give every frame back.  `load` frees nothing on its error paths, and `terminate_process`
frees the PML4 twice: it is the first frame the loader tracks, and the record owns it as its page table as well.  So
frames are conserved exactly when the loader stops before its first allocation (`frames_returned_iff`).
-/

namespace Rost

namespace Elf

/-- The same frames are free in the bitmap, and the pool holds the same frames. -/
structure SameFree (m m' : Memory) : Prop where
  isFree : ∀ i, m'.isFree i = m.isFree i
  ptPool : ∀ p, p ∈ m'.ptPool ↔ p ∈ m.ptPool

theorem SameFree.refl (m : Memory) : SameFree m m := ⟨fun _ => rfl, fun _ => Iff.rfl⟩

/-- The frames a terminated process gives back, in order. -/
def freeAll (m : Memory) (frames : List Word) : Memory := frames.foldl Memory.globalFree4k m

/-- The frames of a process come back: a call of `load` or `spawn_elf` that returns `None` leaves the free frames as
they were, and so does a call that returns a process followed by its termination, which frees no frame twice. -/
def FramesReturned (m : Memory) (s : Scheduler) (kernelPml4 : Word) (img : Image) (priority : Nat) : Prop :=
  (∀ m', load m img none = some (m', none) → SameFree m m') ∧
  (∀ m' s', spawnElf m s kernelPml4 img priority = some (m', s', none) → SameFree m m') ∧
  (∀ m' s' pid, spawnElf m s kernelPml4 img priority = some (m', s', some pid) →
    SameFree m (freeAll m' (s'.terminateProcess pid).2) ∧ (s'.terminateProcess pid).2.Nodup)

/-- The header of an image built into the kernel passes the checks. -/
def headerOk (bytes : List Byte) : Bool :=
  decide (ehdrSize ≤ bytes.length) && (Elf64Ehdr.ofBytes (bytes.take ehdrSize)).valid

/-- The loader stops before its first allocation takes effect: the header is rejected, no frame can be allocated, or
the end of the first program header is not a `u64` (then the kernel panics). -/
def StopsEarly (m : Memory) (bytes : List Byte) : Prop :=
  headerOk bytes = false ∨ (∀ idx, ¬ m.Allocatable idx) ∨
    2 ^ 64 ≤ (Elf64Ehdr.ofBytes (bytes.take ehdrSize)).phoff + phdrSize

/-! ### Images built into the kernel are read without a fault -/

section Static

variable {bytes : List Byte} {hlen : bytes.length < 2 ^ 63} {m : Memory}

theorem readBytes_ofBytes {off n : Nat} (h : off + n ≤ bytes.length) :
    (Image.ofBytes bytes hlen).readBytes m off n = some ((bytes.drop off).take n) := by
  induction n generalizing off with
  | zero => simp [Image.readBytes]
  | succ n ih =>
    have hoff : off < bytes.length := by omega
    have hread : (Image.ofBytes bytes hlen).read m off = some bytes[off] := List.getElem?_eq_getElem hoff
    unfold Image.readBytes
    rw [hread, Option.bind_some, ih (by omega), Option.map_some, List.drop_eq_getElem_cons hoff, List.take_succ_cons]

theorem copyPage_ne_none {segOff segLen align pageIdx : Nat} {phys : Word}
    (h : segOff + segLen ≤ bytes.length) :
    copyPage (Image.ofBytes bytes hlen) segOff segLen align pageIdx phys m ≠ none := by
  unfold copyPage
  simp only
  generalize (if pageIdx = 0 then 0 else pageIdx * 4096 - align) = segStart
  generalize (if pageIdx = 0 then align else 0) = physOffset
  split
  · rw [readBytes_ofBytes (by omega)]
    simp
  · simp

private theorem loadPages_ne_none {pml4 flags virtPageBase : Word} {segOff segLen align count pageIdx : Nat}
    {frames : List Word} (h : segOff + segLen ≤ bytes.length) :
    loadPages (Image.ofBytes bytes hlen) pml4 flags virtPageBase segOff segLen align count pageIdx m frames ≠
      none := by
  induction count generalizing pageIdx m frames with
  | zero => simp [loadPages]
  | succ count ih =>
    unfold loadPages
    split
    · simp
    · rename_i m₁ phys _
      simp only
      split
      · rename_i hcopy
        exact absurd hcopy (copyPage_ne_none h)
      · split
        · simp
        · exact ih

private theorem loadSegment_ne_none {pml4 : Word} {ph : Elf64Phdr} {frames : List Word} :
    loadSegment (Image.ofBytes bytes hlen) pml4 ph m frames ≠ none := by
  unfold loadSegment
  split
  · simp
  · split
    · simp
    · rename_i hfile
      split
      · simp
      · have hle : ph.offset + ph.filesz ≤ bytes.length := Nat.le_of_not_lt fun hlt => hfile (Or.inr hlt)
        exact loadPages_ne_none hle

private theorem loadSegments_ne_none {pml4 : Word} {phoff count i : Nat} {frames : List Word}
    (h : phoff + i * phdrSize + phdrSize < 2 ^ 64) :
    loadSegments (Image.ofBytes bytes hlen) pml4 phoff count i m frames ≠ none := by
  induction count generalizing i m frames with
  | zero => simp [loadSegments]
  | succ count ih =>
    have hoff : wrapAdd 64 phoff (i * phdrSize) = phoff + i * phdrSize := Nat.mod_eq_of_lt (by omega)
    have hend : wrapAdd 64 (phoff + i * phdrSize) phdrSize = phoff + i * phdrSize + phdrSize := Nat.mod_eq_of_lt h
    unfold loadSegments
    simp only [hoff, hend]
    split
    · simp
    · rename_i hle
      have hle' : phoff + i * phdrSize + phdrSize ≤ bytes.length := Nat.le_of_not_lt hle
      split
      · rename_i hgt
        have hgt' : bytes.length < phoff + i * phdrSize := hgt
        omega
      · rw [readBytes_ofBytes hle']
        simp only
        split
        · rename_i hseg
          exact absurd hseg loadSegment_ne_none
        · simp
        · -- the next header starts where this one ends, inside the image
          refine ih ?_
          rw [Nat.succ_mul]
          unfold phdrSize at *
          omega

end Static

/-! ### The three ways a call of the loader begins -/

section Load

variable {bytes : List Byte} {hlen : bytes.length < 2 ^ 63} {m : Memory}

theorem headerOk_iff : headerOk bytes = true ↔
    ehdrSize ≤ bytes.length ∧ (Elf64Ehdr.ofBytes (bytes.take ehdrSize)).valid = true := by
  unfold headerOk
  rw [Bool.and_eq_true_iff, decide_eq_true_iff]

theorem load_rejected (h : headerOk bytes = false) :
    load m (Image.ofBytes bytes hlen) none = some (m, none) := by
  unfold load
  split
  · rfl
  · rename_i hsize
    have hsize' : ehdrSize ≤ bytes.length := Nat.le_of_not_lt hsize
    rw [readBytes_ofBytes (by omega), List.drop_zero]
    have hvalid : (Elf64Ehdr.ofBytes (bytes.take ehdrSize)).valid = false := by
      unfold headerOk at h
      rwa [decide_eq_true hsize', Bool.true_and] at h
    simp [hvalid]

theorem load_of_headerOk (h : headerOk bytes = true) :
    load m (Image.ofBytes bytes hlen) none =
      match m.globalAlloc4k with
      | (m, none) => some (m, none)
      | (m, some phys) =>
        loadInto (Image.ofBytes bytes hlen) (Elf64Ehdr.ofBytes (bytes.take ehdrSize)) (m.zeroFrame phys) phys [phys] := by
  obtain ⟨hsize, hvalid⟩ := headerOk_iff.1 h
  unfold load
  rw [Image.ofBytes_len, if_neg (Nat.not_lt.2 hsize), readBytes_ofBytes (by omega), List.drop_zero]
  simp only [hvalid, Bool.not_true, Bool.false_eq_true, if_false]
  rfl

/-- A program header that does not end below `2 ^ 64` stops the kernel. -/
private theorem loadSegments_overflow {pml4 : Word} {phoff count : Nat} {frames : List Word} (hcount : count ≠ 0)
    (h : 2 ^ 64 ≤ phoff + phdrSize) (hlt : phoff < 2 ^ 64) (hsize : ehdrSize ≤ bytes.length) :
    loadSegments (Image.ofBytes bytes hlen) pml4 phoff count 0 m frames = none := by
  obtain ⟨count, rfl⟩ := Nat.exists_eq_succ_of_ne_zero hcount
  have hoff : wrapAdd 64 phoff (0 * phdrSize) = phoff := by
    rw [Nat.zero_mul]
    exact Nat.mod_eq_of_lt hlt
  have hend : ¬ bytes.length < wrapAdd 64 phoff phdrSize := by
    unfold wrapAdd ehdrSize phdrSize at *
    omega
  have hbound : bytes.length < phoff := by
    unfold phdrSize at h
    omega
  unfold loadSegments
  simp only [hoff, Image.ofBytes_len]
  rw [if_neg hend, if_pos hbound]

private theorem leNat_lt (b : List Byte) : leNat b < 256 ^ b.length := by
  induction b with
  | nil => simp [leNat]
  | cons x b ih =>
    have hx : x.toNat < 256 := x.isLt
    unfold leNat
    rw [List.length_cons, Nat.pow_succ]
    omega

private theorem phoff_lt (b : List Byte) : (Elf64Ehdr.ofBytes b).phoff < 2 ^ 64 := by
  have h := leNat_lt ((b.drop 32).take 8)
  have hle : ((b.drop 32).take 8).length ≤ 8 := List.length_take_le _ _
  have hpow : 256 ^ ((b.drop 32).take 8).length ≤ 256 ^ 8 := Nat.pow_le_pow_right (by decide) hle
  exact Nat.lt_of_lt_of_le h hpow

theorem phnum_ne_zero {h : Elf64Ehdr} (hv : h.valid = true) : h.phnum ≠ 0 := by
  unfold Elf64Ehdr.valid at hv
  simpa using (Bool.and_eq_true_iff.1 hv).2

end Load

/-! ### A frame that stays allocated -/

private theorem not_sameFree {m m' : Memory} {idx : Nat} (hbefore : m.isFree idx = true)
    (hafter : m'.isFree idx = false) : ¬ SameFree m m' := by
  intro h
  have := h.isFree idx
  rw [hbefore, hafter] at this
  cases this

/-! ### The record of a spawned process -/

/-- The first frame registered with a fresh record is recorded. -/
private theorem mem_userFrames_of_head {p : Pcb} (hnil : p.userFrames = []) (f : Word) (frames : List Word) :
    f ∈ ((f :: frames).foldl Pcb.addUserFrame p).userFrames := by
  rw [Pcb.foldl_addUserFrame, hnil]
  exact List.mem_cons_self

/-- Terminating a process whose own PML4 is the first frame registered with it frees that frame twice. -/
private theorem dropped_not_nodup {s s₁ : Scheduler} {pml4 : Word} {pid priority : Nat} {frames : List Word}
    (hne : pml4 ≠ 0) (hadd : s.addRing3Process pml4 = some (s₁, some pid)) :
    ¬ (((if 0 < priority then s₁.setPriority pid priority else s₁).registerUserFrames pid (pml4 :: frames)
        ).terminateProcess pid).2.Nodup := by
  obtain ⟨id, rsp, hrec⟩ := Scheduler.addRing3Process_record hadd
  obtain ⟨p, hp, hnil, hbase⟩ : ∃ p, (if 0 < priority then s₁.setPriority pid priority else s₁).getProcess pid = some p ∧
      p.userFrames = [] ∧ p.pageTableBase = pml4 := by
    split
    · unfold Scheduler.setPriority
      rw [Scheduler.getProcess_update, if_pos rfl, hrec]
      exact ⟨_, rfl, rfl, rfl⟩
    · exact ⟨_, hrec, rfl, rfl⟩
  generalize (if 0 < priority then s₁.setPriority pid priority else s₁) = s₂ at hp ⊢
  have hreg : (s₂.registerUserFrames pid (pml4 :: frames)).getProcess pid =
      some { (pml4 :: frames).foldl Pcb.addUserFrame p with pml4Owned := true } := by
    unfold Scheduler.registerUserFrames
    rw [Scheduler.getProcess_update, if_pos rfl, hp]
    rfl
  have hdrop : ((s₂.registerUserFrames pid (pml4 :: frames)).terminateProcess pid).2 =
      ((pml4 :: frames).foldl Pcb.addUserFrame p).userFrames ++ [pml4] := by
    have hget : ((s₂.registerUserFrames pid (pml4 :: frames)).log .terminate 0 pid).processTable.getProcess pid = _ := hreg
    unfold Scheduler.terminateProcess ProcessTable.terminateProcess
    simp only [hget]
    unfold Pcb.droppedFrames
    simp only [Pcb.foldl_addUserFrame (pml4 :: frames) p, hbase, Bool.true_and]
    rw [if_pos (by simpa using hne)]
  rw [hdrop]
  intro hnodup
  have hmem := mem_userFrames_of_head hnil pml4 frames
  exact (List.disjoint_of_nodup_append hnodup) hmem (List.mem_singleton_self _)

/-! ### When the frames come back -/

private theorem framesReturned_of_unchanged {m : Memory} {s : Scheduler} {kernelPml4 : Word} {img : Image}
    {priority : Nat} (h : load m img none = some (m, none) ∨ load m img none = none) :
    FramesReturned m s kernelPml4 img priority := by
  unfold FramesReturned spawnElf
  rcases h with h | h
  · rw [h]
    refine ⟨fun m' h' => ?_, fun m' s' h' => ?_, fun m' s' pid h' => by simp at h'⟩
    · cases h'
      exact SameFree.refl m
    · simp only [Option.some.injEq, Prod.mk.injEq] at h'
      rw [← h'.1]
      exact SameFree.refl m
  · rw [h]
    refine ⟨fun m' h' => ?_, fun m' s' h' => ?_, fun m' s' pid h' => ?_⟩ <;> cases h'

/-- Once the PML4 is allocated, a failure leaks it and a success frees it twice. -/
private theorem not_framesReturned_of_alloc {m m₁ : Memory} {s : Scheduler} {kernelPml4 phys : Word} {img : Image}
    {priority idx entry : Nat} {r : Option (List Word)}
    (hpid : s.processTable.nextPid + 1 < 2 ^ 32) (hbefore : m.isFree idx = true) (hafter : m₁.isFree idx = false)
    (hne : phys ≠ 0) (hpre : ∀ frames, r = some frames → [phys] <+: frames)
    (hload : load m img none = some (m₁, r.map fun frames => ⟨entry, phys, frames⟩)) :
    ¬ FramesReturned m s kernelPml4 img priority := by
  rintro ⟨hnone, hspawnNone, hspawnSome⟩
  cases r with
  | none => exact not_sameFree hbefore hafter (hnone m₁ hload)
  | some frames =>
    obtain ⟨hcons, hpre₂⟩ := extends_mapStack phys userStackPages 0 m₁ frames
    unfold spawnElf at hspawnNone hspawnSome
    simp only [hload, Option.map_some] at hspawnNone hspawnSome
    generalize hstack : mapStack phys userStackPages 0 m₁ frames = out at hcons hpre₂ hspawnNone hspawnSome
    obtain ⟨m₂, frames₂⟩ := out
    cases frames₂ with
    | none => exact not_sameFree hbefore (hcons.not_free hafter) (hspawnNone m₂ s rfl)
    | some frames₂ =>
      have hcons₃ := (hcons.trans (.mergeKernelIntoUserPml4 m₂ kernelPml4 phys)).trans (.mapCrashLogPage _ phys)
      simp only at hspawnNone hspawnSome
      cases hadd : s.addRing3Process phys with
      | none => exact Scheduler.addRing3Process_ne_none hpid phys hadd
      | some out =>
        obtain ⟨s₁, pid⟩ := out
        simp only [hadd] at hspawnNone hspawnSome
        cases pid with
        | none => exact not_sameFree hbefore (hcons₃.not_free hafter) (hspawnNone _ s₁ rfl)
        | some pid =>
          obtain ⟨rest, hrest⟩ := (hpre frames rfl).trans (hpre₂ frames₂ rfl)
          have hnodup := (hspawnSome _ _ pid rfl).2
          rw [← hrest] at hnodup
          exact dropped_not_nodup hne hadd hnodup

/-- The loader conserves frames exactly when it stops before its first allocation takes effect. -/
theorem frames_returned_iff (m : Memory) (s : Scheduler) (kernelPml4 : Word) (bytes : List Byte)
    (hlen : bytes.length < 2 ^ 63) (priority : Nat) (hpid : s.processTable.nextPid + 1 < 2 ^ 32) :
    FramesReturned m s kernelPml4 (Image.ofBytes bytes hlen) priority ↔ StopsEarly m bytes := by
  unfold StopsEarly
  cases hok : headerOk bytes with
  | false => exact iff_of_true (framesReturned_of_unchanged (Or.inl (load_rejected hok))) (Or.inl rfl)
  | true =>
    obtain ⟨hsize, hvalid⟩ := headerOk_iff.1 hok
    have hload : load m (Image.ofBytes bytes hlen) none = _ := load_of_headerOk hok
    have hnum := phnum_ne_zero hvalid
    have hoff := phoff_lt (bytes.take ehdrSize)
    generalize Elf64Ehdr.ofBytes (bytes.take ehdrSize) = ehdr at hload hnum hoff ⊢
    rcases m.globalAlloc4k_cases with ⟨hfull, heq⟩ | ⟨idx, halloc, haddr, hfree, -⟩
    · rw [heq] at hload
      exact iff_of_true (framesReturned_of_unchanged (Or.inl hload)) (Or.inr (Or.inl hfull))
    · have hpair : m.globalAlloc4k = (m.globalAlloc4k.1, some (m.frameAddr idx)) := Prod.ext rfl haddr
      rw [hpair] at hload
      simp only at hload
      unfold loadInto at hload
      by_cases hover : 2 ^ 64 ≤ ehdr.phoff + phdrSize
      · rw [loadSegments_overflow hnum hover hoff hsize] at hload
        exact iff_of_true (framesReturned_of_unchanged (Or.inr hload)) (Or.inr (Or.inr hover))
      · refine iff_of_false ?_ ?_
        · have hreturns : loadSegments (Image.ofBytes bytes hlen) (m.frameAddr idx) ehdr.phoff ehdr.phnum 0
              (m.globalAlloc4k.1.zeroFrame (m.frameAddr idx)) [m.frameAddr idx] ≠ none :=
            loadSegments_ne_none (by omega)
          obtain ⟨⟨m₁, r⟩, hseg⟩ := Option.ne_none_iff_exists'.1 hreturns
          rw [hseg] at hload
          obtain ⟨hcons, hpre⟩ := extends_loadSegments hseg
          have hlost : (m.globalAlloc4k.1.zeroFrame (m.frameAddr idx)).isFree idx = false := by
            rw [Memory.zeroFrame_isFree, hfree idx]
            simp
          exact not_framesReturned_of_alloc hpid halloc.2.1 (hcons.not_free hlost)
            (m.frameAddr_ne_zero halloc.1) hpre hload
        · rintro (h | h | h)
          · cases h
          · exact h idx halloc
          · exact hover h

/-- A valid header that announces one program header behind the end of the image. -/
def headerOnlyElf : List Byte :=
  [0x7f, 0x45, 0x4c, 0x46, 2, 1, 1, 0, 0, 0, 0, 0, 0, 0, 0, 0, 2, 0, 0x3e, 0, 1, 0, 0, 0, 0, 0, 0x40, 0, 0, 0, 0, 0,
   0x40, 0, 0, 0, 0, 0, 0, 0, 0, 0, 0, 0, 0, 0, 0, 0, 0, 0, 0, 0, 0x40, 0, 0x38, 0, 1, 0, 0, 0, 0, 0, 0, 0]

theorem frames_returned_empty :
    (Scheduler.new 0).processTable.nextPid + 1 < 2 ^ 32 ∧
    FramesReturned (Memory.ofRegion (.atOneMb 0x10000 (by decide))) (Scheduler.new 0) 0
      (Image.ofBytes [] (by decide)) 0 := by
  have hpid : (Scheduler.new 0).processTable.nextPid + 1 < 2 ^ 32 := by decide
  exact ⟨hpid, (frames_returned_iff _ _ _ [] _ 0 hpid).2 (Or.inl rfl)⟩

/-- The loader allocates the PML4, finds no room for the program header, and returns without freeing the frame. -/
theorem frames_leaked_header_only :
    ¬ FramesReturned (Memory.ofRegion (.atOneMb 0x10000 (by decide))) (Scheduler.new 0) 0
      (Image.ofBytes headerOnlyElf (by decide)) 0 := by
  intro h
  have hfree : (Memory.ofRegion (.atOneMb 0x10000 (by decide))).isFree 0 = true := by decide
  have hload : (load (Memory.ofRegion (.atOneMb 0x10000 (by decide))) (Image.ofBytes headerOnlyElf (by decide)) none).any
      (fun r => r.2.isNone && !r.1.isFree 0) = true := by decide +kernel
  obtain ⟨⟨m', r⟩, hl, hr⟩ := (Option.any_eq_true _ _).1 hload
  obtain ⟨hnone, hlost⟩ := Bool.and_eq_true_iff.1 hr
  have hr₀ : r = none := Option.isNone_iff_eq_none.1 hnone
  subst hr₀
  exact not_sameFree hfree (by simpa using hlost) (h.1 m' hl)

end Elf

end Rost
