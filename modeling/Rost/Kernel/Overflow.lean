import Rost.Kernel.Contents

/-!
# Overflows of the loader

`loadChecked` is the loader as a build with overflow checks runs it: a sum that is no `u64` stops the kernel, like an
index out of bounds does in every build.  Where it stops, `load` goes on with the sum modulo `2 ^ 64`; where it does
not, the two agree (`load_of_loadChecked`).  Only one sum of the loader is checked in the source, so it depends on the
header fields whether it returns (`loadChecked_returns_iff`).
-/

namespace Rost

open Memory (Tables Builds Consumes OwnedPath PageAt)

namespace Elf

/-- `loadPages`, where the address of a page has to be a `u64`.  The pages are at most `2 ^ 52`, so `page_idx * 4096`
does not overflow. -/
def loadPagesChecked (img : Image) (pml4 flags virtPageBase : Word) (segOff segLen pageAlignOffset : Nat) :
    Nat → Nat → Memory → List Word → Option (Memory × Option (List Word))
  | 0, _, m, frames => some (m, some frames)
  | count + 1, pageIdx, m, frames =>
    match m.globalAlloc4k with
    | (m, none) => some (m, none)
    | (m, some phys) =>
      let m := (m.frameTag phys .userOwned).zeroFrame phys
      let frames := track frames phys
      match copyPage img segOff segLen pageAlignOffset pageIdx phys m with
      | none => none
      | some m =>
        if 2 ^ 64 ≤ virtPageBase.toNat + pageIdx * 4096 then none
        else
          match m.mapPageGlobal pml4 (virtPageBase + BitVec.ofNat 64 (pageIdx * 4096)) phys flags with
          | (m, false) => some (m, none)
          | (m, true) =>
            loadPagesChecked img pml4 flags virtPageBase segOff segLen pageAlignOffset count (pageIdx + 1) m frames

/-- `loadSegment`, where the number of bytes on the pages has to be a `usize`. -/
def loadSegmentChecked (img : Image) (pml4 : Word) (ph : Elf64Phdr) (m : Memory) (frames : List Word) :
    Option (Memory × Option (List Word)) :=
  if ph.type ≠ ptLoad then some (m, some frames)
  else if 2 ^ 64 ≤ ph.offset + ph.filesz ∨ img.len < ph.offset + ph.filesz then some (m, none)
  else if ph.memsz = 0 then some (m, some frames)
  else if 2 ^ 64 ≤ ph.pageAlign + ph.memsz + 4095 then none
  else
    loadPagesChecked img pml4 (segmentFlags ph) ph.pageBase ph.offset ph.filesz ph.pageAlign
      ((ph.pageAlign + ph.memsz + 4095) / 4096) 0 m frames

/-- `loadSegments`, where the end of a program header has to be a `usize`. -/
def loadSegmentsChecked (img : Image) (pml4 : Word) (phoff : Nat) :
    Nat → Nat → Memory → List Word → Option (Memory × Option (List Word))
  | 0, _, m, frames => some (m, some frames)
  | count + 1, i, m, frames =>
    let off := phoff + i * phdrSize
    if 2 ^ 64 ≤ off + phdrSize then none
    else if img.len < off + phdrSize then some (m, none)
    else
      match img.readBytes m off phdrSize with
      | none => none
      | some bytes =>
        match loadSegmentChecked img pml4 (Elf64Phdr.ofBytes bytes) m frames with
        | none => none
        | some (m, none) => some (m, none)
        | some (m, some frames) => loadSegmentsChecked img pml4 phoff count (i + 1) m frames

def loadIntoChecked (img : Image) (ehdr : Elf64Ehdr) (m : Memory) (pml4 : Word) (frames : List Word) :
    Option (Memory × Option LoadedElf) :=
  (loadSegmentsChecked img pml4 ehdr.phoff ehdr.phnum 0 m frames).map fun (m, r) =>
    (m, r.map fun frames => ⟨ehdr.entry, pml4, frames⟩)

/-- `load` with overflow checks. -/
def loadChecked (m : Memory) (img : Image) (pml4 : Option Word) : Option (Memory × Option LoadedElf) :=
  if img.len < ehdrSize then some (m, none)
  else
    match img.readBytes m 0 ehdrSize with
    | none => none
    | some bytes =>
      let ehdr := Elf64Ehdr.ofBytes bytes
      if !ehdr.valid then some (m, none)
      else
        match pml4 with
        | some pml4 => loadIntoChecked img ehdr m pml4 []
        | none =>
          match m.globalAlloc4k with
          | (m, none) => some (m, none)
          | (m, some phys) => loadIntoChecked img ehdr (m.zeroFrame phys) phys (track [] phys)

/-! ### What the checks change -/

section Agree

variable {img : Image} {pml4 : Word} {m : Memory} {frames : List Word}

private theorem loadPages_of_checked {flags base : Word} {segOff segLen align count pageIdx : Nat}
    {r : Memory × Option (List Word)}
    (h : loadPagesChecked img pml4 flags base segOff segLen align count pageIdx m frames = some r) :
    loadPages img pml4 flags base segOff segLen align count pageIdx m frames = some r := by
  induction count generalizing pageIdx m frames with
  | zero => exact h
  | succ count ih =>
    unfold loadPagesChecked at h
    unfold loadPages
    obtain ⟨m₁, found, halloc⟩ : ∃ m₁ found, m.globalAlloc4k = (m₁, found) := ⟨_, _, rfl⟩
    rw [halloc] at h ⊢
    cases found with
    | none => exact h
    | some phys =>
      simp only at h ⊢
      cases hcopy : copyPage img segOff segLen align pageIdx phys ((m₁.frameTag phys .userOwned).zeroFrame phys) with
      | none =>
        rw [hcopy] at h
        cases h
      | some m₂ =>
        rw [hcopy] at h
        simp only at h ⊢
        split at h
        · cases h
        · obtain ⟨m₃, ok, hmap⟩ : ∃ m₃ ok, m₂.mapPageGlobal pml4 (base + BitVec.ofNat 64 (pageIdx * 4096)) phys flags =
              (m₃, ok) := ⟨_, _, rfl⟩
          rw [hmap] at h ⊢
          cases ok with
          | false => exact h
          | true => exact ih h

private theorem wrapAdd_pageAlign {ph : Elf64Phdr} (h : ph.pageAlign + ph.memsz + 4095 < 2 ^ 64) :
    wrapAdd 64 (wrapAdd 64 ph.pageAlign ph.memsz) 4095 = ph.pageAlign + ph.memsz + 4095 := by
  unfold wrapAdd
  rw [Nat.mod_eq_of_lt (by omega : ph.pageAlign + ph.memsz < 2 ^ 64), Nat.mod_eq_of_lt h]

private theorem loadSegment_of_checked {ph : Elf64Phdr} {r : Memory × Option (List Word)}
    (h : loadSegmentChecked img pml4 ph m frames = some r) : loadSegment img pml4 ph m frames = some r := by
  unfold loadSegmentChecked at h
  unfold loadSegment
  split at h
  · rename_i htype
    rw [if_pos htype]
    exact h
  · rename_i htype
    rw [if_neg htype]
    split at h
    · rename_i hfile
      rw [if_pos hfile]
      exact h
    · rename_i hfile
      rw [if_neg hfile]
      split at h
      · rename_i hempty
        rw [if_pos hempty]
        exact h
      · rename_i hempty
        rw [if_neg hempty]
        split at h
        · cases h
        · rename_i hsum
          rw [← wrapAdd_pageAlign (Nat.lt_of_not_le hsum)] at h
          exact loadPages_of_checked h

private theorem loadSegments_of_checked {phoff count i : Nat} {r : Memory × Option (List Word)}
    (h : loadSegmentsChecked img pml4 phoff count i m frames = some r) :
    loadSegments img pml4 phoff count i m frames = some r := by
  induction count generalizing i m frames with
  | zero => exact h
  | succ count ih =>
    unfold loadSegmentsChecked at h
    unfold loadSegments
    simp only at h ⊢
    split at h
    · cases h
    · rename_i hsum
      have hoff : wrapAdd 64 phoff (i * phdrSize) = phoff + i * phdrSize := Nat.mod_eq_of_lt (by omega)
      have hend : wrapAdd 64 (phoff + i * phdrSize) phdrSize = phoff + i * phdrSize + phdrSize :=
        Nat.mod_eq_of_lt (by omega)
      rw [hoff, hend]
      split at h
      · rename_i hlen
        rw [if_pos hlen]
        exact h
      · rename_i hlen
        rw [if_neg hlen, if_neg (by omega)]
        cases hread : img.readBytes m (phoff + i * phdrSize) phdrSize with
        | none =>
          rw [hread] at h
          cases h
        | some bytes =>
          rw [hread] at h
          simp only at h ⊢
          cases hseg : loadSegmentChecked img pml4 (Elf64Phdr.ofBytes bytes) m frames with
          | none =>
            rw [hseg] at h
            cases h
          | some out =>
            obtain ⟨m₁, found⟩ := out
            rw [hseg] at h
            rw [loadSegment_of_checked hseg]
            cases found with
            | none => exact h
            | some frames => exact ih h

/-- As long as no check fails, the loader does what it does without the checks. -/
theorem load_of_loadChecked {root : Option Word} {r : Memory × Option LoadedElf}
    (h : loadChecked m img root = some r) : load m img root = some r := by
  have hinto : ∀ {ehdr : Elf64Ehdr} {m : Memory} {pml4 : Word} {frames : List Word},
      loadIntoChecked img ehdr m pml4 frames = some r → loadInto img ehdr m pml4 frames = some r := by
    intro ehdr m pml4 frames h
    obtain ⟨out, hseg, heq⟩ := Option.map_eq_some_iff.1 h
    unfold loadInto
    rw [loadSegments_of_checked hseg, Option.map_some]
    exact congrArg some heq
  unfold loadChecked at h
  unfold load
  split at h
  · rename_i hlen
    rw [if_pos hlen]
    exact h
  · rename_i hlen
    rw [if_neg hlen]
    cases hread : img.readBytes m 0 ehdrSize with
    | none =>
      rw [hread] at h
      cases h
    | some bytes =>
      rw [hread] at h
      simp only at h ⊢
      by_cases hvalid : (!(Elf64Ehdr.ofBytes bytes).valid) = true
      · rw [if_pos hvalid] at h ⊢
        exact h
      · rw [if_neg hvalid] at h ⊢
        cases root with
        | some pml4 => exact hinto h
        | none =>
          simp only at h ⊢
          obtain ⟨m₁, found, halloc⟩ : ∃ m₁ found, m.globalAlloc4k = (m₁, found) := ⟨_, _, rfl⟩
          rw [halloc] at h ⊢
          cases found with
          | none => exact h
          | some phys => exact hinto h

end Agree

/-! ### When the loader returns -/

/-- The frames it takes to load `pages`: for the PML4, for the pages, and for the tables that the pool has no frame
for. -/
def framesFor (m : Memory) (pages : List Word) : Nat := 1 + pages.length + ((tablesFor pages).card - m.ptPool.length)

/-- The first `i` pages of a segment. -/
def firstPages (ph : Elf64Phdr) (i : Nat) : List Word :=
  (List.range i).map fun j => ph.pageBase + BitVec.ofNat 64 (j * 4096)

/-- The pages of the segments in front of the header with number `k`. -/
def pagesBefore (bytes : List Byte) (k : Nat) : List Word := (List.range k).flatMap fun j => segmentPages (header bytes j)

/-- The sums of a segment that is loaded behind the pages `before`: the bytes on its pages, and the address of each
page that there is a frame for. -/
structure SegmentInRange (m : Memory) (before : List Word) (ph : Elf64Phdr) : Prop where
  size : ph.pageAlign + ph.memsz + 4095 < 2 ^ 64
  address : ∀ i < ph.totalPages, framesFor m (before ++ firstPages ph i) < m.freeFrames.length →
    ph.pageBase.toNat + i * 4096 < 2 ^ 64

/-- The sums that the loader comes to are in range: the end of the first program header, and those of every segment for
which the headers up to its own pass the checks and the frames last for the segments before. -/
def InRange (m : Memory) (bytes : List Byte) : Prop :=
  headerOk bytes = true → m.freeFrames ≠ [] →
    (Elf64Ehdr.ofBytes (bytes.take ehdrSize)).phoff + phdrSize < 2 ^ 64 ∧
    ∀ k < headerCount bytes, (∀ j ≤ k, segmentOk bytes (Elf64Ehdr.ofBytes (bytes.take ehdrSize)).phoff j = true) →
      framesFor m (pagesBefore bytes k) ≤ m.freeFrames.length →
      (header bytes k).type = ptLoad → (header bytes k).memsz ≠ 0 →
      SegmentInRange m (pagesBefore bytes k) (header bytes k)

section Returns

variable {m₀ m m' : Memory} {kern o : Word} {tag : Tags} {pages frames frames' : List Word} {bytes : List Byte}
  {hlen : bytes.length < 2 ^ 63}

private theorem framesFor_le_append (m : Memory) (pages news : List Word) :
    framesFor m pages ≤ framesFor m (pages ++ news) := by
  have hsub : tablesFor pages ⊆ tablesFor (pages ++ news) := by
    unfold tablesFor
    rw [List.toFinset_append]
    exact Finset.biUnion_subset_biUnion_of_subset_left _ Finset.subset_union_left
  have hcard := Finset.card_le_card hsub
  unfold framesFor
  rw [List.length_append]
  omega

private theorem ne_none_loadPages_iff {base flags : Word} {segOff segLen align count pageIdx : Nat}
    (h : Placed m₀ kern o pages m tag) (hu : m₀.Usable) (haddr : flags &&& pteAddrMask = 0)
    (hpresent : flags &&& ptePresent ≠ 0) (hfits : segOff + segLen ≤ bytes.length) :
    loadPagesChecked (.ofBytes bytes hlen) o flags base segOff segLen align count pageIdx m frames ≠ none ↔
      ∀ i < count, framesFor m₀ (pages ++ (List.range' pageIdx i).map fun j => base + BitVec.ofNat 64 (j * 4096)) <
        m₀.freeFrames.length → base.toNat + (pageIdx + i) * 4096 < 2 ^ 64 := by
  induction count generalizing pageIdx m frames tag pages with
  | zero => exact iff_of_true (by simp [loadPagesChecked]) fun i hi => absurd hi (Nat.not_lt_zero i)
  | succ count ih =>
    have hnext : ∀ i, pages ++ (List.range' pageIdx (i + 1)).map (fun j => base + BitVec.ofNat 64 (j * 4096)) =
        pages ++ [base + BitVec.ofNat 64 (pageIdx * 4096)] ++
          (List.range' (pageIdx + 1) i).map fun j => base + BitVec.ofNat 64 (j * 4096) := by
      intro i
      rw [List.range'_succ, List.map_cons, List.append_cons]
    rw [Nat.forall_lt_succ_left]
    simp only [hnext, List.range'_zero, List.map_nil, List.append_nil, Nat.add_zero]
    unfold loadPagesChecked
    split
    · -- no frame is left for this page, and so for none behind it
      rename_i m₁ halloc
      have hfull : ¬ framesFor m₀ pages < m₀.freeFrames.length := by
        intro hlt
        obtain ⟨m₂, p, hsome⟩ := h.drawn.data_of_room hu (by unfold framesFor at hlt; omega)
        rw [halloc] at hsome
        cases hsome
      refine iff_of_true (by simp) ⟨fun hlt => absurd hlt hfull, fun i _ hlt => absurd ?_ hfull⟩
      rw [List.append_assoc] at hlt
      exact Nat.lt_of_le_of_lt (framesFor_le_append m₀ pages _) hlt
    · rename_i m₁ phys halloc
      have hroom : framesFor m₀ pages < m₀.freeFrames.length := by
        have hle := h.drawn.data_le halloc
        unfold framesFor
        omega
      have hcopied : copyPage (.ofBytes bytes hlen) segOff segLen align pageIdx phys
          ((m₁.frameTag phys .userOwned).zeroFrame phys) ≠ none := copyPage_ne_none hfits
      obtain ⟨m₂, hcopy⟩ := Option.ne_none_iff_exists'.1 hcopied
      obtain ⟨hcons, hram, hbitmap, hpool⟩ := filled_copyPage h halloc hcopy
      simp only [hcopy]
      by_cases hover : 2 ^ 64 ≤ base.toNat + pageIdx * 4096
      · rw [if_pos hover]
        exact iff_of_false (fun hne => hne rfl) fun hall => absurd (hall.1 hroom) (by omega)
      · rw [if_neg hover]
        rw [and_iff_right fun _ => by omega]
        split
        · -- a table of the page has no frame
          rename_i m₃ hmap
          refine iff_of_true (by simp) fun i _ hlt => ?_
          have hroom' : Room m₀ (pages ++ [base + BitVec.ofNat 64 (pageIdx * 4096)]) :=
            ⟨hu, (framesFor_le_append m₀ _ _).trans (Nat.le_of_lt hlt)⟩
          obtain ⟨m₄, hsome⟩ := h.map_of_room hroom' halloc hcons hram hbitmap hpool flags
          rw [hmap] at hsome
          cases hsome
        · rename_i m₃ hmap
          obtain ⟨tag₃, h₃⟩ := h.page halloc hcons hram hbitmap hpool haddr hpresent hmap
          rw [ih h₃]
          simp only [Nat.add_assoc, Nat.add_comm 1]

/-- There were frames for the pages that have been loaded. -/
private theorem room_loadPages {img : Image} {base flags : Word} {segOff segLen align count pageIdx : Nat}
    (h : Placed m₀ kern o pages m tag) (hroom : Room m₀ pages) (haddr : flags &&& pteAddrMask = 0)
    (hpresent : flags &&& ptePresent ≠ 0)
    (hl : loadPages img o flags base segOff segLen align count pageIdx m frames = some (m', some frames')) :
    Room m₀ (pages ++ (List.range' pageIdx count).map fun j => base + BitVec.ofNat 64 (j * 4096)) := by
  induction count generalizing pageIdx m frames tag pages with
  | zero =>
    rw [List.range'_zero, List.map_nil, List.append_nil]
    exact hroom
  | succ count ih =>
    obtain ⟨m₁, phys, m₂, m₃, halloc, hcopy, hmap, hl⟩ := loadPages_succ hl
    obtain ⟨hcons, hram, hbitmap, hpool⟩ := filled_copyPage h halloc hcopy
    obtain ⟨tag₃, h₃⟩ := h.page halloc hcons hram hbitmap hpool haddr hpresent hmap
    rw [List.range'_succ, List.map_cons, List.append_cons]
    exact ih h₃ (h.room hroom.usable halloc hcons hram hbitmap hpool hmap) hl

private theorem segmentPages_nil {ph : Elf64Phdr} (h : ph.type ≠ ptLoad ∨ ph.memsz = 0) : segmentPages ph = [] := if_pos h

private theorem totalPages_eq {ph : Elf64Phdr} (hload : ph.type = ptLoad) (hsize : ph.memsz ≠ 0)
    (hsum : ph.pageAlign + ph.memsz + 4095 < 2 ^ 64) : (ph.pageAlign + ph.memsz + 4095) / 4096 = ph.totalPages := by
  unfold Elf64Phdr.totalPages
  rw [if_neg (not_or.2 ⟨not_not_intro hload, hsize⟩), wrapAdd_pageAlign hsum]

private theorem room_loadSegment {img : Image} {ph : Elf64Phdr} (h : Placed m₀ kern o pages m tag)
    (hroom : Room m₀ pages) (hl : loadSegment img o ph m frames = some (m', some frames')) :
    Room m₀ (pages ++ segmentPages ph) := by
  by_cases hskip : ph.type ≠ ptLoad ∨ ph.memsz = 0
  · rw [segmentPages_nil hskip, List.append_nil]
    exact hroom
  · obtain ⟨hload, hsize⟩ := not_or.1 hskip
    unfold loadSegment at hl
    rw [if_neg hload, if_neg hsize] at hl
    split at hl
    · cases hl
    · unfold segmentPages
      rw [if_neg hskip]
      simp only [List.range_eq_range']
      exact room_loadPages h hroom (segmentFlags_addr ph) (segmentFlags_present ph) hl

/-- One segment. -/
private theorem ne_none_loadSegment_iff {ph : Elf64Phdr} (h : Placed m₀ kern o pages m tag) (hu : m₀.Usable) :
    loadSegmentChecked (.ofBytes bytes hlen) o ph m frames ≠ none ↔
      (ph.fits bytes.length = true → ph.type = ptLoad → ph.memsz ≠ 0 → SegmentInRange m₀ pages ph) := by
  unfold loadSegmentChecked
  by_cases hload : ph.type = ptLoad
  · rw [if_neg (not_not_intro hload)]
    by_cases hfile : 2 ^ 64 ≤ ph.offset + ph.filesz ∨ bytes.length < ph.offset + ph.filesz
    · rw [Image.ofBytes_len, if_pos hfile]
      refine iff_of_true (by simp) fun hfits => ?_
      unfold Elf64Phdr.fits at hfits
      have hin := (of_decide_eq_true hfits).resolve_left (not_not_intro hload)
      omega
    · rw [Image.ofBytes_len, if_neg hfile]
      by_cases hsize : ph.memsz = 0
      · rw [if_pos hsize]
        exact iff_of_true (by simp) fun _ _ hne => absurd hsize hne
      · rw [if_neg hsize]
        have hfits : ph.fits bytes.length = true := decide_eq_true (Or.inr (by omega))
        by_cases hsum : 2 ^ 64 ≤ ph.pageAlign + ph.memsz + 4095
        · rw [if_pos hsum]
          refine iff_of_false (fun hne => hne rfl) fun hall => ?_
          have := (hall hfits hload hsize).size
          omega
        · rw [if_neg hsum, totalPages_eq hload hsize (Nat.lt_of_not_le hsum),
            ne_none_loadPages_iff h hu (segmentFlags_addr ph) (segmentFlags_present ph) (by omega)]
          simp only [Nat.zero_add, ← List.range_eq_range']
          exact ⟨fun hall _ _ _ => ⟨Nat.lt_of_not_le hsum, hall⟩, fun hall => (hall hfits hload hsize).address⟩
  · rw [if_pos hload]
    exact iff_of_true (by simp) fun _ htype => absurd htype hload

/-- The segments of the headers from the `i`-th on. -/
private theorem ne_none_loadSegments_iff {phoff count i : Nat} (h : Placed m₀ kern o pages m tag) (hroom : Room m₀ pages)
    (hsum : phoff + i * phdrSize + phdrSize < 2 ^ 64) :
    loadSegmentsChecked (.ofBytes bytes hlen) o phoff count i m frames ≠ none ↔
      ∀ k < count, (∀ j ≤ k, segmentOk bytes phoff (i + j) = true) →
        framesFor m₀ (pages ++ (List.range' i k).flatMap fun j => segmentPages (programHeader bytes phoff j)) ≤
          m₀.freeFrames.length →
        (programHeader bytes phoff (i + k)).type = ptLoad → (programHeader bytes phoff (i + k)).memsz ≠ 0 →
        SegmentInRange m₀ (pages ++ (List.range' i k).flatMap fun j => segmentPages (programHeader bytes phoff j))
          (programHeader bytes phoff (i + k)) := by
  induction count generalizing i m frames tag pages with
  | zero => exact iff_of_true (by simp [loadSegmentsChecked]) fun k hk => absurd hk (Nat.not_lt_zero k)
  | succ count ih =>
    have hoff : wrapAdd 64 phoff (i * phdrSize) = phoff + i * phdrSize := Nat.mod_eq_of_lt (by omega)
    have hnext : ∀ k, pages ++ (List.range' i (k + 1)).flatMap (fun j => segmentPages (programHeader bytes phoff j)) =
        pages ++ segmentPages (programHeader bytes phoff i) ++
          (List.range' (i + 1) k).flatMap fun j => segmentPages (programHeader bytes phoff j) := by
      intro k
      rw [List.range'_succ, List.flatMap_cons, List.append_assoc]
    rw [Nat.forall_lt_succ_left]
    simp only [hnext, List.range'_zero, List.flatMap_nil, List.append_nil, Nat.add_zero]
    unfold loadSegmentsChecked
    simp only
    rw [if_neg (Nat.not_le.2 hsum), Image.ofBytes_len]
    by_cases hin : bytes.length < phoff + i * phdrSize + phdrSize
    · -- the header is not in the image
      rw [if_pos hin]
      have hbad : segmentOk bytes phoff i = false := by
        unfold segmentOk
        rw [hoff, decide_eq_false (by omega), Bool.false_and]
      refine iff_of_true (by simp) ⟨fun hok => ?_, fun k _ hok => ?_⟩
      · have := hok 0 (Nat.le_refl 0)
        rw [Nat.add_zero, hbad] at this
        cases this
      · have := hok 0 (Nat.zero_le _)
        rw [Nat.add_zero, hbad] at this
        cases this
    · have hph : Elf64Phdr.ofBytes ((bytes.drop (phoff + i * phdrSize)).take phdrSize) = programHeader bytes phoff i := by
        unfold programHeader
        rw [hoff]
      have hok : segmentOk bytes phoff i = (programHeader bytes phoff i).fits bytes.length := by
        unfold segmentOk
        rw [hoff, decide_eq_true (by omega), Bool.true_and]
      have hfirst : ∀ k, (∀ j ≤ k, segmentOk bytes phoff (i + j) = true) →
          (programHeader bytes phoff i).fits bytes.length = true := fun k hall => hok ▸ hall 0 (Nat.zero_le k)
      have hone : loadSegmentChecked (.ofBytes bytes hlen) o (programHeader bytes phoff i) m frames ≠ none ↔ _ :=
        ne_none_loadSegment_iff h hroom.usable
      rw [if_neg hin, readBytes_ofBytes (by omega)]
      simp only [hph]
      cases hseg : loadSegmentChecked (.ofBytes bytes hlen) o (programHeader bytes phoff i) m frames with
      | none =>
        rw [hseg] at hone
        refine iff_of_false (fun hne => hne rfl) fun hall => ?_
        refine hone.2 (fun hfits hload hsize => hall.1 (fun j hj => ?_) hroom.frames hload hsize) rfl
        rw [Nat.le_zero.1 hj, Nat.add_zero, hok]
        exact hfits
      | some out =>
        obtain ⟨m₁, r⟩ := out
        have hthis := hone.1 (by rw [hseg]; simp)
        rw [and_iff_right fun hall _ hload hsize => hthis (hfirst 0 hall) hload hsize]
        have hseg := loadSegment_of_checked hseg
        cases r with
        | none =>
          -- the frames do not last for this segment
          refine iff_of_true (by simp) fun k _ hall hle => ?_
          have hroom' : Room m₀ (pages ++ segmentPages (programHeader bytes phoff i)) :=
            ⟨hroom.usable, (framesFor_le_append m₀ _ _).trans hle⟩
          obtain ⟨m₂, frames₂, hsome⟩ := exists_loadSegment hlen frames h hroom' (hfirst _ hall)
          rw [hseg] at hsome
          cases hsome
        | some frames₁ =>
          obtain ⟨tag₁, h₁⟩ := placed_loadSegment h hseg
          have hfits := fits_of_loadSegment hseg
          have hshift : ∀ k, (∀ j ≤ k + 1, segmentOk bytes phoff (i + j) = true) ↔
              ∀ j ≤ k, segmentOk bytes phoff (i + 1 + j) = true := by
            refine fun k => ⟨fun hall j hj => ?_, fun hall j hj => ?_⟩
            · rw [Nat.add_assoc, Nat.add_comm 1]
              exact hall (j + 1) (by omega)
            · cases j with
              | zero =>
                rw [Nat.add_zero, hok]
                exact hfits
              | succ j =>
                rw [Nat.add_comm j, ← Nat.add_assoc]
                exact hall j (by omega)
          have hnum : ∀ k, programHeader bytes phoff (i + (k + 1)) = programHeader bytes phoff (i + 1 + k) := by
            intro k
            rw [Nat.add_comm k, ← Nat.add_assoc]
          simp only [hshift, hnum]
          refine ih h₁ (room_loadSegment h hroom hseg) ?_
          rw [Nat.succ_mul]
          unfold phdrSize at *
          omega

private theorem loadChecked_rejected (h : headerOk bytes = false) :
    loadChecked m (.ofBytes bytes hlen) none = some (m, none) := by
  unfold loadChecked
  rw [Image.ofBytes_len]
  split
  · rfl
  · rename_i hsize
    have hsize' : ehdrSize ≤ bytes.length := Nat.le_of_not_lt hsize
    unfold headerOk at h
    rw [decide_eq_true hsize', Bool.true_and] at h
    rw [readBytes_ofBytes (by omega), List.drop_zero]
    simp [h]

/-- A build with overflow checks returns from the loader if and only if the sums that it comes to are in range. -/
theorem loadChecked_returns_iff (T : Tables m kern tag) (hu : m.Usable) :
    loadChecked m (.ofBytes bytes hlen) none ≠ none ↔ InRange m bytes := by
  unfold InRange
  cases hok : headerOk bytes with
  | false =>
    rw [loadChecked_rejected hok]
    exact iff_of_true (by simp) fun hhead => by cases hhead
  | true =>
    obtain ⟨hsize, hvalid⟩ := headerOk_iff.1 hok
    have hnum := phnum_ne_zero hvalid
    unfold loadChecked headerCount pagesBefore header
    rw [Image.ofBytes_len, if_neg (Nat.not_lt.2 hsize), readBytes_ofBytes (by omega), List.drop_zero]
    simp only [hvalid, Bool.not_true, Bool.false_eq_true, if_false, forall_const]
    generalize Elf64Ehdr.ofBytes (bytes.take ehdrSize) = ehdr at hnum ⊢
    split
    · rename_i m₁ halloc
      refine iff_of_true (by simp) fun hfree => ?_
      obtain ⟨m₂, p, hsome⟩ := Memory.globalAlloc4k_of_free hu hfree
      rw [halloc] at hsome
      cases hsome
    · rename_i m₁ phys halloc
      have hle := (Memory.Drawn.refl m).data_le halloc
      have hroom : Room m [] := ⟨hu, by rw [show tablesFor [] = ∅ from rfl, Finset.card_empty]; exact hle⟩
      have hfree : m.freeFrames ≠ [] := by
        intro hnil
        rw [hnil, List.length_nil] at hle
        omega
      unfold loadIntoChecked
      rw [Ne, Option.map_eq_none_iff, forall_prop_of_true hfree]
      by_cases hsum : ehdr.phoff + phdrSize < 2 ^ 64
      · rw [and_iff_right hsum]
        refine (ne_none_loadSegments_iff (placed_root T halloc) hroom ?_).trans ?_
        · rw [Nat.zero_mul, Nat.add_zero]
          exact hsum
        · simp only [List.nil_append, Nat.zero_add, ← List.range_eq_range']
      · refine iff_of_false (fun hne => hne ?_) fun hall => hsum hall.1
        obtain ⟨count, hcount⟩ := Nat.exists_eq_succ_of_ne_zero hnum
        rw [hcount]
        unfold loadSegmentsChecked
        simp only [Nat.zero_mul, Nat.add_zero]
        rw [if_pos (Nat.le_of_not_lt hsum)]

end Returns

/-- An image of two segments keeps the sums in range. -/
theorem loadChecked_returns_two : ∃ tag, Tables (withFree (List.range' 512 6)) 0x10000 tag ∧
    (withFree (List.range' 512 6)).Usable ∧
    loadChecked (withFree (List.range' 512 6)) (.ofBytes (twoSegments 0 0x10) (length_twoSegments 0 0x10)) none ≠ none := by
  have his : ∀ i ∈ List.range' 512 6, 512 ≤ i ∧ i < 765 := by decide
  have hu := usable_withFree (by decide : (List.range' 512 6).Pairwise (· < ·)) his
  obtain ⟨tag, T⟩ := tables_withFree his
  refine ⟨tag, T, hu, (loadChecked_returns_iff T hu).2 fun _ _ => ⟨by decide +kernel, fun k hk _ _ _ _ => ?_⟩⟩
  have hpages : ∀ k < 2, (header (twoSegments 0 0x10) k).totalPages = 1 ∧
      (header (twoSegments 0 0x10) k).pageAlign + (header (twoSegments 0 0x10) k).memsz + 4095 < 2 ^ 64 := by
    decide +kernel
  obtain ⟨htotal, hsum⟩ := hpages k hk
  refine ⟨hsum, fun i hi _ => ?_⟩
  rw [htotal] at hi
  rw [Nat.lt_one_iff.1 hi, Nat.zero_mul, Nat.add_zero]
  exact BitVec.isLt _

/-- A header whose program headers begin 40 bytes below `2 ^ 64`. -/
def farHeaderElf : List Byte :=
  [0x7f, 0x45, 0x4c, 0x46, 2, 1, 1, 0, 0, 0, 0, 0, 0, 0, 0, 0, 2, 0, 0x3e, 0, 1, 0, 0, 0, 0, 0, 0x40, 0, 0, 0, 0, 0,
   0xd8, 0xff, 0xff, 0xff, 0xff, 0xff, 0xff, 0xff, 0, 0, 0, 0, 0, 0, 0, 0, 0, 0, 0, 0, 0x40, 0, 0x38, 0, 1, 0, 0, 0,
   0, 0, 0, 0]

/-- It stops the kernel in every build: with the end of the program header taken modulo `2 ^ 64`, the header seems to
lie in the image, and the slice from its start on does not. -/
theorem loadChecked_stops :
    loadChecked (Memory.ofRegion (.atOneMb 0x4000 (by decide))) (.ofBytes farHeaderElf (by decide)) none = none ∧
    load (Memory.ofRegion (.atOneMb 0x4000 (by decide))) (.ofBytes farHeaderElf (by decide)) none = none := by
  have hnone : ∀ {α : Type} {x : Option α}, x.isNone = true → x = none := Option.isNone_iff_eq_none.1
  exact ⟨hnone (by decide +kernel), hnone (by decide +kernel)⟩

end Elf

end Rost
