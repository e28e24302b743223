import Rost.Kernel.Placement

/-!
# Which images the loader accepts

With enough memory (`Room`), the loader accepts an image exactly if its header and its program headers pass the checks
(`accepts`).
-/

namespace Rost

open Memory (Tables Builds Consumes OwnedPath PageAt)

/-- A program header is left alone, or its part of the file lies in the image. -/
def Elf64Phdr.fits (len : Nat) (ph : Elf64Phdr) : Bool :=
  decide (ph.type ≠ ptLoad ∨ (ph.offset + ph.filesz < 2 ^ 64 ∧ ph.offset + ph.filesz ≤ len))

namespace Elf

/-- The program header with number `i` lies in the image, and fits. -/
def segmentOk (bytes : List Byte) (phoff i : Nat) : Bool :=
  decide (wrapAdd 64 phoff (i * phdrSize) + phdrSize ≤ bytes.length) && (programHeader bytes phoff i).fits bytes.length

/-- The image passes the checks of the loader. -/
def accepts (bytes : List Byte) : Bool :=
  let ehdr := Elf64Ehdr.ofBytes (bytes.take ehdrSize)
  headerOk bytes && (List.range ehdr.phnum).all (segmentOk bytes ehdr.phoff)

/-- There is a frame for the PML4, for every page, and for every page table. -/
structure Room (m : Memory) (pages : List Word) : Prop where
  usable : m.Usable
  frames : 1 + pages.length + ((tablesFor pages).card - m.ptPool.length) ≤ m.freeFrames.length

section Room

variable {m₀ m m₁ m₂ m₃ : Memory} {kern o phys virt flags : Word} {tag : Tags} {pages news frames : List Word}
  {bytes : List Byte} {hlen : bytes.length < 2 ^ 63}

theorem Room.left (h : Room m (pages ++ news)) : Room m pages := by
  refine ⟨h.usable, ?_⟩
  have hframes := h.frames
  have hsub : tablesFor pages ⊆ tablesFor (pages ++ news) := by
    unfold tablesFor
    rw [List.toFinset_append]
    exact Finset.biUnion_subset_biUnion_of_subset_left _ Finset.subset_union_left
  have hcard := Finset.card_le_card hsub
  rw [List.length_append] at hframes
  omega

/-- A frame for the next page. -/
theorem Placed.alloc_of_room (h : Placed m₀ kern o pages m tag) (hroom : Room m₀ (pages ++ [virt])) :
    ∃ m₁ phys, m.globalAlloc4k = (m₁, some phys) := by
  refine h.drawn.data_of_room hroom.usable ?_
  have hframes := hroom.frames
  have hcard := Finset.card_le_card (tablesFor_append pages virt ▸ Finset.subset_union_left : tablesFor pages ⊆ _)
  rw [List.length_append, List.length_singleton] at hframes
  omega

/-- And frames for its tables. -/
theorem Placed.map_of_room (h : Placed m₀ kern o pages m tag) (hroom : Room m₀ (pages ++ [virt]))
    (halloc : m.globalAlloc4k = (m₁, some phys)) (hcons : Consumes m₁ m₂)
    (hram : ∀ f, f ≠ phys → ∀ j, m₂.ram f j = m₁.ram f j) (hbitmap : m₂.freeBitmap = m₁.freeBitmap)
    (hpool : m₂.ptPool = m₁.ptPool) (flags : Word) : ∃ m₃, m₂.mapPageGlobal o virt phys flags = (m₃, true) := by
  obtain ⟨hdata, hpath⟩ := h.filled halloc hcons hram virt flags
  obtain ⟨hd₁, -⟩ := h.drawn.data halloc
  refine (hd₁.congr hcons.region hbitmap hpool).mapPageGlobal_of_room hdata.tables h.root hpath h.built hroom.usable ?_
    phys flags
  have hframes := hroom.frames
  rw [tablesFor_append, List.length_append, List.length_singleton] at hframes
  omega

/-- There were frames for a page that has been mapped. -/
theorem Placed.room (h : Placed m₀ kern o pages m tag) (hu : m₀.Usable) (halloc : m.globalAlloc4k = (m₁, some phys))
    (hcons : Consumes m₁ m₂) (hram : ∀ f, f ≠ phys → ∀ j, m₂.ram f j = m₁.ram f j)
    (hbitmap : m₂.freeBitmap = m₁.freeBitmap) (hpool : m₂.ptPool = m₁.ptPool)
    (hmap : m₂.mapPageGlobal o virt phys flags = (m₃, true)) : Room m₀ (pages ++ [virt]) := by
  obtain ⟨hdata, hpath⟩ := h.filled halloc hcons hram virt flags
  obtain ⟨hd₁, -⟩ := h.drawn.data halloc
  have hle := (hd₁.congr hcons.region hbitmap hpool).mapPageGlobal_le hdata.tables h.root hpath h.built
    (h.drawn.data_le halloc) hmap
  refine ⟨hu, ?_⟩
  rw [tablesFor_append, List.length_append, List.length_singleton]
  omega

/-- The page loop of a segment that lies in the image. -/
theorem exists_loadPages {base : Word} {segOff segLen align count pageIdx : Nat} (h : Placed m₀ kern o pages m tag)
    (hroom : Room m₀ (pages ++ (List.range' pageIdx count).map fun i => base + BitVec.ofNat 64 (i * 4096)))
    (haddr : flags &&& pteAddrMask = 0) (hpresent : flags &&& ptePresent ≠ 0) (hfits : segOff + segLen ≤ bytes.length) :
    ∃ m' frames',
      loadPages (.ofBytes bytes hlen) o flags base segOff segLen align count pageIdx m frames = some (m', some frames') := by
  induction count generalizing pageIdx m frames tag pages with
  | zero => exact ⟨m, frames, rfl⟩
  | succ count ih =>
    rw [List.range'_succ, List.map_cons, List.append_cons] at hroom
    obtain ⟨m₁, phys, halloc⟩ := h.alloc_of_room hroom.left
    have hcopied : copyPage (.ofBytes bytes hlen) segOff segLen align pageIdx phys
        ((m₁.frameTag phys .userOwned).zeroFrame phys) ≠ none := copyPage_ne_none hfits
    obtain ⟨m₂, hcopy⟩ := Option.ne_none_iff_exists'.1 hcopied
    obtain ⟨hcons, hram, hbitmap, hpool⟩ := filled_copyPage h halloc hcopy
    obtain ⟨m₃, hmap⟩ := h.map_of_room hroom.left halloc hcons hram hbitmap hpool flags
    obtain ⟨tag₃, h₃⟩ := h.page halloc hcons hram hbitmap hpool haddr hpresent hmap
    obtain ⟨m', frames', hrest⟩ := @ih _ _ _ (track frames phys) _ h₃ hroom
    refine ⟨m', frames', ?_⟩
    unfold loadPages
    simp only [halloc, hcopy, hmap]
    exact hrest

/-- A segment whose header fits. -/
theorem exists_loadSegment (hlen : bytes.length < 2 ^ 63) (frames : List Word) {ph : Elf64Phdr} (h : Placed m₀ kern o pages m tag) (hroom : Room m₀ (pages ++ segmentPages ph))
    (hfits : ph.fits bytes.length = true) :
    ∃ m' frames', loadSegment (.ofBytes bytes hlen) o ph m frames = some (m', some frames') := by
  unfold Elf64Phdr.fits at hfits
  have hfits := of_decide_eq_true hfits
  unfold loadSegment
  by_cases htype : ph.type = ptLoad
  · obtain ⟨hno, hle⟩ := hfits.resolve_left (not_not_intro htype)
    rw [if_neg (not_not_intro htype), if_neg (by rw [Image.ofBytes_len]; omega)]
    by_cases hempty : ph.memsz = 0
    · rw [if_pos hempty]
      exact ⟨m, frames, rfl⟩
    · rw [if_neg hempty]
      unfold segmentPages at hroom
      rw [if_neg (not_or.2 ⟨not_not_intro htype, hempty⟩)] at hroom
      simp only [List.range_eq_range'] at hroom
      exact exists_loadPages h hroom (segmentFlags_addr ph) (segmentFlags_present ph) hle
  · rw [if_pos htype]
    exact ⟨m, frames, rfl⟩

/-- All of them. -/
theorem exists_loadSegments (hlen : bytes.length < 2 ^ 63) (frames : List Word) {phoff count i : Nat} (h : Placed m₀ kern o pages m tag)
    (hroom : Room m₀ (pages ++ (List.range' i count).flatMap fun i => segmentPages (programHeader bytes phoff i)))
    (hfits : ∀ j ∈ List.range' i count, segmentOk bytes phoff j = true) :
    ∃ m' frames', loadSegments (.ofBytes bytes hlen) o phoff count i m frames = some (m', some frames') := by
  induction count generalizing i m frames tag pages with
  | zero => exact ⟨m, frames, rfl⟩
  | succ count ih =>
    rw [List.range'_succ, List.flatMap_cons, ← List.append_assoc] at hroom
    rw [List.range'_succ] at hfits
    obtain ⟨hin, hfit⟩ := Bool.and_eq_true_iff.1 (hfits i List.mem_cons_self)
    have hin := of_decide_eq_true hin
    obtain ⟨m₁, frames₁, hseg⟩ := exists_loadSegment hlen frames h hroom.left hfit
    obtain ⟨tag₁, h₁⟩ := placed_loadSegment h hseg
    obtain ⟨m', frames', hrest⟩ := @ih _ _ _ frames₁ _ h₁ hroom fun j hj => hfits j (List.mem_cons_of_mem _ hj)
    refine ⟨m', frames', ?_⟩
    have hend : wrapAdd 64 (wrapAdd 64 phoff (i * phdrSize)) phdrSize = wrapAdd 64 phoff (i * phdrSize) + phdrSize :=
      Nat.mod_eq_of_lt (by omega)
    unfold loadSegments
    simp only
    rw [if_neg (by rw [hend, Image.ofBytes_len]; omega), if_neg (by rw [Image.ofBytes_len]; omega),
      readBytes_ofBytes hin]
    simp only
    rw [show loadSegment (.ofBytes bytes hlen) o (Elf64Phdr.ofBytes
      ((bytes.drop (wrapAdd 64 phoff (i * phdrSize))).take phdrSize)) m frames = some (m₁, some frames₁) from hseg]
    exact hrest

theorem exists_mapStack (frames : List Word) {count page : Nat} (h : Placed m₀ kern o pages m tag)
    (hroom : Room m₀ (pages ++ (List.range' page count).map fun page =>
      userStackTop - BitVec.ofNat 64 (userStackPages * 4096) + BitVec.ofNat 64 (page * 4096))) :
    ∃ m' frames', mapStack o count page m frames = (m', some frames') := by
  induction count generalizing page m frames tag pages with
  | zero => exact ⟨m, frames, rfl⟩
  | succ count ih =>
    rw [List.range'_succ, List.map_cons, List.append_cons] at hroom
    obtain ⟨m₁, phys, halloc⟩ := h.alloc_of_room hroom.left
    have hram : ∀ f, f ≠ phys → ∀ j, (m₁.zeroFrame phys).ram f j = m₁.ram f j := by
      intro f hf j
      rw [Memory.zeroFrame_ram, if_neg hf]
    obtain ⟨m₃, hmap⟩ := h.map_of_room hroom.left halloc (.zeroFrame m₁ phys) hram rfl rfl stackFlags
    obtain ⟨tag₃, h₃⟩ := h.page halloc (.zeroFrame m₁ phys) hram rfl rfl (by decide) (by decide) hmap
    obtain ⟨m', frames', hrest⟩ := @ih _ _ _ (track frames phys) _ h₃ hroom
    refine ⟨m', frames', ?_⟩
    unfold mapStack
    simp only [halloc, hmap]
    exact hrest

end Room

/-! ### What is accepted -/

section Accept

variable {m m' : Memory} {kern : Word} {tag : Tags} {bytes : List Byte} {hlen : bytes.length < 2 ^ 63}

theorem fits_of_loadSegment {pml4 : Word} {ph : Elf64Phdr} {frames frames' : List Word}
    (h : loadSegment (.ofBytes bytes hlen) pml4 ph m frames = some (m', some frames')) : ph.fits bytes.length = true := by
  unfold loadSegment at h
  unfold Elf64Phdr.fits
  refine decide_eq_true ?_
  split at h
  · rename_i htype
    exact Or.inl htype
  · split at h
    · cases h
    · rename_i hbad
      have hbad := not_or.1 hbad
      rw [Image.ofBytes_len] at hbad
      exact Or.inr ⟨by omega, by omega⟩

theorem segmentOk_of_loadSegments {pml4 : Word} {phoff count i : Nat} {frames frames' : List Word}
    (h : loadSegments (.ofBytes bytes hlen) pml4 phoff count i m frames = some (m', some frames')) :
    ∀ j ∈ List.range' i count, segmentOk bytes phoff j = true := by
  induction count generalizing i m frames with
  | zero =>
    intro j hj
    cases hj
  | succ count ih =>
    obtain ⟨⟨hend, hoff⟩, m₁, frames₁, hseg, hl⟩ := loadSegments_succ h
    intro j hj
    rw [List.range'_succ] at hj
    rcases List.mem_cons.1 hj with rfl | hj
    · have hwrap : wrapAdd 64 (wrapAdd 64 phoff (j * phdrSize)) phdrSize =
          wrapAdd 64 phoff (j * phdrSize) + phdrSize := Nat.mod_eq_of_lt (by unfold phdrSize at *; omega)
      rw [hwrap] at hend
      exact Bool.and_eq_true_iff.2 ⟨decide_eq_true hend, fits_of_loadSegment hseg⟩
    · exact ih hl j hj

/-- With enough memory, the loader accepts the images that pass its checks. -/
theorem exists_load_iff (T : Tables m kern tag) (hroom : Room m (imagePages bytes)) :
    (∃ m' loaded, load m (.ofBytes bytes hlen) none = some (m', some loaded)) ↔ accepts bytes = true := by
  unfold accepts
  simp only
  rw [Bool.and_eq_true_iff, List.all_eq_true]
  cases hok : headerOk bytes with
  | false =>
    refine iff_of_false ?_ (fun h => by cases h.1)
    rintro ⟨m', loaded, hl⟩
    rw [load_rejected hok] at hl
    cases hl
  | true =>
    rw [load_of_headerOk hok]
    have hfree : m.freeFrames ≠ [] := by
      intro hnil
      have hframes := hroom.frames
      rw [hnil, List.length_nil] at hframes
      omega
    obtain ⟨m₁, o, halloc⟩ := Memory.globalAlloc4k_of_free hroom.usable hfree
    rw [halloc]
    simp only [true_and]
    constructor
    · rintro ⟨m', loaded, hl⟩
      obtain ⟨⟨m₂, r⟩, hseg, heq⟩ := Option.map_eq_some_iff.1 hl
      simp only [Prod.mk.injEq] at heq
      obtain ⟨frames, rfl, -⟩ := Option.map_eq_some_iff.1 heq.2
      rw [List.range_eq_range']
      exact segmentOk_of_loadSegments hseg
    · intro hall
      have hroom' := hroom
      unfold imagePages at hroom'
      simp only [List.range_eq_range'] at hroom' hall
      obtain ⟨m', frames, hseg⟩ := exists_loadSegments hlen [o] (placed_root T halloc) hroom' hall
      refine ⟨m', ⟨(Elf64Ehdr.ofBytes (bytes.take ehdrSize)).entry, o, frames⟩, ?_⟩
      unfold loadInto
      rw [hseg]
      rfl

/-- With a stack besides, and a place in the process table, it becomes a process. -/
theorem exists_spawnElf {s : Scheduler} {priority : Nat} (T : Tables m kern tag) (hroom : Room m (loadedPages bytes))
    (haccepts : accepts bytes = true) (hadd : ∀ o, ∃ s₁ pid, s.addRing3Process o = some (s₁, some pid)) :
    ∃ m' s' pid x, spawnElf m s kern (.ofBytes bytes hlen) priority = some (m', s', some pid) ∧
      s'.getProcess pid = some x := by
  obtain ⟨m₁, loaded, hload⟩ := (@exists_load_iff _ _ _ _ hlen T hroom.left).2 haccepts
  obtain ⟨tag₁, h₁⟩ := placed_load T hload
  have hstack := hroom
  unfold loadedPages stackPages at hstack
  rw [List.range_eq_range'] at hstack
  obtain ⟨m₂, frames, hs⟩ := exists_mapStack loaded.frames h₁ hstack
  obtain ⟨s₁, pid, hpid⟩ := hadd loaded.pml4Phys
  have hrecord : ∃ x, ((if 0 < priority then s₁.setPriority pid priority else s₁).registerUserFrames pid frames).getProcess
      pid = some x := by
    obtain ⟨-, -, ⟨hnone, -⟩ | ⟨hr, -, -, id, rsp, hget⟩⟩ := Scheduler.addRing3Process_adds hpid
    · cases hnone
    · cases hr
      have hnew := hget s.processTable.nextPid
      rw [if_pos rfl] at hnew
      unfold Scheduler.registerUserFrames
      rw [Scheduler.getProcess_update, if_pos rfl]
      split
      · unfold Scheduler.setPriority
        rw [Scheduler.getProcess_update, if_pos rfl, hnew]
        exact ⟨_, rfl⟩
      · rw [hnew]
        exact ⟨_, rfl⟩
  obtain ⟨x, hx⟩ := hrecord
  unfold spawnElf
  simp only [hload, hs, hpid]
  exact ⟨_, _, pid, x, rfl, hx⟩

end Accept

end Elf

end Rost
