import Rost.Kernel.Acceptance
import Rost.Memory.Merging

/-!
# The buffer that the exec server reads

The shell reads a program into a buffer of its own, and the exec server maps it from the physical address of the first
page, page after page, as if the buffer were contiguous in physical memory (`exec_from_phys`).  That is so exactly if
the frames that are next when the loader comes to the buffer lie side by side (`serverSees_iff`).
-/

namespace Rost

open Memory (Tables Consumes tablesOf)

namespace Elf

/-! ### The buffer of the shell -/

/-- `EXEC_BUF_CAP` -/
def execBufCap : Nat := 512 * 1024

/-- `MAX_ELF_PAGES` -/
def maxElfPages : Nat := 128

/-- The frames that `exec_from_phys` maps, one after the other. -/
def execFromPhys (physBase : Word) (elfLen : Nat) : Option (List Word) :=
  if elfLen = 0 ∨ physBase = 0 then none
  else
    let pages := (elfLen + 4095) / 4096
    if maxElfPages < pages then none else some ((List.range pages).map fun i => physBase + BitVec.ofNat 64 (i * 4096))

/-- Page `i` of a buffer. -/
def bufPage (buf : Word) (i : Nat) : Word := buf + BitVec.ofNat 64 (i * 4096)

/-- The image has the buffer `EXEC_BUF` at `buf`, on a page boundary; it begins with page `k` of the image, and no page
that is mapped later takes the place of one of its pages. -/
structure HoldsBuffer (bytes : List Byte) (buf : Word) (k : Nat) : Prop where
  aligned : buf &&& 0xFFF#64 = 0
  pages : ∀ i < maxElfPages, (imagePages bytes)[k + i]? = some (bufPage buf i)
  last : ∀ i < maxElfPages, ∀ l v, k + i < l → (loadedPages bytes)[l]? = some v → pathOf v ≠ pathOf (bufPage buf i)
  not_crashLog : ∀ i < maxElfPages, pathOf crashLogPhys ≠ pathOf (bufPage buf i)

/-- From the physical address of its first page, the exec server maps the pages of the buffer, whatever the length of
the file in it. -/
def ServerSees (m : Memory) (pml4 buf : Word) : Prop :=
  ∃ physBase, m.translateAddress pml4 buf = some physBase ∧
    ∀ elfLen ≤ execBufCap, ∀ frames, execFromPhys physBase elfLen = some frames →
      ∀ i phys, frames[i]? = some phys → m.translateAddress pml4 (bufPage buf i) = some phys

/-- The frames for the pages of the buffer lie side by side. -/
def Consecutive (m : Memory) (bytes : List Byte) (k : Nat) : Prop :=
  ∃ idx, ∀ i < maxElfPages, m.freeFrames[frameNo m.ptPool.length (loadedPages bytes) (k + i)]? = some (idx + i)

section Buffer

variable {m m' : Memory} {kern o : Word} {tag : Tags} {bytes : List Byte} {hlen : bytes.length < 2 ^ 63}
  {s s' : Scheduler} {priority pid : Nat}

/-- The address space of a process that has been spawned. -/
theorem placed_spawnElf (T : Tables m kern tag)
    (h : spawnElf m s kern (.ofBytes bytes hlen) priority = some (m', s', some pid)) {x : Pcb}
    (hx : s'.getProcess pid = some x) : ∃ m₂ tag', Placed m kern x.pageTableBase (loadedPages bytes) m₂ tag' ∧
      m' = (m₂.mergeKernelIntoUserPml4 kern x.pageTableBase).mapCrashLogPage x.pageTableBase := by
  unfold spawnElf at h
  split at h
  · cases h
  · cases h
  · rename_i m₁ loaded hload
    obtain ⟨tag₁, h₁⟩ := placed_load T hload
    split at h
    · cases h
    · rename_i m₂ frames hstack
      obtain ⟨tag₂, h₂⟩ := placed_mapStack h₁ hstack
      rw [← List.range_eq_range'] at h₂
      simp only at h
      split at h
      · cases h
      · cases h
      · rename_i s₁ p hadd
        cases h
        rcases spawn_records hadd hx with ⟨hne, -⟩ | ⟨-, -, hbase, -⟩
        · exact absurd rfl hne
        · rw [hbase]
          exact ⟨m₂, tag₂, h₂, rfl⟩

private theorem aligned_bufPage {buf : Word} (h : buf &&& 0xFFF#64 = 0) (i : Nat) : bufPage buf i &&& 0xFFF#64 = 0 := by
  have hlow : ∀ w : Word, w &&& 0xFFF#64 = 0 ↔ w.toNat % 4096 = 0 := by
    intro w
    rw [← BitVec.toNat_inj, BitVec.toNat_and, show (0xFFF#64).toNat = 2 ^ 12 - 1 from rfl, Nat.and_two_pow_sub_one_eq_mod]
    rfl
  rw [hlow] at h ⊢
  unfold bufPage
  rw [BitVec.toNat_add, BitVec.toNat_ofNat]
  omega

/-- Every page of the buffer lies in the frame that was next. -/
theorem translate_bufPage (T : Tables m kern tag)
    (h : spawnElf m s kern (.ofBytes bytes hlen) priority = some (m', s', some pid)) {x : Pcb}
    (hx : s'.getProcess pid = some x) {buf : Word} {k : Nat} (hbuf : HoldsBuffer bytes buf k) {i : Nat}
    (hi : i < maxElfPages) :
    ∃ idx, m.freeFrames[frameNo m.ptPool.length (loadedPages bytes) (k + i)]? = some idx ∧
      m'.translateAddress x.pageTableBase (bufPage buf i) = some (m.frameAddr idx) := by
  obtain ⟨m₂, tag₂, hplaced, rfl⟩ := placed_spawnElf T h hx
  have hpage : (loadedPages bytes)[k + i]? = some (bufPage buf i) := by
    have himage := hbuf.pages i hi
    unfold loadedPages
    rw [List.getElem?_append_left (List.getElem?_eq_some_iff.1 himage).1]
    exact himage
  obtain ⟨idx, hidx, htrans⟩ := hplaced.places hpage (hbuf.last i hi)
  refine ⟨idx, hidx, ?_⟩
  rw [aligned_bufPage hbuf.aligned i, show m.frameAddr idx ||| 0 = m.frameAddr idx from BitVec.or_zero] at htrans
  have hmerged := Memory.translateAddress_merge hplaced.tables hplaced.root htrans
  obtain ⟨tag₃, hb₃⟩ := hplaced.tables.mergeKernelIntoUserPml4 hplaced.ne_kern hplaced.root
  have hroot₃ := hb₃.grows.keeps hplaced.root
  obtain ⟨tag₄, hb₄⟩ := hb₃.tables.mapCrashLogPage hplaced.ne_kern hroot₃
  rw [Memory.translateAddress_eq, hb₄.resolves hroot₃ rfl fun q e hq hw => ?_, ← Memory.translateAddress_eq]
  · exact hmerged
  · rw [show q = pathOf crashLogPhys from hw.1, List.nil_append] at hq
    exact hbuf.not_crashLog i hi (hq.eq_of_length rfl)

/-- Side by side, `n` frames further on. -/
private theorem frameAddr_add (m : Memory) (idx n : Nat) :
    m.frameAddr (idx + n) = m.frameAddr idx + BitVec.ofNat 64 (n * 4096) := by
  unfold Memory.frameAddr pageSize
  rw [Nat.add_mul, ← Nat.add_assoc, BitVec.ofNat_add]

private theorem frameAddr_eq_add {idx idx' n : Nat} (hidx : idx < maxTrackedFrames) (hidx' : idx' < maxTrackedFrames)
    (hn : n < maxElfPages) (h : m.frameAddr idx' = m.frameAddr idx + BitVec.ofNat 64 (n * 4096)) : idx' = idx + n := by
  have hnat := congrArg BitVec.toNat h
  have hle := m.region.end_le
  rw [BitVec.toNat_add, BitVec.toNat_ofNat, m.toNat_frameAddr hidx', m.toNat_frameAddr hidx] at hnat
  unfold pageSize at hnat
  unfold maxTrackedFrames at hidx hidx'
  unfold maxElfPages at hn
  omega

/-- The loader has placed the shell: the exec server finds its buffer exactly if the frames that were next for the
pages of the buffer lay side by side. -/
theorem serverSees_iff (T : Tables m kern tag)
    (h : spawnElf m s kern (.ofBytes bytes hlen) priority = some (m', s', some pid)) {x : Pcb}
    (hx : s'.getProcess pid = some x) {buf : Word} {k : Nat} (hbuf : HoldsBuffer bytes buf k) :
    ServerSees m' x.pageTableBase buf ↔ Consecutive m bytes k := by
  have hpage := fun {i} hi => translate_bufPage T h hx hbuf (i := i) hi
  have hfirst : bufPage buf 0 = buf := by
    unfold bufPage
    rw [Nat.zero_mul]
    exact BitVec.add_zero buf
  obtain ⟨idx₀, hidx₀, htrans₀⟩ := hpage (i := 0) (by decide)
  rw [hfirst] at htrans₀
  have hlt : ∀ {j idx : Nat}, m.freeFrames[j]? = some idx → idx < maxTrackedFrames := fun hj =>
    Memory.lt_of_mem_freeFrames (List.mem_of_getElem? hj)
  constructor
  · rintro ⟨physBase, hbase, hall⟩
    rw [htrans₀] at hbase
    cases hbase
    have hne : m.frameAddr idx₀ ≠ 0 := m.frameAddr_ne_zero (hlt hidx₀)
    -- a file that fills the buffer
    have hframes : execFromPhys (m.frameAddr idx₀) execBufCap =
        some ((List.range maxElfPages).map fun i => m.frameAddr idx₀ + BitVec.ofNat 64 (i * 4096)) := by
      unfold execFromPhys
      rw [if_neg (not_or.2 ⟨by decide, hne⟩)]
      simp only
      rw [if_neg (by decide), show (execBufCap + 4095) / 4096 = maxElfPages from rfl]
    refine ⟨idx₀, fun i hi => ?_⟩
    obtain ⟨idx, hidx, htrans⟩ := hpage hi
    have hsees := hall execBufCap (Nat.le_refl _) _ hframes i _ (by
      rw [List.getElem?_map, List.getElem?_range hi]
      rfl)
    rw [htrans] at hsees
    rw [hidx, frameAddr_eq_add (hlt hidx₀) (hlt hidx) hi (Option.some.inj hsees)]
  · rintro ⟨idx, hall⟩
    have hidx := hall 0 (by decide)
    rw [hidx₀] at hidx
    cases hidx
    refine ⟨m.frameAddr idx, htrans₀, fun elfLen hle frames hframes i phys hi => ?_⟩
    unfold execFromPhys at hframes
    split at hframes
    · cases hframes
    · simp only at hframes
      split at hframes
      · cases hframes
      · rename_i hpages
        cases hframes
        rw [List.getElem?_map, Option.map_eq_some_iff] at hi
        obtain ⟨j, hj, rfl⟩ := hi
        obtain ⟨hlt', hget⟩ := List.getElem?_eq_some_iff.1 hj
        rw [List.getElem_range] at hget
        subst hget
        rw [List.length_range] at hlt'
        have hi : i < maxElfPages := by omega
        obtain ⟨idx', hidx', htrans⟩ := hpage hi
        rw [hall i hi] at hidx'
        cases hidx'
        rw [htrans, frameAddr_add]

end Buffer

/-! ### A small image with a buffer -/

/-- A page of code at `0x400000`, and a buffer of 128 pages behind it. -/
def bufferElf : List Byte :=
  [0x7f, 0x45, 0x4c, 0x46, 2, 1, 1, 0, 0, 0, 0, 0, 0, 0, 0, 0, 2, 0, 0x3e, 0, 1, 0, 0, 0, 0, 0, 0x40, 0, 0, 0, 0, 0,
   0x40, 0, 0, 0, 0, 0, 0, 0, 0, 0, 0, 0, 0, 0, 0, 0, 0, 0, 0, 0, 0x40, 0, 0x38, 0, 2, 0, 0, 0, 0, 0, 0, 0,
   1, 0, 0, 0, 5, 0, 0, 0, 0, 0, 0, 0, 0, 0, 0, 0, 0, 0, 0x40, 0, 0, 0, 0, 0, 0, 0, 0, 0, 0, 0, 0, 0,
   0, 0, 0, 0, 0, 0, 0, 0, 0, 0x10, 0, 0, 0, 0, 0, 0, 0, 0, 0, 0, 0, 0, 0, 0,
   1, 0, 0, 0, 6, 0, 0, 0, 0, 0, 0, 0, 0, 0, 0, 0, 0, 0x10, 0x40, 0, 0, 0, 0, 0, 0, 0, 0, 0, 0, 0, 0, 0,
   0, 0, 0, 0, 0, 0, 0, 0, 0, 0, 8, 0, 0, 0, 0, 0, 0, 0, 0, 0, 0, 0, 0, 0]

theorem length_bufferElf : bufferElf.length < 2 ^ 63 := by decide +kernel

/-- The small machine with the given frames free, and an empty pool. -/
def withFree (is : List Nat) : Memory :=
  ⟨heapRegion, is.foldl Lib.Bitmap.set Lib.Bitmap.empty, fun _ => .free, [], bothMapped.1.ram⟩

section Machine

variable {is : List Nat}

private theorem holdsBuffer_bufferElf : HoldsBuffer bufferElf 0x401000 1 := by
  have hpages : ∀ i < maxElfPages, (imagePages bufferElf)[1 + i]? = some (bufPage 0x401000 i) := by decide +kernel
  -- the pages are in ascending order
  have hchain : List.IsChain (· < ·) ((loadedPages bufferElf).map fun v => (pageNumber v).toNat) := by decide +kernel
  have hsorted := List.isChain_iff_pairwise.1 hchain
  refine ⟨by decide, hpages, fun i hi l v hl hv heq => ?_, by decide +kernel⟩
  have hpage : (loadedPages bufferElf)[1 + i]? = some (bufPage 0x401000 i) := by
    unfold loadedPages
    rw [List.getElem?_append_left (List.getElem?_eq_some_iff.1 (hpages i hi)).1, hpages i hi]
  obtain ⟨hlt, hget⟩ := List.getElem?_eq_some_iff.1 hv
  obtain ⟨hlt', hget'⟩ := List.getElem?_eq_some_iff.1 hpage
  have hless := List.pairwise_iff_getElem.1 hsorted (1 + i) l (by rw [List.length_map]; omega)
    (by rw [List.length_map]; omega) hl
  rw [List.getElem_map, List.getElem_map, hget, hget', pathOf_eq_iff.1 heq] at hless
  exact absurd hless (Nat.lt_irrefl _)

theorem freeFrames_withFree (hsorted : is.Pairwise (· < ·)) (his : ∀ i ∈ is, 512 ≤ i ∧ i < 765) :
    (withFree is).freeFrames = is := by
  refine Lib.Bitmap.bits_foldl_set hsorted fun i hi => ?_
  have := his i hi
  unfold maxTrackedFrames
  omega

theorem usable_withFree (hsorted : is.Pairwise (· < ·)) (his : ∀ i ∈ is, 512 ≤ i ∧ i < 765) : (withFree is).Usable := by
  intro idx hidx
  rw [freeFrames_withFree hsorted his] at hidx
  have hlt := (his idx hidx).2
  have hregion : (withFree is).region = heapRegion := rfl
  have hsize : heapRegion.size = 0x2FD000 := rfl
  rw [hregion, hsize]
  unfold pageSize
  omega

private theorem consumes_withFree {js : List Nat} (h : ∀ i ∈ is, i ∈ js) : Consumes (withFree js) (withFree is) := by
  refine ⟨rfl, fun i hi => ?_, List.suffix_refl _⟩
  have hmem := (Lib.Bitmap.test_foldl_set Lib.Bitmap.empty is i).1 hi
  exact (Lib.Bitmap.test_foldl_set Lib.Bitmap.empty js i).2 (hmem.imp_right (h i))

theorem tables_withFree (his : ∀ i ∈ is, 512 ≤ i ∧ i < 765) : ∃ tag, Tables (withFree is) 0x10000 tag := by
  obtain ⟨hcons, hram⟩ := consumes_heap (n := 253) (by decide)
  obtain ⟨tag, T, -⟩ := (@booted_machine (fun _ => True) trivial).tables
  have hsub : ∀ i ∈ is, i ∈ List.range' 512 253 := by
    intro i hi
    have := his i hi
    rw [List.mem_range'_1]
    omega
  refine ⟨tag, T.consume (hcons.trans (consumes_withFree hsub)) fun f t _ j => ?_⟩
  rw [hram]
  rfl

private theorem tablesOf_congr {v w : Word} (h : pml4Index v = pml4Index w ∧ pdptIndex v = pdptIndex w ∧ pdIndex v = pdIndex w) :
    tablesOf v = tablesOf w := by
  unfold tablesOf
  rw [h.1, h.2.1, h.2.2]

private theorem tablesOf_bufferElf {v : Word} (h : v ∈ imagePages bufferElf) : tablesOf v = tablesOf 0x400000 := by
  have hall : (imagePages bufferElf).all (fun v => decide (pml4Index v = pml4Index 0x400000 ∧
      pdptIndex v = pdptIndex 0x400000 ∧ pdIndex v = pdIndex 0x400000)) = true := by decide +kernel
  exact tablesOf_congr (of_decide_eq_true (List.all_eq_true.1 hall v h))

private theorem tablesOf_stackPages {v : Word} (h : v ∈ stackPages) : tablesOf v = tablesOf (userStackTop - 4096) := by
  have hall : stackPages.all (fun v => decide (pml4Index v = pml4Index (userStackTop - 4096) ∧
      pdptIndex v = pdptIndex (userStackTop - 4096) ∧ pdIndex v = pdIndex (userStackTop - 4096))) = true := by
    decide +kernel
  exact tablesOf_congr (of_decide_eq_true (List.all_eq_true.1 hall v h))

/-- The image becomes a process. -/
private theorem spawned_withFree {tag : Tags} (T : Tables (withFree is) 0x10000 tag) (hsorted : is.Pairwise (· < ·))
    (his : ∀ i ∈ is, 512 ≤ i ∧ i < 765) (hlen : 168 ≤ is.length) :
    ∃ m' s' pid x, spawnElf (withFree is) (Scheduler.new 0) 0x10000 (.ofBytes bufferElf length_bufferElf) 64 =
      some (m', s', some pid) ∧ s'.getProcess pid = some x := by
  have hfree := freeFrames_withFree hsorted his
  have haccepts : accepts bufferElf = true := by decide +kernel
  have hadd : ∀ o, ∃ s₁ pid, (Scheduler.new 0).addRing3Process o = some (s₁, some pid) := fun o => ⟨_, 1, rfl⟩
  refine exists_spawnElf T ⟨usable_withFree hsorted his, ?_⟩ haccepts hadd
  · -- the image needs three page tables, and so does the stack
    have hsub : tablesFor (loadedPages bufferElf) ⊆ tablesOf 0x400000 ∪ tablesOf (userStackTop - 4096) := by
      refine Finset.biUnion_subset.2 fun v hv => ?_
      rcases List.mem_append.1 (List.mem_toFinset.1 hv) with hv | hv
      · rw [tablesOf_bufferElf hv]
        exact Finset.subset_union_left
      · rw [tablesOf_stackPages hv]
        exact Finset.subset_union_right
    have hcard := Finset.card_le_card hsub
    have hsix : (tablesOf 0x400000 ∪ tablesOf (userStackTop - 4096)).card = 6 := by decide +kernel
    have hpages : (loadedPages bufferElf).length = 161 := by decide +kernel
    rw [hfree, hpages]
    omega

/-- The frame of page `i` of the buffer, with three page tables before it. -/
private theorem frameNo_bufferElf {i : Nat} (hi : i < maxElfPages) : frameNo 0 (loadedPages bufferElf) (1 + i) = 5 + i := by
  have htake : (loadedPages bufferElf).take (1 + i) = (imagePages bufferElf).take (1 + i) := by
    have hlen : (imagePages bufferElf).length = 129 := by decide +kernel
    unfold loadedPages
    rw [List.take_append_of_le_length (by rw [hlen]; unfold maxElfPages at hi; omega)]
  have hfirst : (imagePages bufferElf)[0]? = some 0x400000 := by decide +kernel
  have htables : tablesFor ((imagePages bufferElf).take (1 + i)) = tablesOf 0x400000 := by
    refine Finset.Subset.antisymm (Finset.biUnion_subset.2 fun v hv => ?_) ?_
    · rw [tablesOf_bufferElf (List.mem_of_mem_take (List.mem_toFinset.1 hv))]
    · refine Finset.subset_biUnion_of_mem tablesOf (List.mem_toFinset.2 ?_)
      refine List.mem_of_getElem? (i := 0) ?_
      rw [List.getElem?_take_of_lt (by omega), hfirst]
  have hthree : (tablesOf 0x400000).card = 3 := by decide +kernel
  unfold frameNo
  rw [htake, htables, hthree]
  omega

/-- Without a gap between the free frames, the server finds the buffer. -/
theorem serverSees_iff_bufferElf : ∃ tag m' s' pid x, Tables (withFree (List.range' 512 253)) 0x10000 tag ∧
    spawnElf (withFree (List.range' 512 253)) (Scheduler.new 0) 0x10000 (.ofBytes bufferElf length_bufferElf) 64 =
      some (m', s', some pid) ∧ s'.getProcess pid = some x ∧ HoldsBuffer bufferElf 0x401000 1 ∧
    ServerSees m' x.pageTableBase 0x401000 := by
  have his : ∀ i ∈ List.range' 512 253, 512 ≤ i ∧ i < 765 := fun i hi => List.mem_range'_1.1 hi
  obtain ⟨tag, T⟩ := tables_withFree his
  obtain ⟨m', s', pid, x, hspawn, hx⟩ := spawned_withFree T (List.pairwise_lt_range' 1) his
    (by rw [List.length_range']; omega)
  refine ⟨tag, m', s', pid, x, T, hspawn, hx, holdsBuffer_bufferElf,
    (serverSees_iff T hspawn hx holdsBuffer_bufferElf).2 ⟨517, fun i hi => ?_⟩⟩
  rw [freeFrames_withFree (List.pairwise_lt_range' 1) his,
    show (withFree (List.range' 512 253)).ptPool.length = 0 from rfl, frameNo_bufferElf hi]
  unfold maxElfPages at hi
  rw [List.getElem?_range' (by omega)]
  exact congrArg some (by omega)

/-- The frames that another process has given back end before the second page of the buffer. -/
theorem server_sees_stranger : ∃ tag m' s' pid x, Tables (withFree (List.range' 512 6 ++ List.range' 519 246)) 0x10000 tag ∧
    spawnElf (withFree (List.range' 512 6 ++ List.range' 519 246)) (Scheduler.new 0) 0x10000
      (.ofBytes bufferElf length_bufferElf) 64 = some (m', s', some pid) ∧ s'.getProcess pid = some x ∧
    HoldsBuffer bufferElf 0x401000 1 ∧ ¬ ServerSees m' x.pageTableBase 0x401000 := by
  have his : ∀ i ∈ List.range' 512 6 ++ List.range' 519 246, 512 ≤ i ∧ i < 765 := by
    intro i hi
    rw [List.mem_append, List.mem_range'_1, List.mem_range'_1] at hi
    omega
  have hsorted : (List.range' 512 6 ++ List.range' 519 246).Pairwise (· < ·) := by
    refine List.pairwise_append.2 ⟨List.pairwise_lt_range' 1, List.pairwise_lt_range' 1, fun i hi j hj => ?_⟩
    rw [List.mem_range'_1] at hi hj
    omega
  obtain ⟨tag, T⟩ := tables_withFree his
  obtain ⟨m', s', pid, x, hspawn, hx⟩ := spawned_withFree T hsorted his
    (by rw [List.length_append, List.length_range', List.length_range']; omega)
  refine ⟨tag, m', s', pid, x, T, hspawn, hx, holdsBuffer_bufferElf, ?_⟩
  have hfree := freeFrames_withFree hsorted his
  have hpage : ∀ i < maxElfPages, ∀ idx, (List.range' 512 6 ++ List.range' 519 246)[5 + i]? = some idx →
      m'.translateAddress x.pageTableBase (bufPage 0x401000 i) =
        some ((withFree (List.range' 512 6 ++ List.range' 519 246)).frameAddr idx) := by
    intro i hi idx hidx
    obtain ⟨idx', hidx', htrans⟩ := translate_bufPage T hspawn hx holdsBuffer_bufferElf hi
    rw [hfree, show (withFree (List.range' 512 6 ++ List.range' 519 246)).ptPool.length = 0 from rfl,
      frameNo_bufferElf hi, hidx] at hidx'
    cases hidx'
    exact htrans
  have h₀ : m'.translateAddress x.pageTableBase 0x401000 = some 0x308000 := hpage 0 (by decide) 517 (by decide)
  have h₁ : m'.translateAddress x.pageTableBase (bufPage 0x401000 1) = some 0x30A000 := hpage 1 (by decide) 519 (by decide)
  rintro ⟨physBase, hbase, hall⟩
  rw [h₀] at hbase
  cases hbase
  -- a file of two pages
  have hsees := hall 8192 (by decide) [0x308000, 0x309000] (by decide) 1 0x309000 rfl
  rw [h₁] at hsees
  exact absurd hsees (by decide)

end Machine

end Elf

end Rost
