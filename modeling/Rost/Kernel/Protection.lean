import Rost.Kernel.PeCoff
import Rost.Kernel.Spaces
import Rost.Memory.BootTree

/-!
# The kernel protects itself

Before the kernel switches to its own page tables it unmaps the guard page below every kernel stack, and gives the pages
of its own image the flags of their sections.  Both work on single pages of 4 KB, so 2 MB pages are split first; what is
not mapped, or cannot be split, is skipped without a word.
-/

namespace Rost

open Acpi (Readable)
open PeCoff (SectionInfo KernelSections parseKernelSections)

/-! ### The boot code -/

/-- The address of the guard page below the stack of slot `stackId`. -/
def KernelStacks.guardAddr (k : KernelStacks) (stackId : Nat) : Option Nat :=
  if maxKernelStacks ≤ stackId then none else some (k.base + stackId * kernelSlotSize)

namespace Memory

/-- The loop over the stacks `ids`, with the number of guard pages that have been installed. -/
def installGuards (pml4 : Word) (pool : KernelStacks) : List Nat → Memory × Nat → Memory × Nat
  | [], s => s
  | id :: ids, (m, installed) =>
    match pool.guardAddr id with
    | none => (m, installed)
    | some guardAddr =>
      let guardAddr := BitVec.ofNat 64 guardAddr
      match m.splitHugePageGlobal pml4 guardAddr with
      | (m, false) => installGuards pml4 pool ids (m, installed)
      | (m, true) =>
        match m.unmapPage pml4 guardAddr with
        | (m, true) => installGuards pml4 pool ids (m.frameTag guardAddr .guard, installed + 1)
        | (m, false) => installGuards pml4 pool ids (m, installed)

def installKernelStackGuardPages (m : Memory) (pml4 : Word) (pool : KernelStacks) : Memory × Nat :=
  installGuards pml4 pool (List.range maxKernelStacks) (m, 0)

/-- A loop `while addr < stop` that advances by `step`. -/
def whileBelow (step stop : Word) (body : Memory → Word → Memory) : Nat → Word → Memory → Memory
  | 0, _, m => m
  | fuel + 1, addr, m =>
    if addr < stop then whileBelow step stop body fuel (addr + step) (body m addr) else m

/-- The range of a section, rounded outward to pages of 4 KB. -/
def pageRange (base size : Word) : Word × Word :=
  (base &&& ~~~(0x1000 - 1), (BitVec.ofNat 64 (saturatingAdd base.toNat size.toNat) + 0x1000 - 1) &&& ~~~(0x1000 - 1))

def applySectionFlags (m : Memory) (pml4 base size flags : Word) : Memory :=
  let (start, stop) := pageRange base size
  if stop ≤ start then m
  else
    let splitStart := start &&& ~~~(hugePageSize - 1)
    let splitEnd := (stop + hugePageSize - 1) &&& ~~~(hugePageSize - 1)
    let m := whileBelow hugePageSize splitEnd (fun m addr => (m.splitHugePageGlobal pml4 addr).1) splitEnd.toNat
      splitStart m
    whileBelow 0x1000 stop (fun m addr => (m.remapPageFlags pml4 addr flags).1) stop.toNat start m

/-- Give the section its flags, if the image has it. -/
def applySection (m : Memory) (pml4 : Word) (s : Option SectionInfo) (flags : Word) : Memory :=
  match s with
  | none => m
  | some s => m.applySectionFlags pml4 s.virtAddr s.size flags

def rwNx : Word := ptePresent ||| pteWritable ||| pteNoExecute

/-- `none` if the headers of the image cannot be read. -/
def remapKernelSections (m : Memory) (mem : Readable) (pml4 imageBase : Word) : Option Memory :=
  if imageBase = 0 then some m
  else
    (parseKernelSections mem imageBase).map fun sections =>
      let m := m.applySection pml4 sections.text ptePresent
      let m := m.applySection pml4 sections.rodata (ptePresent ||| pteNoExecute)
      let m := m.applySection pml4 sections.data rwNx
      m.applySection pml4 sections.bss rwNx

/-! ### Loops over addresses -/

/-- `n` addresses from `start` on. -/
def addresses (step start : Word) (n : Nat) : List Word :=
  (List.range n).map fun i => start + BitVec.ofNat 64 (i * step.toNat)

theorem addresses_succ (step start : Word) (n : Nat) :
    addresses step start (n + 1) = start :: addresses step (start + step) n := by
  unfold addresses
  rw [List.range_succ_eq_map, List.map_cons, List.map_map]
  refine congrArg₂ List.cons (by simp) (List.map_congr_left fun i _ => ?_)
  apply BitVec.eq_of_toNat_eq
  simp only [Function.comp_apply, BitVec.toNat_add, BitVec.toNat_ofNat, Nat.succ_eq_add_one, Nat.add_mul, Nat.one_mul]
  omega

/-- The loop visits the addresses below its end. -/
theorem whileBelow_eq {step stop start : Word} {body : Memory → Word → Memory} {n fuel : Nat} (hstep : 0 < step.toNat)
    (hstop : stop.toNat = start.toNat + n * step.toNat) (hfuel : n ≤ fuel) (m : Memory) :
    whileBelow step stop body fuel start m = (addresses step start n).foldl body m := by
  induction n generalizing start fuel m with
  | zero =>
    have hend : ¬ start < stop := by
      rw [BitVec.lt_def]
      omega
    cases fuel with
    | zero => rfl
    | succ fuel => exact if_neg hend
  | succ n ih =>
    obtain ⟨fuel, rfl⟩ : ∃ f, fuel = f + 1 := ⟨fuel - 1, by omega⟩
    rw [Nat.add_mul, Nat.one_mul] at hstop
    have hlt := stop.isLt
    have hbelow : start < stop := by
      rw [BitVec.lt_def]
      omega
    have hnext : (start + step).toNat = start.toNat + step.toNat := by
      rw [BitVec.toNat_add]
      omega
    rw [addresses_succ, List.foldl_cons]
    refine (if_pos hbelow).trans (ih ?_ (by omega) _)
    rw [hnext]
    omega

end Memory

/-! ### The pages of a section -/

namespace PeCoff.SectionInfo

/-- The section ends in the part of the memory that the tables can map to itself. -/
def Fits (s : SectionInfo) : Prop := s.virtAddr.toNat + s.size.toNat ≤ 2 ^ 48

/-- A byte of the section, or of the rest of its first or last page, lies on the page of `v`. -/
def Touches (s : SectionInfo) (v : Word) : Prop :=
  s.virtAddr.toNat / 4096 ≤ (pageNumber v).toNat ∧ (pageNumber v).toNat * 4096 < s.virtAddr.toNat + s.size.toNat

instance (s : SectionInfo) (v : Word) : Decidable (s.Touches v) := inferInstanceAs (Decidable (_ ∧ _))

/-- The number of pages of 4 KB, and of 2 MB, that the section touches. -/
def pageCount (s : SectionInfo) : Nat := (s.virtAddr.toNat + s.size.toNat + 4095) / 4096 - s.virtAddr.toNat / 4096

def hugeCount (s : SectionInfo) : Nat :=
  ((s.virtAddr.toNat + s.size.toNat + 4095) / 4096 * 4096 + (2 ^ 21 - 1)) / 2 ^ 21 - s.virtAddr.toNat / 2 ^ 21

end PeCoff.SectionInfo

namespace PeCoff

/-- The image has the section, and it touches the page of `v`. -/
def Covers : Option SectionInfo → Word → Prop
  | none, _ => False
  | some s, v => s.Touches v

instance : (s : Option SectionInfo) → DecidablePred (Covers s)
  | none, _ => inferInstanceAs (Decidable False)
  | some s, v => inferInstanceAs (Decidable (s.Touches v))

/-- The number of 2 MB pages that are split for a section. -/
def splits : Option SectionInfo → Nat
  | none => 0
  | some s => s.hugeCount

namespace KernelSections

def splits (k : KernelSections) : Nat :=
  PeCoff.splits k.text + PeCoff.splits k.rodata + PeCoff.splits k.data + PeCoff.splits k.bss

/-- What the sections allow on the page of `v`: where they share a page, data goes before read-only data, and that
before code. -/
def rightsAt (k : KernelSections) (v : Word) : Rights :=
  if Covers k.bss v ∨ Covers k.data v then ⟨false, true, true⟩
  else if Covers k.rodata v then ⟨false, false, true⟩
  else if Covers k.text v then ⟨false, false, false⟩
  else ⟨false, true, false⟩

end KernelSections

theorem fits_of_parse {mem : Readable} {imageBase : Word} {sections : KernelSections} {n : SectionName} {s : SectionInfo}
    (himage : imageBase.toNat + 2 ^ 33 ≤ 2 ^ 48) (hparse : parseKernelSections mem imageBase = some sections)
    (hs : sections.get n = some s) : s.Fits := by
  obtain ⟨rva, vsize, rfl⟩ := parseKernelSections_in hparse n s hs
  have hva := rva.isLt
  have hvs := vsize.isLt
  unfold SectionInfo.Fits
  simp only [BitVec.toNat_add, BitVec.toNat_setWidth]
  omega

end PeCoff

namespace Memory

/-! ### Loops over the tree -/

section Loops

variable {m : Memory} {kern v : Word} {tag : Tags}

theorem sameHuge_of_page {a : Word} (h : pageNumber v = pageNumber a) : SameHuge a v := by
  have hpath := pathOf_eq_iff.2 h
  simp only [pathOf, List.cons.injEq] at hpath
  exact ⟨hpath.1, hpath.2.1, hpath.2.2.1⟩

theorem Small.same_page {a : Word} (h : pageNumber v = pageNumber a) : m.Small kern v ↔ m.Small kern a :=
  (SameHuge.small (sameHuge_of_page h)).symm

theorem pageEntry_pageEntry {flags : Word} (hflags : flags &&& pteAddrMask = 0) (e : Word) :
    pageEntry (pageEntry e flags) flags = pageEntry e flags := by
  have haddr : pageEntry e flags &&& pteAddrMask = e &&& pteAddrMask := pageEntry_and hflags e
  show pageEntry e flags &&& pteAddrMask ||| flags &&& ~~~pteHugePage = _
  rw [haddr]
  rfl

/-- The pages `pages` that can be changed get the flags. -/
private theorem foldl_remap {flags : Word} (hpresent : flags &&& ptePresent ≠ 0) (huser : flags &&& pteUser = 0)
    (haddr : flags &&& pteAddrMask = 0) (K : KernTree m kern tag) (pages : List Word) :
    KernLeaves (fun t v => if (∃ a ∈ pages, pageNumber v = pageNumber a) ∧ m.Small kern v
        then (t v).map (pageEntry · flags) else t v) kern m
      (pages.foldl (fun m a => (m.remapPageFlags kern a flags).1) m) tag tag := by
  induction pages generalizing m with
  | nil =>
    refine (KernLeaves.refl K).congr fun v => ?_
    rw [if_neg fun h => by obtain ⟨⟨a, ha, -⟩, -⟩ := h; cases ha]
    rfl
  | cons a pages ih =>
    rw [List.foldl_cons]
    by_cases hsmall : m.Small kern a
    · have h₁ := K.remapPageFlags hpresent huser hsmall
      refine (h₁.trans (ih h₁.tree)).congr fun v => ?_
      have hsame : (m.remapPageFlags kern a flags).1.Small kern v ↔ m.Small kern v := K.tables.small_iff h₁.tree.tables
      simp only [Function.comp_apply, reflagged, hsame, List.mem_cons, exists_eq_or_imp]
      by_cases hpage : pageNumber v = pageNumber a
      · have hv : m.Small kern v := (Small.same_page hpage).2 hsmall
        simp only [hpage, true_or, hv, and_true, if_true]
        split
        · rw [Option.map_map]
          exact congrArg (fun g => Option.map g (m.leaf kern v)) (funext fun e => pageEntry_pageEntry haddr e)
        · rfl
      · simp only [hpage, false_or, if_false]
    · rw [KernTree.remapPageFlags_large hsmall]
      refine (ih K).congr fun v => ?_
      simp only [List.mem_cons, exists_eq_or_imp]
      by_cases hpage : pageNumber v = pageNumber a
      · have hv : ¬ m.Small kern v := fun h => hsmall ((Small.same_page hpage).1 h)
        simp only [hv, and_false, if_false]
      · simp only [hpage, false_or]

private theorem foldl_remap_pool (pages : List Word) (kern flags : Word) (m : Memory) :
    (pages.foldl (fun m a => (m.remapPageFlags kern a flags).1) m).ptPool = m.ptPool := by
  induction pages generalizing m with
  | nil => rfl
  | cons a pages ih =>
    rw [List.foldl_cons, ih]
    unfold Memory.remapPageFlags
    split
    · rfl
    · simp only
      split <;> rfl

/-- An allocation takes one frame of the pool at most, and fails only if the pool is empty. -/
theorem allocPtFrame_pool (m : Memory) : m.ptPool.length ≤ m.allocPtFrame.1.ptPool.length + 1 ∧
    (m.allocPtFrame.2 = none → m.ptPool = []) := by
  unfold allocPtFrame poolAllocPt
  cases hpool : m.ptPool with
  | nil => exact ⟨Nat.zero_le _, fun _ => rfl⟩
  | cons p rest => exact ⟨Nat.le_refl _, nofun⟩

theorem splitHugePageGlobal_pool (m : Memory) (kern virt : Word) :
    m.ptPool.length ≤ (m.splitHugePageGlobal kern virt).1.ptPool.length + 1 := by
  have hpool := m.allocPtFrame_pool.1
  unfold Memory.splitHugePageGlobal
  split
  · exact Nat.le_succ _
  · simp only
    split
    · exact Nat.le_succ _
    · split
      · exact Nat.le_succ _
      · split
        · rename_i halloc
          rw [halloc] at hpool
          exact hpool
        · rename_i halloc
          rw [halloc] at hpool
          exact hpool

/-- One split, with a frame in the pool. -/
private theorem split_pooled (K : KernTree m kern tag) (a : Word) (hpool : m.ptPool ≠ []) :
    ∃ tag', KernLeaves id kern m (m.splitHugePageGlobal kern a).1 tag tag' ∧
      ((m.splitHugePageGlobal kern a).2 = true ∧ (m.splitHugePageGlobal kern a).1.Small kern a ∨
        (m.splitHugePageGlobal kern a).2 = false ∧ ∀ v, SameHuge a v → m.leaf kern v = none) := by
  obtain ⟨tag', h, hdone, hfail⟩ := K.splitHugePageGlobal a
  refine ⟨tag', h, ?_⟩
  cases hok : (m.splitHugePageGlobal kern a).2 with
  | true => exact Or.inl ⟨rfl, hdone hok⟩
  | false =>
    rcases hfail hok with hnone | halloc
    · exact Or.inr ⟨rfl, hnone⟩
    · exact absurd (m.allocPtFrame_pool.2 halloc) hpool

/-- As long as the pool suffices, all that is mapped around the addresses can be changed page by page afterwards. -/
private theorem foldl_split (K : KernTree m kern tag) {as : List Word} (hpool : as.length ≤ m.ptPool.length) :
    ∃ tag' m', as.foldl (fun m a => (m.splitHugePageGlobal kern a).1) m = m' ∧ KernLeaves id kern m m' tag tag' ∧
      (∀ a ∈ as, m'.Small kern a ∨ ∀ v, SameHuge a v → m.leaf kern v = none) ∧
      m.ptPool.length ≤ m'.ptPool.length + as.length := by
  induction as generalizing m tag with
  | nil => exact ⟨tag, m, rfl, .refl K, nofun, Nat.le_refl _⟩
  | cons a as ih =>
    rw [List.length_cons] at hpool
    have hone := m.splitHugePageGlobal_pool kern a
    obtain ⟨tag₁, h₁, hsplit⟩ := split_pooled K a (by rintro hnil; rw [hnil] at hpool; simp at hpool)
    obtain ⟨tag₂, m₂, heq, h₂, hall, hrest⟩ := ih h₁.tree (by omega)
    rw [List.length_cons]
    refine ⟨tag₂, m₂, heq, h₁.trans h₂, fun b hb => ?_, by omega⟩
    rcases List.mem_cons.1 hb with rfl | hb
    · rcases hsplit with ⟨-, hsmall⟩ | ⟨-, hnone⟩
      · exact Or.inl (h₂.small h₁.tree hsmall)
      · exact Or.inr hnone
    · rcases hall b hb with hsmall | hnone
      · exact Or.inl hsmall
      · refine Or.inr fun v hv => ?_
        have hleaf := hnone v hv
        rw [h₁.leaf] at hleaf
        exact hleaf

end Loops

/-! ### The sections of the image -/

theorem mem_addresses {step start a : Word} {n : Nat} :
    a ∈ addresses step start n ↔ ∃ i < n, a = start + BitVec.ofNat 64 (i * step.toNat) := by
  unfold addresses
  simp only [List.mem_map, List.mem_range, eq_comm]

section Sections

variable {m : Memory} {kern v flags start : Word} {tag : Tags} {s : SectionInfo}

theorem toNat_page_start (w : Word) : (w &&& ~~~(0x1000 - 1)).toNat = w.toNat / 2 ^ 12 * 2 ^ 12 :=
  toNat_and_mask (by decide) w

theorem pageRange_stop (hfits : s.Fits) :
    (pageRange s.virtAddr s.size).2.toNat = (s.virtAddr.toNat + s.size.toNat + 4095) / 4096 * 4096 := by
  unfold PeCoff.SectionInfo.Fits at hfits
  have hsat : saturatingAdd s.virtAddr.toNat s.size.toNat = s.virtAddr.toNat + s.size.toNat := by
    unfold saturatingAdd u64Max
    omega
  refine (toNat_page_start _).trans ?_
  rw [hsat, BitVec.toNat_sub, BitVec.toNat_add, BitVec.toNat_ofNat]
  have h1 : (1 : Word).toNat = 1 := rfl
  have h2 : (0x1000 : Word).toNat = 4096 := rfl
  rw [h1, h2]
  omega

/-- The pages that are remapped are those that the section touches. -/
theorem touches_iff (hfits : s.Fits) (hstart : start.toNat = s.virtAddr.toNat / 4096 * 4096) :
    (∃ a ∈ addresses 0x1000 start s.pageCount, pageNumber v = pageNumber a) ↔ s.Touches v := by
  unfold PeCoff.SectionInfo.Fits at hfits
  unfold PeCoff.SectionInfo.Touches PeCoff.SectionInfo.pageCount
  simp only [mem_addresses, ← BitVec.toNat_inj, toNat_pageNumber]
  have hstep : (0x1000 : Word).toNat = 4096 := rfl
  constructor
  · rintro ⟨a, ⟨i, hi, ha⟩, hv⟩
    rw [BitVec.toNat_add, BitVec.toNat_ofNat, hstart, hstep] at ha
    omega
  · rintro ⟨hlow, hhigh⟩
    refine ⟨start + BitVec.ofNat 64 ((v.toNat / 4096 % 2 ^ 36 - s.virtAddr.toNat / 4096) * 4096),
      ⟨_, ?_, by rw [hstep]⟩, ?_⟩
    · omega
    · rw [BitVec.toNat_add, BitVec.toNat_ofNat, hstart]
      omega

/-- The areas of 2 MB that are split cover the section. -/
theorem touches_sameHuge (hfits : s.Fits) (hstart : start.toNat = s.virtAddr.toNat / 2 ^ 21 * 2 ^ 21) (hv : s.Touches v) :
    ∃ a ∈ addresses hugePageSize start s.hugeCount, SameHuge a v := by
  unfold PeCoff.SectionInfo.Fits at hfits
  obtain ⟨hlow, hhigh⟩ := hv
  rw [toNat_pageNumber] at hlow hhigh
  have hstep : hugePageSize.toNat = 2 ^ 21 := rfl
  obtain ⟨a, ha⟩ : ∃ a, a = start + BitVec.ofNat 64 ((v.toNat / 2 ^ 21 % 2 ^ 27 - s.virtAddr.toNat / 2 ^ 21) * 2 ^ 21) :=
    ⟨_, rfl⟩
  have hnumber : a.toNat / 2 ^ 21 = v.toNat / 2 ^ 21 % 2 ^ 27 := by
    rw [ha, BitVec.toNat_add, BitVec.toNat_ofNat, hstart]
    omega
  refine ⟨a, mem_addresses.2 ⟨_, ?_, by rw [ha, hstep]⟩, ?_⟩
  · unfold PeCoff.SectionInfo.hugeCount
    omega
  · unfold SameHuge pml4Index pdptIndex pdIndex
    simp only [Fin.ext_iff, toNat_low9]
    omega

/-- The pages in `P` get the flags. -/
def flaggedOn (P : Word → Prop) [DecidablePred P] (flags : Word) (t : Word → Option Word) : Word → Option Word := fun v =>
  if P v then (t v).map (pageEntry · flags) else t v

theorem KernTree.applySectionFlags (K : KernTree m kern tag) (hpresent : flags &&& ptePresent ≠ 0)
    (huser : flags &&& pteUser = 0) (haddr : flags &&& pteAddrMask = 0) (hfits : s.Fits)
    (hpool : s.hugeCount ≤ m.ptPool.length) :
    ∃ tag', KernLeaves (flaggedOn s.Touches flags) kern m (m.applySectionFlags kern s.virtAddr s.size flags) tag tag' ∧
      m.ptPool.length ≤ (m.applySectionFlags kern s.virtAddr s.size flags).ptPool.length + s.hugeCount := by
  have hstart : (pageRange s.virtAddr s.size).1.toNat = s.virtAddr.toNat / 4096 * 4096 := toNat_page_start s.virtAddr
  have hstop := pageRange_stop hfits
  have hbound := hfits
  unfold PeCoff.SectionInfo.Fits at hbound
  unfold Memory.applySectionFlags
  generalize pageRange s.virtAddr s.size = range at hstart hstop
  obtain ⟨start, stop⟩ := range
  simp only at hstart hstop ⊢
  split
  · rename_i hempty
    rw [BitVec.le_def, hstart, hstop] at hempty
    refine ⟨tag, (KernLeaves.refl K).congr fun v => ?_, Nat.le_add_right _ _⟩
    have hnot : ¬ s.Touches v := by
      rintro ⟨hlow, hhigh⟩
      omega
    exact (if_neg hnot).symm
  · have hsplitStart : (start &&& ~~~(hugePageSize - 1)).toNat = s.virtAddr.toNat / 2 ^ 21 * 2 ^ 21 := by
      rw [toNat_mask, hstart]
      omega
    have hsplitEnd : ((stop + hugePageSize - 1) &&& ~~~(hugePageSize - 1)).toNat =
        (start &&& ~~~(hugePageSize - 1)).toNat + s.hugeCount * 2 ^ 21 := by
      have h1 : (1 : Word).toNat = 1 := rfl
      have h2 : hugePageSize.toNat = 2 ^ 21 := rfl
      rw [toNat_mask, hsplitStart, BitVec.toNat_sub, BitVec.toNat_add, h1, h2, hstop]
      unfold PeCoff.SectionInfo.hugeCount
      omega
    generalize start &&& ~~~(hugePageSize - 1) = first at hsplitStart hsplitEnd ⊢
    generalize (stop + hugePageSize - 1) &&& ~~~(hugePageSize - 1) = last at hsplitEnd ⊢
    have hpageEnd : stop.toNat = start.toNat + s.pageCount * 4096 := by
      rw [hstart, hstop]
      unfold PeCoff.SectionInfo.pageCount
      omega
    have hsplitFuel : s.hugeCount ≤ last.toNat := by omega
    have hpageFuel : s.pageCount ≤ stop.toNat := by omega
    rw [whileBelow_eq (by decide) hsplitEnd hsplitFuel, whileBelow_eq (by decide) hpageEnd hpageFuel]
    have hlength : (addresses hugePageSize first s.hugeCount).length = s.hugeCount := by
      unfold addresses
      rw [List.length_map, List.length_range]
    obtain ⟨tag₁, m₁, heq, h₁, hall, hrest⟩ := foldl_split K (Nat.le_trans (Nat.le_of_eq hlength) hpool)
    rw [hlength] at hrest
    rw [heq]
    have h₂ := foldl_remap hpresent huser haddr h₁.tree (addresses 0x1000 start s.pageCount)
    refine ⟨tag₁, (h₁.trans h₂).congr fun v => ?_, ?_⟩
    · simp only [Function.comp_apply, id_eq, touches_iff hfits hstart, flaggedOn]
      by_cases hv : s.Touches v
      · rw [if_pos hv]
        by_cases hsmall : m₁.Small kern v
        · rw [if_pos ⟨hv, hsmall⟩]
        · -- what could not be split is not mapped
          rw [if_neg fun h => hsmall h.2]
          obtain ⟨a, ha, hsame⟩ := touches_sameHuge hfits hsplitStart hv
          rcases hall a ha with hsmall' | hnone
          · exact absurd ((SameHuge.small hsame).1 hsmall') hsmall
          · rw [hnone v hsame]
            rfl
      · rw [if_neg hv, if_neg fun h => hv h.1]
    · rw [foldl_remap_pool]
      exact hrest

/-! ### The guard pages -/

/-- What the allocators note about a frame does not matter to the tables. -/
private theorem kernLeaves_frameTag (K : KernTree m kern tag) (p : Word) (k : FrameKind) :
    KernLeaves id kern m (m.frameTag p k) tag tag := by
  have hram := m.frameTag_ram p k
  have hlinks : (m.frameTag p k).links = m.links := by
    unfold links
    rw [hram]
  refine ⟨⟨K.tables.consume (.frameTag m p k) fun f t _ j => by rw [hram], ?_, ?_, ?_⟩, .refl kern tag, .frameTag m p k, ?_⟩
  · unfold Aligned
    rw [hram]
    exact K.aligned
  · unfold Supervisor
    rw [hram]
    exact K.supervisor
  · rw [hlinks, hram]
    exact K.opens
  · unfold leaf
    rw [hlinks]
    rfl

theorem unmapPage_pool (m : Memory) (kern virt : Word) : (m.unmapPage kern virt).1.ptPool = m.ptPool := by
  unfold Memory.unmapPage
  split <;> rfl

/-- The page of `v` is the guard page of one of the stacks. -/
def guards (pool : KernelStacks) (ids : List Nat) (v : Word) : Prop :=
  ∃ id ∈ ids, pageNumber v = pageNumber (BitVec.ofNat 64 (pool.base + id * kernelSlotSize))

instance (pool : KernelStacks) (ids : List Nat) (v : Word) : Decidable (guards pool ids v) :=
  inferInstanceAs (Decidable (∃ id ∈ ids, _))

/-- The guard pages are taken away. -/
def guarded (pool : KernelStacks) (ids : List Nat) (t : Word → Option Word) : Word → Option Word := fun v =>
  if guards pool ids v then none else t v

/-- One round of the loop takes one page away; if its 2 MB cannot be split, then nothing has been mapped there. -/
private theorem installGuards_cons (K : KernTree m kern tag) (hpool : m.ptPool ≠ []) (pool : KernelStacks) {id : Nat}
    (hid : id < maxKernelStacks) (ids : List Nat) (n : Nat) : ∃ tag' m' n',
    KernLeaves (without (BitVec.ofNat 64 (pool.base + id * kernelSlotSize))) kern m m' tag tag' ∧
      m.ptPool.length ≤ m'.ptPool.length + 1 ∧
      installGuards kern pool (id :: ids) (m, n) = installGuards kern pool ids (m', n') := by
  have haddr : pool.guardAddr id = some (pool.base + id * kernelSlotSize) := if_neg (Nat.not_le.2 hid)
  obtain ⟨g, hg⟩ : ∃ g, g = BitVec.ofNat 64 (pool.base + id * kernelSlotSize) := ⟨_, rfl⟩
  have hone := m.splitHugePageGlobal_pool kern g
  obtain ⟨tag₁, h₁, hsplit⟩ := split_pooled K g hpool
  simp only [installGuards, haddr, ← hg]
  rcases hs : m.splitHugePageGlobal kern g with ⟨m₁, ok⟩
  rw [hs] at h₁ hsplit hone
  rcases hsplit with ⟨rfl, hsmall⟩ | ⟨rfl, hnone⟩
  · obtain ⟨hok, h₂⟩ := h₁.tree.unmapPage hsmall
    have hun := m₁.unmapPage_pool kern g
    rcases hu : m₁.unmapPage kern g with ⟨m₂, ok⟩
    rw [hu] at hok h₂ hun
    obtain rfl : ok = true := hok
    refine ⟨tag₁, m₂.frameTag g .guard, n + 1, (h₁.trans h₂).trans (kernLeaves_frameTag h₂.tree g .guard), ?_, ?_⟩
    · rw [frameTag_ptPool, hun]
      exact hone
    · simp only [hu]
  · refine ⟨tag₁, m₁, n, h₁.congr fun v => ?_, hone, rfl⟩
    unfold without
    split
    · rename_i hv
      exact hnone v (sameHuge_of_page hv)
    · rfl

/-- The loop takes the guard pages away, and nothing else. -/
theorem KernTree.installGuards (K : KernTree m kern tag) (pool : KernelStacks) {ids : List Nat}
    (hids : ∀ id ∈ ids, id < maxKernelStacks) (hpool : ids.length ≤ m.ptPool.length) (n : Nat) :
    ∃ tag', KernLeaves (guarded pool ids) kern m (Memory.installGuards kern pool ids (m, n)).1 tag tag' ∧
      m.ptPool.length ≤ (Memory.installGuards kern pool ids (m, n)).1.ptPool.length + ids.length := by
  induction ids generalizing m tag n with
  | nil => exact ⟨tag, (KernLeaves.refl K).congr fun v => (if_neg fun ⟨id, hid, _⟩ => by cases hid).symm, Nat.le_refl _⟩
  | cons id ids ih =>
    rw [List.length_cons] at hpool
    obtain ⟨tag₁, m₁, n₁, h₁, hone, heq⟩ := installGuards_cons K (by rintro hnil; rw [hnil] at hpool; simp at hpool)
      pool (hids id List.mem_cons_self) ids n
    obtain ⟨tag₂, h₂, hrest⟩ := ih h₁.tree (fun i hi => hids i (List.mem_cons_of_mem _ hi)) (by omega) n₁
    rw [heq, List.length_cons]
    refine ⟨tag₂, (h₁.trans h₂).congr fun v => ?_, by omega⟩
    simp only [Function.comp_apply, guarded, without, guards, List.mem_cons, exists_eq_or_imp]
    by_cases hids : ∃ id ∈ ids, pageNumber v = pageNumber (BitVec.ofNat 64 (pool.base + id * kernelSlotSize))
    · simp only [hids, or_true, if_true]
    · simp only [hids, or_false, if_false]

end Sections

/-! ### The kernel after boot -/

/-- The two steps of `efi_main`. -/
def protectKernel (m : Memory) (mem : Readable) (pml4 : Word) (pool : KernelStacks) (imageBase : Word) : Option Memory :=
  (m.installKernelStackGuardPages pml4 pool).1.remapKernelSections mem pml4 imageBase

section Boot

variable {m : Memory} {kern : Word} {tag : Tags}

theorem KernTree.applySection (K : KernTree m kern tag) (s : Option SectionInfo) (flags : Word)
    (hpresent : flags &&& ptePresent ≠ 0) (huser : flags &&& pteUser = 0) (haddr : flags &&& pteAddrMask = 0)
    (hfits : ∀ i, s = some i → i.Fits) (hpool : PeCoff.splits s ≤ m.ptPool.length) :
    ∃ tag', KernLeaves (flaggedOn (PeCoff.Covers s) flags) kern m (m.applySection kern s flags) tag tag' ∧
      m.ptPool.length ≤ (m.applySection kern s flags).ptPool.length + PeCoff.splits s := by
  cases s with
  | none => exact ⟨tag, (KernLeaves.refl K).congr fun v => (if_neg fun h => h).symm, Nat.le_refl _⟩
  | some i => exact K.applySectionFlags hpresent huser haddr (hfits i rfl) hpool

/-- What a page with these flags allows. -/
theorem leafRights_pageEntry (e flags : Word) : leafRights (pageEntry e flags) =
    ⟨false, decide (flags &&& pteWritable ≠ 0), decide (flags &&& pteNoExecute ≠ 0)⟩ := by
  have hbit : ∀ {bit : Word}, pteAddrMask &&& bit = 0 → ~~~pteHugePage &&& bit = bit →
      pageEntry e flags &&& bit = flags &&& bit := by
    intro bit haddr hhuge
    unfold pageEntry
    simp only [or_and, BitVec.and_assoc, haddr, hhuge]
    simp
  unfold leafRights
  rw [hbit (by decide) (by decide), hbit (by decide) (by decide)]

theorem map_leafRights_flaggedOn (P : Word → Prop) [DecidablePred P] (flags : Word) (t : Word → Option Word) (v : Word) :
    (flaggedOn P flags t v).map leafRights =
      if P v then (t v).map fun _ => ⟨false, decide (flags &&& pteWritable ≠ 0), decide (flags &&& pteNoExecute ≠ 0)⟩
      else (t v).map leafRights := by
  unfold flaggedOn
  split
  · rw [Option.map_map]
    exact congrArg (fun g => Option.map g (t v)) (funext fun e => leafRights_pageEntry e flags)
  · rfl

theorem map_addr_flaggedOn (P : Word → Prop) [DecidablePred P] {flags : Word} (haddr : flags &&& pteAddrMask = 0)
    (t : Word → Option Word) (v w : Word) :
    (flaggedOn P flags t v).map (fun e => e &&& pteAddrMask ||| w) = (t v).map fun e => e &&& pteAddrMask ||| w := by
  unfold flaggedOn
  split
  · rw [Option.map_map]
    refine congrArg (fun g => Option.map g (t v)) (funext fun e => ?_)
    rw [Function.comp_apply, pageEntry_and haddr]
  · rfl

/-- The leaves after the sections have got their flags. -/
private theorem remapKernelSections_leaves (K : KernTree m kern tag) {mem : Readable} {imageBase : Word}
    {sections : KernelSections} (himage : imageBase.toNat + 2 ^ 33 ≤ 2 ^ 48)
    (hparse : parseKernelSections mem imageBase = some sections) (hpool : sections.splits ≤ m.ptPool.length) :
    ∃ m' tag', m.remapKernelSections mem kern imageBase = some m' ∧
      KernLeaves (flaggedOn (PeCoff.Covers sections.bss) rwNx ∘ flaggedOn (PeCoff.Covers sections.data) rwNx ∘
        flaggedOn (PeCoff.Covers sections.rodata) (ptePresent ||| pteNoExecute) ∘
        flaggedOn (PeCoff.Covers sections.text) ptePresent) kern m m' tag tag' := by
  unfold PeCoff.KernelSections.splits at hpool
  have hfits : ∀ (n : PeCoff.SectionName) i, sections.get n = some i → i.Fits :=
    fun n i hi => PeCoff.fits_of_parse himage hparse hi
  obtain ⟨tag₁, h₁, hrest₁⟩ := K.applySection sections.text ptePresent (by decide) (by decide) (by decide)
    (hfits .text) (by omega)
  obtain ⟨tag₂, h₂, hrest₂⟩ := h₁.tree.applySection sections.rodata (ptePresent ||| pteNoExecute)
    (by decide) (by decide) (by decide) (hfits .rdata) (by omega)
  obtain ⟨tag₃, h₃, hrest₃⟩ := h₂.tree.applySection sections.data rwNx (by decide) (by decide) (by decide)
    (hfits .data) (by omega)
  obtain ⟨tag₄, h₄, -⟩ := h₃.tree.applySection sections.bss rwNx (by decide) (by decide) (by decide)
    (hfits .bss) (by omega)
  refine ⟨_, tag₄, ?_, h₁.trans (h₂.trans (h₃.trans h₄))⟩
  unfold Memory.remapKernelSections
  split
  · rename_i hzero
    -- without an address there are no sections
    subst hzero
    cases hparse
    rfl
  · rw [hparse]
    rfl

private theorem rightsAt_eq (k : KernelSections) (t : Word → Option Word) (v : Word)
    (ht : (t v).map leafRights = (t v).map fun _ => ⟨false, true, false⟩) :
    ((flaggedOn (PeCoff.Covers k.bss) rwNx ∘ flaggedOn (PeCoff.Covers k.data) rwNx ∘
        flaggedOn (PeCoff.Covers k.rodata) (ptePresent ||| pteNoExecute) ∘
        flaggedOn (PeCoff.Covers k.text) ptePresent) t v).map leafRights = (t v).map fun _ => k.rightsAt v := by
  have hsome : ∀ (P : Word → Prop) [DecidablePred P] (flags : Word) (t : Word → Option Word) (r : Rights),
      (flaggedOn P flags t v).map (fun _ => r) = (t v).map fun _ => r := by
    intro P _ flags t r
    unfold flaggedOn
    split
    · exact Option.map_map ..
    · rfl
  simp only [Function.comp_apply, map_leafRights_flaggedOn, hsome, ht]
  unfold PeCoff.KernelSections.rightsAt
  by_cases hbss : PeCoff.Covers k.bss v
  · simp only [hbss, true_or, if_true]
    rfl
  by_cases hdata : PeCoff.Covers k.data v
  · simp only [hbss, hdata, or_true, if_false, if_true]
    rfl
  by_cases hrodata : PeCoff.Covers k.rodata v
  · simp only [hbss, hdata, hrodata, or_self, if_false, if_true]
    rfl
  by_cases htext : PeCoff.Covers k.text v
  · simp only [hbss, hdata, hrodata, htext, or_self, if_false, if_true]
    rfl
  · simp only [hbss, hdata, hrodata, htext, or_self, if_false]

/-- After boot no guard page is mapped, every page of the image has the rights of its section, and all other pages are as
they were, provided the heap fills the pool and the pool suffices for the pages that are split. -/
theorem protectKernel_spec {alloc : PhysicalAllocator} {region : AllocRegion} (h : Mapped (· = kernelFlags) kern m alloc)
    (hbase : region.base = alloc.currentBase) (hsize : region.size = alloc.heapRemaining - 0x100000)
    (hframes : ptPoolCap ≤ region.size / pageSize) {mem : Readable} {imageBase : Word} {sections : KernelSections}
    (himage : imageBase.toNat + 2 ^ 33 ≤ 2 ^ 48) (hparse : parseKernelSections mem imageBase = some sections)
    (hsplits : maxKernelStacks + sections.splits ≤ ptPoolCap) (pool : KernelStacks) :
    ∃ m', (m.unprotected region).protectKernel mem kern pool imageBase = some m' ∧ ∀ v,
      m'.translateAddress kern v = (if guards pool (List.range maxKernelStacks) v then none
        else (m.unprotected region).translateAddress kern v) ∧
      m'.rights kern v = if guards pool (List.range maxKernelStacks) v then none
        else ((m.unprotected region).translateAddress kern v).map fun _ => sections.rightsAt v := by
  obtain ⟨tag, K, -⟩ := unprotected_kernTree h hbase hsize
  have hpool := m.unprotected_pool hframes
  have hlen : (List.range maxKernelStacks).length = maxKernelStacks := List.length_range
  obtain ⟨tag₁, h₁, hrest⟩ := K.installGuards pool (fun id => List.mem_range.1) (by rw [hlen]; omega) 0
  rw [hlen] at hrest
  obtain ⟨m', tag₂, hremap, h₂⟩ := remapKernelSections_leaves h₁.tree himage hparse
    (Nat.le_of_add_le_add_right (Nat.le_trans (by omega) hrest))
  refine ⟨m', hremap, fun v => ?_⟩
  have hleaf := congrFun (h₁.trans h₂).leaf v
  rw [Function.comp_apply] at hleaf
  have hopen := unprotected_rights h hbase hsize v
  rw [K.rights, K.translateAddress, Option.map_map] at hopen
  refine ⟨?_, ?_⟩
  · rw [h₂.tree.translateAddress, hleaf]
    simp only [Function.comp_apply]
    rw [map_addr_flaggedOn _ (by decide), map_addr_flaggedOn _ (by decide), map_addr_flaggedOn _ (by decide),
      map_addr_flaggedOn _ (by decide), K.translateAddress]
    unfold guarded
    split <;> rfl
  · rw [h₂.tree.rights, hleaf, rightsAt_eq]
    · rw [K.translateAddress, Option.map_map]
      unfold guarded
      split <;> rfl
    · unfold guarded
      split
      · rfl
      · exact hopen

/-- The headers of an image at `0x1000`, with an optional header of 2 bytes and two sections. -/
def smallImage : Readable := fun a =>
  let bytes := [0x4D, 0x5A] ++ List.replicate 58 0 ++ leBytes 4 0x40 ++ leBytes 4 PeCoff.peSignature.toNat ++
    leBytes 2 PeCoff.machineAmd64.toNat ++ leBytes 2 2 ++ List.replicate 12 0 ++ leBytes 2 2 ++ [0, 0] ++
    leBytes 2 PeCoff.pe32PlusMagic.toNat ++
    PeCoff.SectionName.text.ascii ++ [0x24, 0x6D, 0x6E] ++ leBytes 4 0x234 ++ leBytes 4 0x1000 ++ List.replicate 24 0 ++
    PeCoff.SectionName.data.ascii ++ [0, 0, 0] ++ leBytes 4 0x10 ++ leBytes 4 0x2000 ++ List.replicate 24 0
  if a < 0x1000 then none else bytes[a - 0x1000]?

/-- The image on the small machine, with the stacks at 2 MB. -/
theorem protectKernel_small : ∃ m', (bothMapped.1.unprotected heapRegion).protectKernel smallImage 0x10000
    ⟨0x200000, 0, []⟩ 0x1000 = some m' ∧ ∀ v,
      m'.translateAddress 0x10000 v = (if guards ⟨0x200000, 0, []⟩ (List.range maxKernelStacks) v then none
        else (bothMapped.1.unprotected heapRegion).translateAddress 0x10000 v) ∧
      m'.rights 0x10000 v = if guards ⟨0x200000, 0, []⟩ (List.range maxKernelStacks) v then none
        else ((bothMapped.1.unprotected heapRegion).translateAddress 0x10000 v).map fun _ =>
          KernelSections.rightsAt ⟨some ⟨0x2000, 0x234⟩, none, some ⟨0x3000, 0x10⟩, none⟩ v :=
  protectKernel_spec (mapped_both rfl) (by decide +kernel) (by decide +kernel) (by decide) (by decide) (by decide +kernel)
    (by decide) _

end Boot

end Memory

end Rost
