import Rost.Memory.Leaves
import Rost.Memory.Regions
import Rost.Memory.Supply

/-!
# The tables after the memory map

The loop over the memory map writes three kinds of entries into the kernel's tables: none, links to tables, and 2 MB
pages that are present and writable (`BootEntry`).  So its tables are those of `KernTree`, and every page that they map
can be written and executed by the supervisor, and by nobody else (`unprotected_rights`).  The pool of frames for
further tables is full afterwards, if the heap has that many frames (`unprotected_pool`).
-/

namespace Rost

open Lib (Bitmap)
open Lib.TableTree (Layout)

namespace Memory

/-- An entry as the boot code writes it. -/
structure BootEntry (e : Word) : Prop where
  opens : e ≠ 0 → Unrestricted e
  user : e &&& pteUser = 0
  aligned : e &&& pteHugePage ≠ 0 → e &&& pteSubPageMask = 0

/-- The flags of the memory map. -/
def kernelFlags : Word := ptePresent ||| pteWritable

theorem bootEntry_zero : BootEntry 0 := ⟨fun h => absurd rfl h, by decide, fun h => absurd (by decide) h⟩

theorem bootEntry_link {c : Word} (hc : IsTableAddr c) : BootEntry (c &&& pteAddrMask ||| ptePresent ||| pteWritable) :=
  ⟨fun _ => (bootLink_opens c).1, (bootLink_opens c).2, fun h => absurd (pointsTo_boot hc).plain h⟩

theorem bootEntry_huge (addr : Word) : BootEntry (addr &&& pteHugeAddrMask ||| kernelFlags ||| pteHugePage) := by
  refine ⟨fun _ => ⟨?_, ?_⟩, ?_, fun _ => ?_⟩ <;>
  · rw [masked_and (by decide)]
    decide

/-- The tables during the loop over the memory map. -/
structure BootTree (m : Memory) (alloc : PhysicalAllocator) (kern : Word) (tag : Tags) : Prop where
  booting : Booting m alloc kern tag
  entries : ∀ {f p} (j : Fin 512), tag f = some (kern, p) → BootEntry (m.ram f j)

section Loop

variable {m m' : Memory} {alloc alloc' : PhysicalAllocator} {kern : Word} {tag : Tags}

/-- The table behind an entry that is no 2 MB page. -/
theorem BootTree.ensureTable (B : BootTree m alloc kern tag) {f : Word} {p : List (Fin 512)} {i : Fin 512}
    (hf : tag f = some (kern, p)) (hp : p.length < 2) {r : Option Word}
    (h : m.ensureTable alloc f i = (m', alloc', r)) :
    ∃ tag', BootTree m' alloc' kern tag' ∧ ∀ c, r = some c → tag' c = some (kern, p ++ [i]) := by
  obtain ⟨tag', B', hb, -, hnew, hc⟩ := B.booting.ensureTable kernelFlags hf (by omega) (by omega) h
  unfold Memory.ensureTable allocTable PhysicalAllocator.allocate at h
  simp only at h
  by_cases habsent : m.ram f i &&& ptePresent = 0
  · rw [if_pos habsent] at h
    by_cases hfull : alloc.heapRemaining < (4096 + 4095) / 4096 * 4096
    · rw [if_pos hfull] at h
      cases h
      exact ⟨tag, B, fun c hc => by cases hc⟩
    · rw [if_neg hfull] at h
      simp only [Prod.mk.injEq] at h
      obtain ⟨rfl, rfl, rfl⟩ := h
      have haligned := B.booting.aligned
      have hend := B.booting.end_le
      have hto : (BitVec.ofNat 64 alloc.heapStart).toNat = alloc.heapStart := by
        rw [BitVec.toNat_ofNat]
        omega
      have haddr : IsTableAddr (BitVec.ofNat 64 alloc.heapStart) :=
        isTableAddr_of_toNat (by rw [hto]; exact haligned) (by rw [hto]; omega)
      have hlink := hc _ rfl
      rw [(pointsTo_boot haddr).addr] at hlink
      refine ⟨tag', ⟨B', fun {g q} j hg => ?_⟩, hc⟩
      rw [writeEntry_ram]
      split
      · exact bootEntry_link haddr
      · rw [zeroFrame_ram]
        split
        · exact bootEntry_zero
        · rename_i hne
          rcases hnew g _ hg with hold | heq
          · exact B.entries j hold
          · -- the only new table is the frame that has been zeroed
            rw [heq] at hg
            exact absurd (B'.tables.layout.tag_inj hg hlink) hne
  · rw [if_neg habsent] at h
    cases h
    refine ⟨tag, B, fun c hc => ?_⟩
    cases hc
    exact B.booting.tables.kern_child hf (decode_upper habsent (by omega))

/-- One round of the loop. -/
theorem BootTree.identityMapPage (B : BootTree m alloc kern tag) (addr : Word) {ok : Bool}
    (h : Memory.identityMapPage kern kernelFlags addr (m, alloc) = ((m', alloc'), ok)) :
    ∃ tag', BootTree m' alloc' kern tag' := by
  unfold Memory.identityMapPage at h
  simp only at h
  split at h
  · rename_i m₁ alloc₁ h₁
    cases h
    obtain ⟨tag₁, B₁, -⟩ := B.ensureTable B.booting.tables.layout.kern_root (by decide) h₁
    exact ⟨tag₁, B₁⟩
  · rename_i m₁ alloc₁ pdpt h₁
    obtain ⟨tag₁, B₁, hpdpt⟩ := B.ensureTable B.booting.tables.layout.kern_root (by decide) h₁
    split at h
    · rename_i m₂ alloc₂ h₂
      cases h
      obtain ⟨tag₂, B₂, -⟩ := B₁.ensureTable (hpdpt pdpt rfl) (by simp) h₂
      exact ⟨tag₂, B₂⟩
    · rename_i m₂ alloc₂ pd h₂
      obtain ⟨tag₂, B₂, hpd⟩ := B₁.ensureTable (hpdpt pdpt rfl) (by simp) h₂
      split at h
      · rename_i habsent
        cases h
        have hb := B₂.booting.writeHuge kernelFlags addr (hpd pd rfl) habsent
        refine ⟨tag₂, B₂.booting.builds hb, fun j hf => ?_⟩
        rw [writeEntry_ram]
        split
        · exact bootEntry_huge addr
        · exact B₂.entries j hf
      · cases h
        exact ⟨tag₂, B₂⟩

theorem BootTree.identityMapLoop (B : BootTree m alloc kern tag) (count : Nat) (addr : Word) :
    ∃ tag', BootTree (Memory.identityMapLoop kern kernelFlags count addr (m, alloc)).1
      (Memory.identityMapLoop kern kernelFlags count addr (m, alloc)).2 kern tag' := by
  induction count generalizing m alloc tag addr with
  | zero => exact ⟨tag, B⟩
  | succ count ih =>
    rw [identityMapLoop_succ]
    rcases hpage : Memory.identityMapPage kern kernelFlags addr (m, alloc) with ⟨⟨m₁, alloc₁⟩, ok⟩
    obtain ⟨tag₁, B₁⟩ := B.identityMapPage addr hpage
    cases ok with
    | false => exact ⟨tag₁, B₁⟩
    | true => exact ih B₁ (addr + hugePageSize)

theorem Mapped.bootTree (h : Mapped (· = kernelFlags) kern m alloc) : ∃ tag, BootTree m alloc kern tag := by
  induction h with
  | start h =>
    refine ⟨_, h.booting, fun {f p} j hf => ?_⟩
    rw [(bootTag_eq_some hf).1, h.zero j]
    exact bootEntry_zero
  | region h physBase size flags hflags ih =>
    obtain ⟨tag, B⟩ := ih
    obtain rfl := hflags
    exact B.identityMapLoop _ _

end Loop

/-! ### The tables before they are protected -/

section Start

variable {m : Memory} {alloc : PhysicalAllocator} {kern : Word} {region : AllocRegion}

/-- The memory in which the kernel protects itself: the memory map has been mapped, and the global allocators have been
set up on what is left of the heap. -/
def unprotected (m : Memory) (region : AllocRegion) : Memory := ((m.initGlobalAllocator region).poolInit ptPoolCap).1

theorem unprotected_ram (m : Memory) (region : AllocRegion) : (m.unprotected region).ram = m.ram :=
  ((m.initGlobalAllocator region).poolInit_bitmap ptPoolCap).2.1

theorem unprotected_kernTree (h : Mapped (· = kernelFlags) kern m alloc) (hbase : region.base = alloc.currentBase)
    (hsize : region.size = alloc.heapRemaining - 0x100000) :
    ∃ tag, KernTree (m.unprotected region) kern tag ∧ ∀ {e}, InTables (m.unprotected region) kern tag e → BootEntry e := by
  obtain ⟨tag, B⟩ := h.bootTree
  obtain ⟨T, -⟩ := (B.booting.initGlobalAllocator hbase (by omega)).poolInit B.booting.no_pool ptPoolCap
  have hentries : ∀ {f p} (j : Fin 512), tag f = some (kern, p) → BootEntry ((m.unprotected region).ram f j) := by
    intro f p j hf
    rw [unprotected_ram]
    exact B.entries j hf
  refine ⟨tag, ⟨T, fun f p j hf _ _ hhuge => (hentries j hf).aligned hhuge, fun j hf => (hentries j hf).user,
    fun j hf hlink => ?_⟩, fun ⟨f, p, j, hf, he⟩ => he ▸ hentries j hf⟩
  refine (hentries j hf).opens fun hzero => ?_
  have hpresent := (decode_eq_table hlink).1
  rw [hzero] at hpresent
  exact hpresent (by decide)

/-- Every page that is mapped is open to the supervisor. -/
theorem unprotected_rights (h : Mapped (· = kernelFlags) kern m alloc) (hbase : region.base = alloc.currentBase)
    (hsize : region.size = alloc.heapRemaining - 0x100000) (v : Word) :
    (m.unprotected region).rights kern v =
      ((m.unprotected region).translateAddress kern v).map fun _ => ⟨false, true, false⟩ := by
  obtain ⟨tag, K, hentries⟩ := unprotected_kernTree h hbase hsize
  rw [K.rights, K.translateAddress]
  cases hleaf : (m.unprotected region).leaf kern v with
  | none => rfl
  | some e =>
    obtain ⟨e', hin, hpresent, hfrom⟩ := K.leaf_inTables hleaf
    have hopens : Unrestricted e' := (hentries hin).opens fun hzero => by
      rw [hzero] at hpresent
      exact hpresent (by decide)
    have hsame : leafRights e = leafRights e' := by
      unfold leafRights
      rcases hfrom with rfl | ⟨j, rfl⟩
      · rfl
      · rw [splitEntry_flag (Or.inr (Or.inr (Or.inl rfl))), splitEntry_flag (Or.inr (Or.inr (Or.inr rfl)))]
    show some (leafRights e) = some _
    rw [hsame]
    unfold leafRights
    rw [decide_eq_true hopens.1, decide_eq_false fun hne => hne hopens.2]

/-- The pool gets as many frames as it asks for, if they are free. -/
theorem poolFill_length {count : Nat} {filled : List Word} (hu : m.Usable) (hroom : count ≤ m.freeFrames.length) :
    (Memory.poolFill count m filled).2.length = filled.length + count := by
  induction count generalizing m filled with
  | zero => rfl
  | succ count ih =>
    obtain ⟨m₁, p, halloc⟩ := globalAlloc4k_of_free hu fun hnil => by
      rw [hnil] at hroom
      simp at hroom
    obtain ⟨idx, -, hfree, -, hregion⟩ := freeFrames_of_globalAlloc4k halloc
    rw [hfree, List.length_cons] at hroom
    have hu₁ : m₁.Usable := fun i hi => by
      rw [hregion]
      exact hu i (by rw [hfree]; exact List.mem_cons_of_mem _ hi)
    unfold Memory.poolFill
    rw [halloc]
    refine (ih hu₁ (by omega)).trans ?_
    rw [List.length_cons]
    omega

theorem unprotected_pool (m : Memory) (h : ptPoolCap ≤ region.size / pageSize) :
    (m.unprotected region).ptPool.length = ptPoolCap := by
  have hmem : ∀ {idx}, idx ∈ (m.initGlobalAllocator region).freeFrames → idx < region.size / pageSize :=
    fun hidx => initGlobalAllocator_isFree (Bitmap.mem_bits.1 hidx).2
  have hu : (m.initGlobalAllocator region).Usable := by
    intro idx hidx
    have hlt := hmem hidx
    show region.base + idx * pageSize < region.base + region.size
    unfold pageSize at *
    omega
  have hroom : ptPoolCap ≤ (m.initGlobalAllocator region).freeFrames.length := by
    have hsub : List.range ptPoolCap ⊆ (m.initGlobalAllocator region).freeFrames := by
      intro idx hidx
      have hlt := List.mem_range.1 hidx
      have htracked : idx < maxTrackedFrames := Nat.lt_trans hlt (by decide)
      exact Bitmap.mem_bits.2 ⟨htracked, initGlobalAllocator_isFree_of_lt (by omega) htracked⟩
    have hle := (List.subperm_of_subset List.nodup_range hsub).length_le
    rwa [List.length_range] at hle
  exact (poolFill_length hu hroom).trans (Nat.zero_add _)

end Start

end Memory

end Rost
