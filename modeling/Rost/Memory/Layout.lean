import Rost.Memory.Paging
import Rost.Lib.TableTree

/-!
# The page tables as trees

The page tables in memory form trees of tables, one for each PML4: `translate_address` resolves the path of an address
(`translateAddress_eq`).  User PML4s share the tables of the kernel, in the slots that `merge_kernel_into_user_pml4`
copies (`Shareable`).  `Tables` is the layout of all the trees with what the allocators need to keep it: page tables
are neither free nor in the pool.

Every function that builds page tables keeps the layout.  `alloc_fn` and `map_page_global` change the tables of one
PML4 only, and the translation of one page, as long as their way down does not lead into a shared table (`Owned`).
-/

namespace Rost

open Lib (Link Heap)
open Lib.TableTree (resolve descend Layout)
open Lib.TableTree.Layout (setTag)

/-! ### Entries -/

/-- What an entry of a table means on level `l` (0 for a PT, 3 for a PML4). -/
def decode (l : Nat) (e : Word) : Link Word Word :=
  if e &&& ptePresent = 0 then .none
  else if l = 0 ∨ (l = 1 ∧ e &&& pteHugePage ≠ 0) then .leaf e
  else .table (e &&& pteAddrMask)

/-- The entry points to the table `c`. -/
structure PointsTo (e c : Word) : Prop where
  present : e &&& ptePresent ≠ 0
  plain : e &&& pteHugePage = 0
  addr : e &&& pteAddrMask = c

/-- The address of a page table: page-aligned, at most 52 bits. -/
def IsTableAddr (f : Word) : Prop := f &&& pteAddrMask = f

theorem isTableAddr_of_toNat {p : Word} (haligned : p.toNat % 4096 = 0) (hlt : p.toNat < 2 ^ 52) :
    IsTableAddr p := by
  have hmask : ∀ i : Fin 64, pteAddrMask.getLsbD i = decide (12 ≤ i.val ∧ i.val < 52) := by decide
  refine BitVec.eq_of_getLsbD_eq fun i hi => ?_
  rw [BitVec.getLsbD_and, hmask ⟨i, hi⟩]
  by_cases hlow : i < 12
  · have hbit : p.getLsbD i = false := by
      have hmod : (p.toNat % 2 ^ 12).testBit i = p.toNat.testBit i := by
        rw [Nat.testBit_mod_two_pow]
        simp [hlow]
      rw [show p.toNat % 2 ^ 12 = 0 from haligned, Nat.zero_testBit] at hmod
      exact hmod.symm
    rw [hbit, Bool.false_and]
  · by_cases hhigh : i < 52
    · simp [hhigh, Nat.le_of_not_lt hlow]
    · have hbit : p.getLsbD i = false := by
        refine Nat.testBit_lt_two_pow (Nat.lt_of_lt_of_le hlt ?_)
        exact Nat.pow_le_pow_right (by decide) (Nat.le_of_not_lt hhigh)
      rw [hbit, Bool.false_and]

theorem IsTableAddr.toNat_mod {p : Word} (h : IsTableAddr p) : p.toNat % 4096 = 0 := by
  have hmask : ∀ i : Fin 64, i.val < 12 → pteAddrMask.getLsbD i = false := by decide
  refine Nat.eq_of_testBit_eq fun i => ?_
  rw [show (4096 : Nat) = 2 ^ 12 from rfl, Nat.testBit_mod_two_pow, Nat.zero_testBit]
  by_cases hi : i < 12
  · have hbit : (p &&& pteAddrMask).getLsbD i = false := by
      rw [BitVec.getLsbD_and, hmask ⟨i, by omega⟩ hi, Bool.and_false]
    rw [h] at hbit
    rw [show p.toNat.testBit i = p.getLsbD i from rfl, hbit, Bool.and_false]
  · simp [hi]

theorem IsTableAddr.toNat_lt {p : Word} (h : IsTableAddr p) : p.toNat < 2 ^ 52 := by
  have hand : (p &&& pteAddrMask).toNat ≤ pteAddrMask.toNat := by
    rw [BitVec.toNat_and]
    exact Nat.and_le_right
  rw [h] at hand
  exact Nat.lt_of_le_of_lt hand (by decide)

/-- The bytes of a page lie in its frame. -/
theorem IsTableAddr.frameOf_add {p : Word} (h : IsTableAddr p) {x : Nat} (hx : x < 4096) :
    Memory.frameOf (p + BitVec.ofNat 64 x) = p := by
  have hmask : ∀ i : Fin 64, (~~~0xFFF#64).getLsbD i = decide (12 ≤ i.val) := by decide
  have hmod := h.toNat_mod
  have hto : (p + BitVec.ofNat 64 x).toNat = p.toNat + x := by
    have hlt := h.toNat_lt
    rw [BitVec.toNat_add, BitVec.toNat_ofNat]
    omega
  unfold Memory.frameOf
  refine BitVec.eq_of_getLsbD_eq fun i hi => ?_
  rw [BitVec.getLsbD_and, hmask ⟨i, hi⟩]
  by_cases hlow : 12 ≤ i
  · have hbit : ∀ n : Nat, n.testBit i = (n / 2 ^ 12).testBit (i - 12) := by
      intro n
      rw [Nat.testBit_div_two_pow, Nat.sub_add_cancel hlow]
    have hdiv : (p.toNat + x) / 2 ^ 12 = p.toNat / 2 ^ 12 := by omega
    rw [show (p + BitVec.ofNat 64 x).getLsbD i = (p + BitVec.ofNat 64 x).toNat.testBit i from rfl, hto, hbit, hdiv, ← hbit,
      decide_eq_true hlow, Bool.and_true]
    rfl
  · have hbit : p.getLsbD i = false := by
      have hlow' : (p.toNat % 2 ^ 12).testBit i = p.toNat.testBit i := by
        rw [Nat.testBit_mod_two_pow]
        simp [Nat.lt_of_not_le hlow]
      rw [show p.toNat % 2 ^ 12 = 0 from hmod, Nat.zero_testBit] at hlow'
      exact hlow'.symm
    simp [hlow, hbit]

theorem or_and (a b c : Word) : (a ||| b) &&& c = a &&& c ||| b &&& c := by
  rw [BitVec.and_comm, BitVec.and_or_distrib_left, BitVec.and_comm c a, BitVec.and_comm c b]

private theorem zero_or (a : Word) : 0 ||| a = a := BitVec.zero_or

private theorem or_zero (a : Word) : a ||| 0 = a := BitVec.or_zero

private theorem and_and_eq_zero {a b c : Word} (h : b &&& c = 0) : (a &&& b) &&& c = 0 := by
  rw [BitVec.and_assoc, h]
  exact BitVec.and_zero

/-- The flags of an entry that points to a table. -/
private theorem pointsTo_flags {p flags : Word} (hp : IsTableAddr p) (hpresent : flags &&& ptePresent = ptePresent)
    (hplain : flags &&& pteHugePage = 0) (haddr : flags &&& pteAddrMask = 0) : PointsTo (p ||| flags) p := by
  have hbits : ∀ {c}, pteAddrMask &&& c = 0 → p &&& c = 0 := by
    intro c hc
    rw [← hp]
    exact and_and_eq_zero hc
  refine ⟨?_, ?_, ?_⟩
  · rw [or_and, hbits (by decide), hpresent, zero_or]
    decide
  · rw [or_and, hbits (by decide), hplain, zero_or]
  · rw [or_and, hp, haddr, or_zero]

theorem pointsTo_boot {p : Word} (hp : IsTableAddr p) : PointsTo (p &&& pteAddrMask ||| ptePresent ||| pteWritable) p := by
  rw [hp, BitVec.or_assoc]
  exact pointsTo_flags hp (by decide) (by decide) (by decide)

theorem pointsTo_allocFn {p flags : Word} (hp : IsTableAddr p) :
    PointsTo (p &&& pteAddrMask ||| ptePresent ||| pteWritable ||| flags &&& pteUser) p := by
  rw [hp, BitVec.or_assoc, BitVec.or_assoc]
  refine pointsTo_flags hp ?_ ?_ ?_
  · rw [or_and, or_and, and_and_eq_zero (by decide), or_zero]
    decide
  · rw [or_and, or_and, and_and_eq_zero (by decide), or_zero]
    decide
  · rw [or_and, or_and, and_and_eq_zero (by decide), or_zero]
    decide

theorem pointsTo_ensureFirst {p : Word} (hp : IsTableAddr p) :
    PointsTo (p ||| ptePresent ||| pteWritable ||| pteUser) p := by
  rw [BitVec.or_assoc, BitVec.or_assoc]
  exact pointsTo_flags hp (by decide) (by decide) (by decide)

/-- Opening an entry to user mode leaves the rest of it alone. -/
theorem or_pteUser_and {e c : Word} (hc : pteUser &&& c = 0) : (e ||| pteUser) &&& c = e &&& c := by
  rw [or_and, hc, or_zero]

theorem decode_of_pointsTo {e c : Word} {l : Nat} (h : PointsTo e c) (hl : l ≠ 0) : decode l e = .table c := by
  unfold decode
  rw [if_neg h.present, if_neg, h.addr]
  rintro (h0 | ⟨-, hhuge⟩)
  · exact hl h0
  · exact hhuge h.plain

theorem decode_absent {e : Word} (h : e &&& ptePresent = 0) (l : Nat) : decode l e = .none := by
  unfold decode
  rw [if_pos h]

theorem decode_zero (l : Nat) : decode l 0 = .none := decode_absent (by decide) l

theorem decode_eq_none {e : Word} {l : Nat} : decode l e = .none ↔ e &&& ptePresent = 0 := by
  unfold decode
  split
  · rename_i h
    exact iff_of_true rfl h
  · rename_i h
    refine iff_of_false ?_ h
    split <;> exact fun hn => by cases hn

/-- Above the page directories every present entry points to a table. -/
theorem decode_upper {e : Word} {l : Nat} (h : e &&& ptePresent ≠ 0) (hl : 2 ≤ l) :
    decode l e = .table (e &&& pteAddrMask) := by
  unfold decode
  rw [if_neg h, if_neg (by omega)]

theorem decode_small {e : Word} {l : Nat} (h : e &&& ptePresent ≠ 0) (hplain : e &&& pteHugePage = 0) (hl : l ≠ 0) :
    decode l e = .table (e &&& pteAddrMask) := by
  unfold decode
  rw [if_neg h, if_neg (by simp [hl, hplain])]

theorem decode_huge {e : Word} (h : e &&& ptePresent ≠ 0) (hhuge : e &&& pteHugePage ≠ 0) : decode 1 e = .leaf e := by
  unfold decode
  rw [if_neg h, if_pos (Or.inr ⟨rfl, hhuge⟩)]

theorem decode_page {e : Word} (h : e &&& ptePresent ≠ 0) : decode 0 e = .leaf e := by
  unfold decode
  rw [if_neg h, if_pos (Or.inl rfl)]

theorem decode_zero_ne_table (e c : Word) : decode 0 e ≠ .table c := by
  unfold decode
  split
  · exact fun h => by cases h
  · rw [if_pos (Or.inl rfl)]
    exact fun h => by cases h

theorem decode_eq_table {e c : Word} {l : Nat} (h : decode l e = .table c) :
    e &&& ptePresent ≠ 0 ∧ ¬ (l = 0 ∨ (l = 1 ∧ e &&& pteHugePage ≠ 0)) ∧ e &&& pteAddrMask = c := by
  unfold decode at h
  split at h
  · cases h
  · rename_i hpresent
    split at h
    · cases h
    · rename_i hleaf
      cases h
      exact ⟨hpresent, hleaf, rfl⟩

theorem decode_eq_leaf {e v : Word} {l : Nat} (h : decode l e = .leaf v) :
    e &&& ptePresent ≠ 0 ∧ (l = 0 ∨ (l = 1 ∧ e &&& pteHugePage ≠ 0)) ∧ v = e := by
  unfold decode at h
  split at h
  · cases h
  · rename_i hpresent
    split at h
    · rename_i hleaf
      cases h
      exact ⟨hpresent, hleaf, rfl⟩
    · cases h

/-- A table behind an entry stays there when the entry is opened to user mode. -/
theorem decode_or_pteUser {e c : Word} {l : Nat} (h : decode l e = .table c) : decode l (e ||| pteUser) = .table c := by
  obtain ⟨hpresent, hleaf, haddr⟩ := decode_eq_table h
  unfold decode
  rw [or_pteUser_and (by decide), or_pteUser_and (by decide), or_pteUser_and (by decide), if_neg hpresent, if_neg hleaf,
    haddr]

/-! ### Addresses -/

/-- The slots on the way to a page. -/
def pathOf (virt : Word) : List (Fin 512) := [pml4Index virt, pdptIndex virt, pdIndex virt, ptIndex virt]

@[simp] theorem length_pathOf (virt : Word) : (pathOf virt).length = 4 := rfl

/-- The nine bits of an index, as a number. -/
theorem toNat_low9 (w : Word) (n : Nat) : (low9 (w >>> n)).val = w.toNat / 2 ^ n % 512 := by
  unfold low9
  show (w >>> n &&& 0x1FF#64).toNat = w.toNat / 2 ^ n % 512
  rw [BitVec.toNat_and, BitVec.toNat_ushiftRight, Nat.shiftRight_eq_div_pow]
  exact Nat.and_two_pow_sub_one_eq_mod _ 9

/-- The address of the byte `virt` on the page that an entry of level `l` maps. -/
def leafAddress (virt : Word) : Nat × Word → Word
  | (l, e) => if l = 1 then e &&& pteHugeAddrMask ||| virt &&& 0x1FFFFF#64 else e &&& pteAddrMask ||| virt &&& 0xFFF#64

/-- The slots of a user table that may hold what the kernel has there: all but the first, on three levels. -/
def Shareable (p : List (Fin 512)) (j : Fin 512) : Prop := (p = [] ∨ p = [0] ∨ p = [0, 0]) ∧ j ≠ 0

/-- The owner of every page table and the path on which the owner reaches it. -/
abbrev Tags := Word → Option (Word × List (Fin 512))

namespace Memory

/-- The page tables in memory. -/
def links (m : Memory) : Heap Word (Fin 512) Word := fun l f j => decode l (m.ram f j)

/-- The software walk resolves the path of the address. -/
theorem translateAddress_eq (m : Memory) (pml4 virt : Word) :
    m.translateAddress pml4 virt = (resolve m.links (pathOf virt) pml4).map (leafAddress virt) := by
  unfold translateAddress pageDirectory pathOf
  simp only [resolve, links, List.length_cons, List.length_nil, Nat.zero_add, Nat.reduceAdd]
  by_cases h4 : m.ram pml4 (pml4Index virt) &&& ptePresent = 0
  · rw [if_pos h4, decode_absent h4]
    rfl
  · rw [if_neg h4, decode_upper h4 (by omega)]
    simp only
    generalize m.ram pml4 (pml4Index virt) &&& pteAddrMask = pdpt
    by_cases h3 : m.ram pdpt (pdptIndex virt) &&& ptePresent = 0
    · rw [if_pos h3, decode_absent h3]
      rfl
    · rw [if_neg h3, decode_upper h3 (by omega)]
      simp only
      generalize m.ram pdpt (pdptIndex virt) &&& pteAddrMask = pd
      by_cases h2 : m.ram pd (pdIndex virt) &&& ptePresent = 0
      · rw [if_pos h2, decode_absent h2]
        rfl
      · rw [if_neg h2]
        by_cases hhuge : m.ram pd (pdIndex virt) &&& pteHugePage = 0
        · rw [if_neg (by simp [hhuge]), decode_small h2 hhuge (by omega)]
          simp only
          generalize m.ram pd (pdIndex virt) &&& pteAddrMask = pt
          by_cases h1 : m.ram pt (ptIndex virt) &&& ptePresent = 0
          · rw [if_pos h1, decode_absent h1]
            rfl
          · rw [if_neg h1, decode_page h1]
            rfl
        · rw [if_pos hhuge, decode_huge h2 hhuge]
          rfl

/-! ### The layout of the page tables -/

/-- The frame cannot be handed out by the bitmap. -/
structure Reserved (m : Memory) (p : Word) : Prop where
  addr : IsTableAddr p
  not_free : ∀ idx, idx < maxTrackedFrames → m.frameAddr idx = p → m.isFree idx = false

/-- A frame that has been handed out and is not a page table yet. -/
structure Fresh (m : Memory) (tag : Tags) (p : Word) : Prop where
  untagged : tag p = none
  reserved : m.Reserved p
  not_pooled : p ∉ m.ptPool

/-- The page tables of the kernel and of the users lie in memory as `tag` says. -/
structure Tables (m : Memory) (kern : Word) (tag : Tags) : Prop where
  layout : Layout m.links kern Shareable 3 tag
  addr : ∀ {f t}, tag f = some t → IsTableAddr f
  plain : ∀ {f o p} j, tag f = some (o, p) → p.length < 2 → m.ram f j &&& ptePresent ≠ 0 →
    m.ram f j &&& pteHugePage = 0
  free : ∀ {idx}, idx < maxTrackedFrames → m.isFree idx = true → tag (m.frameAddr idx) = none
  pool : ∀ {p}, p ∈ m.ptPool → tag p = none ∧ m.Reserved p
  pool_nodup : m.ptPool.Nodup

theorem Consumes.frameAddr {m m' : Memory} (h : Consumes m m') (idx : Nat) : m'.frameAddr idx = m.frameAddr idx := by
  unfold Memory.frameAddr
  rw [h.region]

theorem Reserved.consumes {m m' : Memory} {p : Word} (hp : m.Reserved p) (h : Consumes m m') : m'.Reserved p := by
  refine ⟨hp.addr, fun idx hlt haddr => h.not_free (hp.not_free idx hlt ?_)⟩
  rw [← h.frameAddr]
  exact haddr

theorem Fresh.consumes {m m' : Memory} {tag : Tags} {p : Word} (hp : m.Fresh tag p) (h : Consumes m m') :
    m'.Fresh tag p :=
  ⟨hp.untagged, hp.reserved.consumes h, fun hmem => hp.not_pooled (h.ptPool.subset hmem)⟩

namespace Tables

variable {m m' : Memory} {kern : Word} {tag : Tags}

/-- Only a page directory has 2 MB pages. -/
theorem length_of_huge (T : Tables m kern tag) {f o : Word} {p : List (Fin 512)} {j : Fin 512} (hf : tag f = some (o, p))
    (hp : p.length < 3) (hpresent : m.ram f j &&& ptePresent ≠ 0) (hhuge : m.ram f j &&& pteHugePage ≠ 0) :
    p.length = 2 := by
  by_cases hlt : p.length < 2
  · exact absurd (T.plain j hf hlt hpresent) hhuge
  · omega

/-- Frames have been handed out, and the page tables are as they were. -/
theorem consume (T : Tables m kern tag) (h : Consumes m m')
    (hram : ∀ f t, tag f = some t → ∀ j, m'.ram f j = m.ram f j) : Tables m' kern tag where
  layout := by
    refine T.layout.congr fun f o p hf j => ?_
    unfold links
    rw [hram f _ hf j]
  addr := T.addr
  plain j hf hp := by
    rw [hram _ _ hf j]
    exact T.plain j hf hp
  free hlt hfree := by
    rw [h.frameAddr]
    exact T.free hlt (h.isFree _ hfree)
  pool hmem := by
    obtain ⟨hnone, hres⟩ := T.pool (h.ptPool.subset hmem)
    exact ⟨hnone, hres.consumes h⟩
  pool_nodup := T.pool_nodup.sublist h.ptPool.sublist

/-- A page table is in use. -/
theorem reserved_of_tag (T : Tables m kern tag) {f : Word} {t : Word × List (Fin 512)} (hf : tag f = some t) :
    m.Reserved f := by
  refine ⟨T.addr hf, fun idx hlt haddr => ?_⟩
  cases hfree : m.isFree idx with
  | false => rfl
  | true =>
    have hnone := T.free hlt hfree
    rw [haddr, hf] at hnone
    cases hnone

end Tables

/-! ### Frames from the allocators -/

theorem isTableAddr_frameAddr (m : Memory) {idx : Nat} (h : m.Allocatable idx) : IsTableAddr (m.frameAddr idx) := by
  obtain ⟨hlt, -, hend⟩ := h
  have haligned := m.region.base_aligned
  have hle := m.region.end_le
  unfold pageSize at haligned hend
  refine isTableAddr_of_toNat ?_ ?_
  · rw [m.toNat_frameAddr hlt]
    unfold pageSize
    omega
  · rw [m.toNat_frameAddr hlt]
    unfold pageSize
    omega

theorem frameAddr_inj (m : Memory) {i j : Nat} (hi : i < maxTrackedFrames) (hj : j < maxTrackedFrames)
    (h : m.frameAddr i = m.frameAddr j) : i = j := by
  have heq := m.frameIndex_frameAddr hi
  rw [h, m.frameIndex_frameAddr hj] at heq
  exact (Option.some.inj heq).symm

section Alloc

variable {m m' : Memory} {kern p : Word} {tag : Tags}

theorem globalAlloc4k_ram {r : Option Word} (h : m.globalAlloc4k = (m', r)) : m'.ram = m.ram := by
  rcases m.globalAlloc4k_cases with ⟨-, heq⟩ | ⟨idx, -, -, -, -, -, hram⟩
  · rw [heq] at h
    cases h
    rfl
  · rw [h] at hram
    exact hram

/-- The bitmap hands out no frame that has been handed out before. -/
theorem not_reserved_of_globalAlloc4k (h : m.globalAlloc4k = (m', some p)) : ¬ m.Reserved p := by
  rcases m.globalAlloc4k_cases with ⟨-, heq⟩ | ⟨idx, halloc, haddr, -⟩
  · rw [heq] at h
    cases h
  · rw [h] at haddr
    cases haddr
    intro hres
    have hnot := hres.not_free idx halloc.1 rfl
    rw [halloc.2.1] at hnot
    cases hnot

theorem reserved_of_globalAlloc4k (h : m.globalAlloc4k = (m', some p)) : m'.Reserved p := by
  have hcons := Consumes.globalAlloc4k m
  rcases m.globalAlloc4k_cases with ⟨-, heq⟩ | ⟨idx, halloc, haddr, hfree, -⟩
  · rw [heq] at h
    cases h
  · rw [h] at hcons haddr hfree
    cases haddr
    refine ⟨m.isTableAddr_frameAddr halloc, fun j hj heq => ?_⟩
    rw [hcons.frameAddr] at heq
    have hj' : j = idx := m.frameAddr_inj hj halloc.1 heq
    rw [hfree j, hj']
    simp

/-- What it hands out is not a page table. -/
theorem Tables.globalAlloc4k (T : Tables m kern tag) (h : m.globalAlloc4k = (m', some p)) :
    Tables m' kern tag ∧ m'.Fresh tag p ∧ m'.ram = m.ram := by
  have hcons := Consumes.globalAlloc4k m
  rcases m.globalAlloc4k_cases with ⟨-, heq⟩ | ⟨idx, halloc, haddr, -, -, -, hram⟩
  · rw [heq] at h
    cases h
  · rw [h] at hcons haddr hram
    cases haddr
    refine ⟨T.consume hcons fun f t _ j => by rw [hram],
      ⟨T.free halloc.1 halloc.2.1, reserved_of_globalAlloc4k h, fun hmem => ?_⟩, hram⟩
    exact not_reserved_of_globalAlloc4k h (T.pool (hcons.ptPool.subset hmem)).2

/-- So do the pool and the bitmap together. -/
theorem Tables.allocPtFrame (T : Tables m kern tag) (h : m.allocPtFrame = (m', some p)) :
    Tables m' kern tag ∧ m'.Fresh tag p ∧ m'.ram = m.ram := by
  have hcons := Consumes.allocPtFrame m
  rw [h] at hcons
  unfold Memory.allocPtFrame poolAllocPt at h
  cases hpool : m.ptPool with
  | nil =>
    rw [hpool] at h
    exact T.globalAlloc4k h
  | cons q rest =>
    rw [hpool] at h
    cases h
    have hmem : p ∈ m.ptPool := by
      rw [hpool]
      exact List.mem_cons_self
    obtain ⟨hnone, hres⟩ := T.pool hmem
    refine ⟨T.consume hcons fun _ _ _ _ => rfl, ⟨hnone, hres.consumes hcons, ?_⟩, rfl⟩
    have hnodup := T.pool_nodup
    rw [hpool] at hnodup
    exact (List.nodup_cons.1 hnodup).1

/-- A frame for a page table is not in use. -/
theorem not_fresh_of_allocPtFrame (h : m.allocPtFrame = (m', some p)) : ¬ m.Fresh tag p := by
  unfold Memory.allocPtFrame poolAllocPt at h
  cases hpool : m.ptPool with
  | nil =>
    rw [hpool] at h
    exact fun hf => not_reserved_of_globalAlloc4k h hf.reserved
  | cons q rest =>
    rw [hpool] at h
    cases h
    intro hf
    refine hf.not_pooled ?_
    rw [hpool]
    exact List.mem_cons_self

/-- A failed allocation changes nothing. -/
theorem globalAlloc4k_eq_none (h : m.globalAlloc4k = (m', none)) : m' = m := by
  rcases m.globalAlloc4k_cases with ⟨-, heq⟩ | ⟨idx, -, haddr, -⟩
  · rw [heq] at h
    cases h
    rfl
  · rw [h] at haddr
    cases haddr

theorem allocPtFrame_eq_none (h : m.allocPtFrame = (m', none)) : m' = m := by
  unfold Memory.allocPtFrame poolAllocPt at h
  cases hpool : m.ptPool with
  | nil =>
    rw [hpool] at h
    exact globalAlloc4k_eq_none h
  | cons q rest =>
    rw [hpool] at h
    cases h

end Alloc

/-! ### Putting a table behind a slot -/

section Adopt

variable {m m' : Memory} {kern : Word} {tag : Tags}

/-- A frame that has been handed out becomes a page table, in a layout that has room for it. -/
private theorem Tables.tagged (T : Tables m kern tag) {c : Word} {t : Word × List (Fin 512)} (hfresh : m.Fresh tag c)
    (hcons : Consumes m m') (hlayout : Layout m'.links kern Shareable 3 (setTag tag c t))
    (hplain : ∀ {f o p} j, setTag tag c t f = some (o, p) → p.length < 2 → m'.ram f j &&& ptePresent ≠ 0 →
      m'.ram f j &&& pteHugePage = 0) : Tables m' kern (setTag tag c t) where
  layout := hlayout
  addr hf := by
    rcases Layout.setTag_eq_some hf with ⟨rfl, -⟩ | ⟨-, hf⟩
    · exact hfresh.reserved.addr
    · exact T.addr hf
  plain := hplain
  free {idx} hlt hfree := by
    rw [Layout.setTag_of_ne, hcons.frameAddr]
    · exact T.free hlt (hcons.isFree _ hfree)
    · intro heq
      rw [(hfresh.consumes hcons).reserved.not_free idx hlt heq] at hfree
      cases hfree
  pool hmem := by
    rw [Layout.setTag_of_ne]
    · obtain ⟨hnone, hres⟩ := T.pool (hcons.ptPool.subset hmem)
      exact ⟨hnone, hres.consumes hcons⟩
    · rintro rfl
      exact (hfresh.consumes hcons).not_pooled hmem
  pool_nodup := T.pool_nodup.sublist hcons.ptPool.sublist

/-- A frame that has been handed out becomes the table behind a slot. -/
theorem Tables.adopt (T : Tables m kern tag) {f₀ o₀ c e : Word} {p₀ : List (Fin 512)} {i₀ : Fin 512}
    (hf₀ : tag f₀ = some (o₀, p₀)) (hp₀ : p₀.length < 3) (hfresh : m.Fresh tag c)
    (hslot : ∀ d, m.links (3 - p₀.length) f₀ i₀ ≠ .table d) (he : PointsTo e c) (hcons : Consumes m m')
    (hram : ∀ f t, tag f = some t → ∀ j, ¬ (f = f₀ ∧ j = i₀) → m'.ram f j = m.ram f j)
    (hentry : m'.ram f₀ i₀ = e) (hc : (∀ j, m'.ram c j = 0) ∨ p₀.length = 2) :
    Tables m' kern (setTag tag c (o₀, p₀ ++ [i₀])) := by
  have hempty : p₀.length + 1 < 3 → ∀ j, m'.ram c j = 0 := by
    intro hlt
    rcases hc with hzero | htwo
    · exact hzero
    · omega
  refine T.tagged hfresh hcons ?_ ?_
  · refine T.layout.adopt hf₀ hp₀ hfresh.untagged hslot ?_ ?_ ?_ ?_
    · unfold links
      rw [hentry]
      exact decode_of_pointsTo he (by omega)
    · intro j d
      unfold links
      by_cases hlt : p₀.length + 1 < 3
      · rw [hempty hlt j, decode_zero]
        exact fun h => by cases h
      · rw [show 3 - (p₀.length + 1) = 0 by omega]
        exact decode_zero_ne_table _ d
    · intro _ hlt j v
      unfold links
      rw [hempty hlt j, decode_zero]
      exact fun h => by cases h
    · intro f o p hf j hne
      unfold links
      rw [hram f _ hf j hne]
  · intro f o p j hf hp hpresent
    rcases Layout.setTag_eq_some hf with ⟨rfl, heq⟩ | ⟨-, hf⟩
    · cases heq
      rw [List.length_append, List.length_singleton] at hp
      rw [hempty (by omega) j] at hpresent
      exact absurd (by decide) hpresent
    · by_cases hhere : f = f₀ ∧ j = i₀
      · obtain ⟨rfl, rfl⟩ := hhere
        rw [hentry]
        exact he.plain
      · rw [hram f _ hf j hhere] at hpresent ⊢
        exact T.plain j hf hp hpresent

/-- A frame that has been handed out and zeroed becomes a PML4. -/
theorem Tables.addRoot (T : Tables m kern tag) {c : Word} (hfresh : m.Fresh tag c) (hcons : Consumes m m')
    (hram : ∀ f t, tag f = some t → ∀ j, m'.ram f j = m.ram f j) (hc : ∀ j, m'.ram c j = 0) :
    Tables m' kern (setTag tag c (c, [])) := by
  refine T.tagged hfresh hcons ?_ ?_
  · refine T.layout.addRoot hfresh.untagged (fun j => ?_) (fun f o p hf j => ?_)
    · unfold links
      rw [hc j, decode_zero]
    · unfold links
      rw [hram f _ hf j]
  · intro f o p j hf hp hpresent
    rcases Layout.setTag_eq_some hf with ⟨rfl, -⟩ | ⟨-, hf⟩
    · rw [hc j] at hpresent
      exact absurd (by decide) hpresent
    · rw [hram f _ hf j] at hpresent ⊢
      exact T.plain j hf hp hpresent

end Adopt

end Memory

end Rost
