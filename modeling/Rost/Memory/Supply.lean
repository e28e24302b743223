import Rost.Memory.Frames
import Rost.Memory.Widening
import Mathlib.Data.Finset.Card

/-!
# The supply of frames

The bitmap hands out the free frames in ascending order, and the frame of a page table comes from the pool as long as
there is one.  So which frames an address space is built from is known beforehand: it depends on the number of its
pages and tables only (`Drawn`), and the tables are counted by their paths (`tablesOf`).
-/

namespace Rost

open Lib (Bitmap)
open Lib.TableTree (Layout)
open Lib.TableTree.Layout (setTag)

namespace Memory

/-- The numbers of the free frames, in the order in which they are handed out. -/
def freeFrames (m : Memory) : List Nat := m.freeBitmap.bits (maxTrackedFrames / 64)

section Draw

variable {m₀ m m' : Memory} {n t : Nat} {p : Word}

theorem lt_of_mem_freeFrames {idx : Nat} (h : idx ∈ m.freeFrames) : idx < maxTrackedFrames :=
  (Bitmap.mem_bits.1 h).1

theorem frameTag_freeBitmap (m : Memory) (p : Word) (k : FrameKind) : (m.frameTag p k).freeBitmap = m.freeBitmap := by
  unfold frameTag
  split <;> rfl

/-- The first free frame is handed out. -/
theorem freeFrames_of_globalAlloc4k (h : m.globalAlloc4k = (m', some p)) :
    ∃ idx, p = m.frameAddr idx ∧ m.freeFrames = idx :: m'.freeFrames ∧ m'.ptPool = m.ptPool ∧ m'.region = m.region := by
  unfold globalAlloc4k at h
  split at h
  · cases h
  · rename_i idx hfind
    split at h
    · cases h
    · cases h
      refine ⟨idx, rfl, ?_, by rw [frameTag_ptPool], by rw [frameTag_region]⟩
      unfold freeFrames
      rw [frameTag_freeBitmap]
      exact Bitmap.bits_of_findFirst hfind

/-- Since `m₀`, the allocators have handed out `n` frames for data and `t` for page tables. -/
structure Drawn (m₀ m : Memory) (n t : Nat) : Prop where
  region : m.region = m₀.region
  ptPool : m.ptPool = m₀.ptPool.drop t
  free : m.freeFrames = m₀.freeFrames.drop (n + (t - m₀.ptPool.length))

namespace Drawn

theorem refl (m : Memory) : Drawn m m 0 0 := ⟨rfl, rfl, by rw [Nat.zero_sub, Nat.add_zero, List.drop_zero]⟩

/-- What the allocators know is as before. -/
theorem congr (h : Drawn m₀ m n t) (hregion : m'.region = m.region) (hbitmap : m'.freeBitmap = m.freeBitmap)
    (hpool : m'.ptPool = m.ptPool) : Drawn m₀ m' n t := by
  refine ⟨hregion.trans h.region, hpool.trans h.ptPool, ?_⟩
  unfold freeFrames
  rw [hbitmap]
  exact h.free

theorem frameAddr (h : Drawn m₀ m n t) (idx : Nat) : m.frameAddr idx = m₀.frameAddr idx := by
  unfold Memory.frameAddr
  rw [h.region]

/-- One more frame from the bitmap. -/
private theorem draw (h : Drawn m₀ m n t) (halloc : m.globalAlloc4k = (m', some p)) :
    m'.region = m₀.region ∧ m'.ptPool = m.ptPool ∧
      m'.freeFrames = m₀.freeFrames.drop (n + (t - m₀.ptPool.length) + 1) ∧
      ∃ idx, m₀.freeFrames[n + (t - m₀.ptPool.length)]? = some idx ∧ p = m₀.frameAddr idx := by
  obtain ⟨idx, hp, hfree, hpool, hregion⟩ := freeFrames_of_globalAlloc4k halloc
  rw [h.free] at hfree
  refine ⟨hregion.trans h.region, hpool, ?_, idx, ?_, by rw [hp, h.frameAddr]⟩
  · rw [← List.drop_drop, hfree]
    rfl
  · have hhead := congrArg (fun l => l[0]?) hfree
    simp only [List.getElem?_drop, Nat.add_zero, List.getElem?_cons_zero] at hhead
    exact hhead

/-- A data frame is the free frame whose number is that of the frames drawn from the bitmap before. -/
theorem data (h : Drawn m₀ m n t) (halloc : m.globalAlloc4k = (m', some p)) : Drawn m₀ m' (n + 1) t ∧
    ∃ idx, m₀.freeFrames[n + (t - m₀.ptPool.length)]? = some idx ∧ p = m₀.frameAddr idx := by
  obtain ⟨hregion, hpool, hfree, hidx⟩ := h.draw halloc
  refine ⟨⟨hregion, hpool.trans h.ptPool, ?_⟩, hidx⟩
  rw [hfree, Nat.add_right_comm]

/-- The frame of a page table comes from the bitmap when the pool is empty. -/
theorem table (h : Drawn m₀ m n t) (halloc : m.allocPtFrame = (m', some p)) : Drawn m₀ m' n (t + 1) := by
  have hpool := h.ptPool
  unfold Memory.allocPtFrame poolAllocPt at halloc
  cases hm : m.ptPool with
  | nil =>
    rw [hm] at halloc hpool
    have hlen : m₀.ptPool.length ≤ t := List.drop_eq_nil_iff.1 hpool.symm
    obtain ⟨hregion, hpool', hfree, -⟩ := h.draw halloc
    refine ⟨hregion, ?_, ?_⟩
    · rw [hpool', hm, List.drop_eq_nil_of_le (by omega)]
    · rw [hfree, Nat.add_assoc, ← Nat.sub_add_comm hlen]
  | cons q rest =>
    rw [hm] at halloc hpool
    cases halloc
    have hlen : t < m₀.ptPool.length := by
      by_contra hle
      rw [List.drop_eq_nil_of_le (by omega)] at hpool
      cases hpool
    refine ⟨h.region, ?_, ?_⟩
    · rw [← List.drop_drop, ← hpool]
      rfl
    · have hfree := h.free
      rw [show t - m₀.ptPool.length = 0 by omega] at hfree
      rw [show t + 1 - m₀.ptPool.length = 0 by omega]
      exact hfree

/-- A frame that has been drawn was there. -/
theorem data_le (h : Drawn m₀ m n t) (halloc : m.globalAlloc4k = (m', some p)) :
    n + 1 + (t - m₀.ptPool.length) ≤ m₀.freeFrames.length := by
  obtain ⟨-, idx, hidx, -⟩ := h.data halloc
  have hlt := (List.getElem?_eq_some_iff.1 hidx).1
  omega

theorem table_le (h : Drawn m₀ m n t) (hle : n + (t - m₀.ptPool.length) ≤ m₀.freeFrames.length)
    (halloc : m.allocPtFrame = (m', some p)) : n + (t + 1 - m₀.ptPool.length) ≤ m₀.freeFrames.length := by
  by_cases hpool : t < m₀.ptPool.length
  · omega
  · have hnil := h.ptPool
    rw [List.drop_eq_nil_of_le (by omega)] at hnil
    unfold Memory.allocPtFrame poolAllocPt at halloc
    rw [hnil] at halloc
    have hdata := h.data_le halloc
    omega

end Drawn

/-! ### When there are enough frames -/

/-- No free frame lies beyond the end of the region. -/
def Usable (m : Memory) : Prop := ∀ idx ∈ m.freeFrames, m.region.base + idx * pageSize < m.region.base + m.region.size

/-- None does while the frames are partitioned among their owners. -/
theorem usable_of_partition {handed : List Word} (h : m.allocator.Partition handed) : m.Usable := by
  intro idx hidx
  obtain ⟨hlt, hfree⟩ := Bitmap.mem_bits.1 hidx
  rcases h.bits with ⟨hwrap, -⟩ | hbits
  · rw [BitVec.lt_def, toNat_limit, toNat_base] at hwrap
    omega
  · have hend := FrameAllocator.tracked_end (hbits idx hlt hfree)
    rw [toNat_limit, toNat_base] at hend
    unfold pageSize at *
    omega

theorem globalAlloc4k_of_free (hu : m.Usable) (h : m.freeFrames ≠ []) : ∃ m' p, m.globalAlloc4k = (m', some p) := by
  rcases m.globalAlloc4k_cases with ⟨hnone, -⟩ | ⟨idx, -, haddr, -⟩
  · obtain ⟨idx, hidx⟩ := List.exists_mem_of_ne_nil _ h
    have hbit := Bitmap.mem_bits.1 hidx
    exact absurd ⟨hbit.1, hbit.2, hu idx hidx⟩ (hnone idx)
  · exact ⟨m.globalAlloc4k.1, m.frameAddr idx, Prod.ext rfl haddr⟩

namespace Drawn

theorem usable (h : Drawn m₀ m n t) (hu : m₀.Usable) : m.Usable := by
  intro idx hidx
  rw [h.free] at hidx
  rw [h.region]
  exact hu idx (List.mem_of_mem_drop hidx)

private theorem free_ne_nil (h : Drawn m₀ m n t) (hroom : n + (t - m₀.ptPool.length) < m₀.freeFrames.length) :
    m.freeFrames ≠ [] := by
  rw [h.free]
  exact fun hnil => absurd (List.drop_eq_nil_iff.1 hnil) (by omega)

theorem data_of_room (h : Drawn m₀ m n t) (hu : m₀.Usable)
    (hroom : n + 1 + (t - m₀.ptPool.length) ≤ m₀.freeFrames.length) : ∃ m' p, m.globalAlloc4k = (m', some p) :=
  globalAlloc4k_of_free (h.usable hu) (h.free_ne_nil (by omega))

theorem table_of_room (h : Drawn m₀ m n t) (hu : m₀.Usable)
    (hroom : n + (t + 1 - m₀.ptPool.length) ≤ m₀.freeFrames.length) : ∃ m' p, m.allocPtFrame = (m', some p) := by
  have hpool := h.ptPool
  unfold Memory.allocPtFrame poolAllocPt
  cases hm : m.ptPool with
  | nil =>
    rw [hm] at hpool
    have hlen : m₀.ptPool.length ≤ t := List.drop_eq_nil_iff.1 hpool.symm
    exact globalAlloc4k_of_free (h.usable hu) (h.free_ne_nil (by omega))
  | cons q rest => exact ⟨_, q, rfl⟩

end Drawn

end Draw

/-! ### Counting page tables -/

/-- The paths of the page tables between the PML4 and a page. -/
def tablesOf (virt : Word) : Finset (List (Fin 512)) :=
  {[pml4Index virt], [pml4Index virt, pdptIndex virt], [pml4Index virt, pdptIndex virt, pdIndex virt]}

/-- Below its root, `o` has its page tables on the paths `B`. -/
def TablesAt (tag : Tags) (o : Word) (B : Finset (List (Fin 512))) : Prop :=
  ∀ p, p ≠ [] → (p ∈ B ↔ ∃ f, tag f = some (o, p))

section Tables

variable {W : List (Fin 512) → Word → Prop} {m₀ m m' : Memory} {kern o f₀ : Word} {tag : Tags} {n : Nat}
  {B : Finset (List (Fin 512))}

private theorem TablesAt.insert_old (hB : TablesAt tag o B) {q : List (Fin 512)} {c : Word} (hc : tag c = some (o, q))
    (hq : q ≠ []) : insert q B = B := Finset.insert_eq_of_mem ((hB q hq).2 ⟨c, hc⟩)

private theorem TablesAt.insert_new (hB : TablesAt tag o B) {q : List (Fin 512)} {c : Word} (hc : tag c = none) :
    TablesAt (setTag tag c (o, q)) o (insert q B) := by
  intro p hp
  rw [Finset.mem_insert]
  constructor
  · rintro (rfl | hmem)
    · exact ⟨c, Layout.setTag_self _ _ _⟩
    · obtain ⟨f, hf⟩ := (hB p hp).1 hmem
      exact ⟨f, Layout.setTag_of_tagged _ hc hf⟩
  · rintro ⟨f, hf⟩
    rcases Layout.setTag_eq_some hf with ⟨-, heq⟩ | ⟨-, hf⟩
    · exact Or.inl (Prod.mk.inj heq).2
    · exact Or.inr ((hB p hp).2 ⟨f, hf⟩)

/-- On its way down, `alloc_fn` draws a frame exactly for a table that is not there yet. -/
theorem Drawn.allocFn {p₀ : List (Fin 512)} {i₀ : Fin 512} (T : Tables m kern tag) (hf₀ : tag f₀ = some (o, p₀))
    (hp₀ : p₀.length < 3) (hown : Owned m tag o p₀ i₀) (hB : TablesAt tag o B) (hd : Drawn m₀ m n B.card) {flags c : Word}
    (h : m.allocFn (flags &&& pteUser) f₀ i₀ = (m', some c)) : ∃ tag', Builds W kern o m tag m' tag' ∧
      tag' c = some (o, p₀ ++ [i₀]) ∧ TablesAt tag' o (insert (p₀ ++ [i₀]) B) ∧
      Drawn m₀ m' n (insert (p₀ ++ [i₀]) B).card := by
  have hne : p₀ ++ [i₀] ≠ [] := by simp
  obtain ⟨tag', hb, hr⟩ := T.allocFn_builds (W := W) hf₀ hp₀ hown h
  rcases hr with hnone | ⟨d, hd', htag, ⟨rfl, hmem⟩ | ⟨rfl, hnew, m₁, halloc, hmem⟩⟩
  · cases hnone
  · cases hd'
    rw [hB.insert_old htag hne]
    exact ⟨tag', hb, htag, hB, hd.congr (by rw [hmem]) (by rw [hmem]) (by rw [hmem])⟩
  · cases hd'
    have hfresh := (T.allocPtFrame halloc).2.1
    have hnot : p₀ ++ [i₀] ∉ B := by
      intro hmem
      obtain ⟨f, hf⟩ := (hB _ hne).1 hmem
      exact hnew f hf
    refine ⟨_, hb, htag, hB.insert_new hfresh.untagged, ?_⟩
    rw [Finset.card_insert_of_notMem hnot]
    exact (hd.table halloc).congr (by rw [hmem]) (by rw [hmem]) (by rw [hmem])

/-- So it draws one only if there is one. -/
private theorem Drawn.allocFn_le {p₀ : List (Fin 512)} {i₀ : Fin 512} (T : Tables m kern tag)
    (hf₀ : tag f₀ = some (o, p₀)) (hp₀ : p₀.length < 3) (hown : Owned m tag o p₀ i₀) (hB : TablesAt tag o B)
    (hd : Drawn m₀ m n B.card) (hle : n + (B.card - m₀.ptPool.length) ≤ m₀.freeFrames.length) {flags c : Word}
    (h : m.allocFn (flags &&& pteUser) f₀ i₀ = (m', some c)) :
    n + ((insert (p₀ ++ [i₀]) B).card - m₀.ptPool.length) ≤ m₀.freeFrames.length := by
  obtain ⟨tag', -, hr⟩ := T.allocFn_builds (W := PageAt 0 0 0) hf₀ hp₀ hown h
  rcases hr with hnone | ⟨d, -, htag, ⟨rfl, -⟩ | ⟨rfl, -, m₁, halloc, -⟩⟩
  · cases hnone
  · rw [hB.insert_old htag (by simp)]
    exact hle
  · have hcard := Finset.card_insert_le (p₀ ++ [i₀]) B
    have hdraw := hd.table_le hle halloc
    omega

private theorem insert_tablesOf (B : Finset (List (Fin 512))) (virt : Word) :
    insert ([pml4Index virt, pdptIndex virt] ++ [pdIndex virt])
      (insert ([pml4Index virt] ++ [pdptIndex virt]) (insert ([] ++ [pml4Index virt]) B)) = B ∪ tablesOf virt := by
  ext q
  unfold tablesOf
  simp only [Finset.mem_insert, Finset.mem_union, Finset.mem_singleton, List.nil_append, List.cons_append]
  tauto

/-- Mapping a page draws a frame for every table that is missing on the way. -/
theorem Drawn.mapPageGlobal (T : Tables m kern tag) (hroot : tag o = some (o, [])) {virt phys flags : Word}
    (hpath : OwnedPath m tag o virt) (hB : TablesAt tag o B) (hd : Drawn m₀ m n B.card)
    (h : m.mapPageGlobal o virt phys flags = (m', true)) : ∃ tag', Builds (PageAt virt phys flags) kern o m tag m' tag' ∧
      TablesAt tag' o (B ∪ tablesOf virt) ∧ Drawn m₀ m' n (B ∪ tablesOf virt).card := by
  unfold Memory.mapPageGlobal at h
  simp only at h
  split at h
  · cases h
  · rename_i m₁ pdpt h₁
    obtain ⟨tag₁, hb₁, hpdpt, hB₁, hd₁⟩ := hd.allocFn (W := PageAt virt phys flags) T hroot (by decide) hpath.pml4 hB h₁
    have hpath₁ := hpath.builds hb₁ fun _ _ => PageAt.length
    split at h
    · cases h
    · rename_i m₂ pd h₂
      obtain ⟨tag₂, hb₂, hpd, hB₂, hd₂⟩ :=
        hd₁.allocFn (W := PageAt virt phys flags) hb₁.tables hpdpt (by simp) hpath₁.pdpt hB₁ h₂
      have hpath₂ := hpath₁.builds hb₂ fun _ _ => PageAt.length
      split at h
      · cases h
      · rename_i m₃ pt h₃
        cases h
        obtain ⟨tag₃, hb₃, hpt, hB₃, hd₃⟩ :=
          hd₂.allocFn (W := PageAt virt phys flags) hb₂.tables hpd (by simp) hpath₂.pd hB₂ h₃
        rw [← insert_tablesOf]
        exact ⟨tag₃, ((hb₁.trans hb₂).trans hb₃).trans (hb₃.tables.writePage hpt (by simp) ⟨rfl, rfl⟩), hB₃,
          hd₃.congr rfl rfl rfl⟩

/-- The tables of a page that has been mapped have had their frames. -/
theorem Drawn.mapPageGlobal_le (T : Tables m kern tag) (hroot : tag o = some (o, [])) {virt phys flags : Word}
    (hpath : OwnedPath m tag o virt) (hB : TablesAt tag o B) (hd : Drawn m₀ m n B.card)
    (hle : n + (B.card - m₀.ptPool.length) ≤ m₀.freeFrames.length)
    (h : m.mapPageGlobal o virt phys flags = (m', true)) :
    n + ((B ∪ tablesOf virt).card - m₀.ptPool.length) ≤ m₀.freeFrames.length := by
  unfold Memory.mapPageGlobal at h
  simp only at h
  split at h
  · cases h
  · rename_i m₁ pdpt h₁
    obtain ⟨tag₁, hb₁, hpdpt, hB₁, hd₁⟩ := hd.allocFn (W := PageAt virt phys flags) T hroot (by decide) hpath.pml4 hB h₁
    have hle₁ := hd.allocFn_le T hroot (by decide) hpath.pml4 hB hle h₁
    have hpath₁ := hpath.builds hb₁ fun _ _ => PageAt.length
    split at h
    · cases h
    · rename_i m₂ pd h₂
      obtain ⟨tag₂, hb₂, hpd, hB₂, hd₂⟩ :=
        hd₁.allocFn (W := PageAt virt phys flags) hb₁.tables hpdpt (by simp) hpath₁.pdpt hB₁ h₂
      have hle₂ := hd₁.allocFn_le hb₁.tables hpdpt (by simp) hpath₁.pdpt hB₁ hle₁ h₂
      have hpath₂ := hpath₁.builds hb₂ fun _ _ => PageAt.length
      split at h
      · cases h
      · rename_i m₃ pt h₃
        have hle₃ := hd₂.allocFn_le hb₂.tables hpd (by simp) hpath₂.pd hB₂ hle₂ h₃
        rw [← insert_tablesOf]
        exact hle₃

/-- A table that is there is found, without a frame. -/
private theorem allocFn_of_table {l : Nat} {c flag : Word} {i : Fin 512} (hlink : m.links l f₀ i = .table c)
    (hplain : m.ram f₀ i &&& pteHugePage = 0) : ∃ m' d, m.allocFn flag f₀ i = (m', some d) := by
  have hpresent : m.ram f₀ i &&& ptePresent ≠ 0 := by
    intro habsent
    unfold links at hlink
    rw [decode_absent habsent] at hlink
    cases hlink
  unfold Memory.allocFn
  simp only
  rw [if_neg hpresent, if_neg (not_not_intro hplain)]
  split
  · exact ⟨_, _, rfl⟩
  · exact ⟨_, _, rfl⟩

/-- With a frame for the table if it is missing, `alloc_fn` succeeds. -/
private theorem Drawn.allocFn_of_room {p₀ : List (Fin 512)} {i₀ : Fin 512} (T : Tables m kern tag)
    (hf₀ : tag f₀ = some (o, p₀)) (hp₀ : p₀.length < 3) (hB : TablesAt tag o B) (hd : Drawn m₀ m n B.card)
    (hu : m₀.Usable) (hroom : n + ((insert (p₀ ++ [i₀]) B).card - m₀.ptPool.length) ≤ m₀.freeFrames.length) (flag : Word) :
    ∃ m' c, m.allocFn flag f₀ i₀ = (m', some c) := by
  have hne : p₀ ++ [i₀] ≠ [] := by simp
  by_cases hin : p₀ ++ [i₀] ∈ B
  · obtain ⟨c, hc⟩ := (hB _ hne).1 hin
    obtain ⟨g, hg, hlink⟩ := T.layout.parent hc
    rw [T.layout.tag_inj hg hf₀] at hlink
    obtain ⟨hpresent, hleaf, -⟩ := decode_eq_table hlink
    refine allocFn_of_table hlink ?_
    by_cases htwo : p₀.length < 2
    · exact T.plain i₀ hf₀ htwo hpresent
    · by_contra hhuge
      exact hleaf (Or.inr ⟨by omega, hhuge⟩)
  · rw [Finset.card_insert_of_notMem hin] at hroom
    obtain ⟨m₁, p, halloc⟩ := hd.table_of_room hu hroom
    cases h : m.allocFn flag f₀ i₀ with
    | mk m' r =>
      cases r with
      | some c => exact ⟨m', c, rfl⟩
      | none =>
        have hnone := (allocFn_eq_none h).2
        rw [halloc] at hnone
        cases hnone

/-- With a frame for every table that is missing, the page is mapped. -/
theorem Drawn.mapPageGlobal_of_room (T : Tables m kern tag) (hroot : tag o = some (o, [])) {virt : Word}
    (hpath : OwnedPath m tag o virt) (hB : TablesAt tag o B) (hd : Drawn m₀ m n B.card) (hu : m₀.Usable)
    (hroom : n + ((B ∪ tablesOf virt).card - m₀.ptPool.length) ≤ m₀.freeFrames.length) (phys flags : Word) :
    ∃ m', m.mapPageGlobal o virt phys flags = (m', true) := by
  have hle : ∀ {A : Finset (List (Fin 512))}, A ⊆ B ∪ tablesOf virt →
      n + (A.card - m₀.ptPool.length) ≤ m₀.freeFrames.length := by
    intro A hA
    have := Finset.card_le_card hA
    omega
  have hsub₁ : insert ([] ++ [pml4Index virt]) B ⊆ B ∪ tablesOf virt := by
    refine Finset.insert_subset (Finset.mem_union_right _ ?_) Finset.subset_union_left
    simp [tablesOf]
  have hsub₂ : insert ([pml4Index virt] ++ [pdptIndex virt]) (insert ([] ++ [pml4Index virt]) B) ⊆ B ∪ tablesOf virt := by
    refine Finset.insert_subset (Finset.mem_union_right _ ?_) hsub₁
    simp [tablesOf]
  have hsub₃ : insert ([pml4Index virt, pdptIndex virt] ++ [pdIndex virt])
      (insert ([pml4Index virt] ++ [pdptIndex virt]) (insert ([] ++ [pml4Index virt]) B)) ⊆ B ∪ tablesOf virt := by
    refine Finset.insert_subset (Finset.mem_union_right _ ?_) hsub₂
    simp [tablesOf]
  obtain ⟨m₁, pdpt, h₁⟩ := hd.allocFn_of_room T hroot (by decide) hB hu (hle hsub₁) (flags &&& pteUser)
  obtain ⟨tag₁, hb₁, hpdpt, hB₁, hd₁⟩ := hd.allocFn (W := PageAt virt phys flags) T hroot (by decide) hpath.pml4 hB h₁
  have hpath₁ := hpath.builds hb₁ fun _ _ => PageAt.length
  obtain ⟨m₂, pd, h₂⟩ := hd₁.allocFn_of_room hb₁.tables hpdpt (by simp) hB₁ hu (hle hsub₂) (flags &&& pteUser)
  obtain ⟨tag₂, hb₂, hpd, hB₂, hd₂⟩ :=
    hd₁.allocFn (W := PageAt virt phys flags) hb₁.tables hpdpt (by simp) hpath₁.pdpt hB₁ h₂
  obtain ⟨m₃, pt, h₃⟩ := hd₂.allocFn_of_room hb₂.tables hpd (by simp) hB₂ hu (hle hsub₃) (flags &&& pteUser)
  unfold Memory.mapPageGlobal
  simp only [h₁, h₂, h₃]
  exact ⟨_, rfl⟩

end Tables

end Memory

end Rost
