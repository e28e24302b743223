import Rost.Libc.Client
import Rost.Kernel.Syscall

/-!
# The sizes of blocks

What becomes of a call with any size.  The kernel maps pages of user space only, so the heap ends far below `2 ^ 64`, and an
address can overflow only by a size that is asked for.  The size of a block is cut to 32 bits in its header: a call is
answered properly exactly when the block is smaller than `2 ^ 32` bytes, or is refused by the kernel before an address
overflows (`Client.covers_iff`).
-/

namespace Rost.Kernel

/-- `SYS_MAP` refuses what is not in user space. -/
theorem sysMap_of_ge (k : Kernel) {a0 : Word} (a1 a2 : Word) (h : userVaEnd ≤ a0.toNat) :
    k.sysMap a0 a1 a2 = some (k, .value einval) := by
  unfold sysMap
  rw [if_pos]
  unfold validateUserVaddr
  rw [decide_eq_false (Nat.not_lt.2 h)]
  simp

end Rost.Kernel

namespace Rost.Libc

open Lib (ByteMemory Spans Run run_of_exec exec)
open Lib.ByteMemory (SameOutside sameOutside_write sameOutside_fill sameOutside_copy)

/-- The pages that the kernel maps are pages of user space. -/
def UserPages (sysMap : Nat → Bool) : Prop := ∀ page, userVaEnd ≤ page → sysMap page = false

/-- The block for a large size: its header and the size, rounded up. -/
def rounded (size : Nat) : Nat := (size + 31) / 16 * 16

/-- The kernel refuses one of the pages that are missing up to `stop`. -/
def Refused (sysMap : Nat → Bool) (h : Heap) (stop : Nat) : Prop :=
  ∃ k, h.heapMapTop + 0x1000 * k < stop ∧ sysMap (h.heapMapTop + 0x1000 * k) = false

/-- Null, or the pointer of a block with room for the size, where the sizes in the headers are those of the blocks from the
start of the heap to its end. -/
def Covers (h : Heap) (size q : Nat) : Prop :=
  q = 0 ∨ ∃ blocks, Spans heapStart h.heapBump blocks ∧ (∀ s ∈ blocks, h.total s.1 = s.2) ∧
    ∃ s ∈ blocks, q = Heap.userPtr s.1 ∧ size + hdrSize ≤ s.2

/-! ### Pages -/

section Pages

variable {sysMap : Nat → Bool} {h h' : Heap} {carved live : List (Nat × Nat)} {lists : Fin numClasses → List Nat}
  {stop fuel total size q : Nat}

private theorem userVaEnd_eq : userVaEnd = 0x800000000000 := rfl

/-- Mapping pages does not overflow, and fails exactly if a page is refused. -/
private theorem mapUpTo_total (hmaps : UserPages sysMap) (haligned : h.heapMapTop % 0x1000 = 0)
    (htop : h.heapMapTop ≤ userVaEnd) (hfuel : stop - h.heapMapTop ≤ fuel) :
    ∃ h' ok, Heap.mapUpTo sysMap stop fuel h = some (h', ok) ∧ h'.heapMapTop ≤ userVaEnd ∧
      (ok = false ↔ Refused sysMap h stop) := by
  have hend := userVaEnd_eq
  have hnone : ∀ {h : Heap}, stop ≤ h.heapMapTop → ¬ Refused sysMap h stop := by
    rintro h hle ⟨k, hk, -⟩
    omega
  induction fuel generalizing h with
  | zero => exact ⟨h, true, rfl, htop, iff_of_false Bool.noConfusion (hnone (by omega))⟩
  | succ fuel ih =>
    unfold Heap.mapUpTo
    by_cases hlt : h.heapMapTop < stop
    · have hpage : h.heapMapTop / 0x1000 * 0x1000 = h.heapMapTop := by omega
      rw [if_pos hlt]
      simp only [hpage]
      by_cases hmap : sysMap h.heapMapTop = true
      · -- the page is one of user space
        have hbelow : h.heapMapTop < userVaEnd := by
          by_contra hge
          rw [hmaps _ (Nat.not_lt.1 hge)] at hmap
          cases hmap
        have hadd : checkedAdd h.heapMapTop 0x1000 = some (h.heapMapTop + 0x1000) := if_pos (by omega)
        obtain ⟨h', ok, hrec, htop', hok⟩ := ih (h := { h with
          heapMapTop := h.heapMapTop + 0x1000
          mapped := Function.update h.mapped h.heapMapTop true }) (by dsimp only; omega) (by dsimp only; omega)
          (by dsimp only; omega)
        refine ⟨h', ok, ?_, htop', hok.trans ⟨?_, ?_⟩⟩
        · rw [if_pos hmap, hadd]
          exact hrec
        · rintro ⟨k, hk, hfalse⟩
          dsimp only at hk hfalse
          refine ⟨k + 1, by omega, ?_⟩
          rwa [show h.heapMapTop + 0x1000 * (k + 1) = h.heapMapTop + 0x1000 + 0x1000 * k by omega]
        · rintro ⟨k, hk, hfalse⟩
          obtain ⟨j, rfl⟩ : ∃ j, k = j + 1 := by
            refine ⟨k - 1, (Nat.sub_add_cancel (Nat.pos_of_ne_zero ?_)).symm⟩
            rintro rfl
            rw [Nat.mul_zero, Nat.add_zero, hmap] at hfalse
            cases hfalse
          refine ⟨j, by dsimp only; omega, ?_⟩
          rwa [show h.heapMapTop + 0x1000 * (j + 1) = h.heapMapTop + 0x1000 + 0x1000 * j by omega] at hfalse
      · rw [if_neg hmap]
        refine ⟨h, false, rfl, htop, iff_of_true rfl ⟨0, by omega, ?_⟩⟩
        rw [Nat.mul_zero, Nat.add_zero]
        simpa using hmap
    · rw [if_neg hlt]
      exact ⟨h, true, rfl, htop, iff_of_false Bool.noConfusion (hnone (Nat.not_lt.1 hlt))⟩

/-! ### Carving -/

/-- An address that overflows stops the program; a page that is refused gives null; otherwise the block is there, and its
header has the low half of its size. -/
theorem carve_total (hblocks : Blocks h carved lists) (hmaps : UserPages sysMap) (htop : h.heapMapTop ≤ userVaEnd)
    (total : Nat) :
    (2 ^ 64 ≤ h.heapBump + total ∧ h.carve sysMap total = none) ∨
    (h.heapBump + total < 2 ^ 64 ∧ Refused sysMap h (h.heapBump + total) ∧ ∃ h', h.carve sysMap total = some (h', 0) ∧
      h'.heapMapTop ≤ userVaEnd ∧ h'.mem = h.mem ∧ Blocks h' carved lists) ∨
    (h.heapBump + total < 2 ^ 64 ∧ ¬ Refused sysMap h (h.heapBump + total) ∧
      ∃ h', h.carve sysMap total = some (h', h.heapBump + 16) ∧ h'.heapMapTop ≤ userVaEnd ∧
        h'.heapBump = h.heapBump + total ∧ h'.total h.heapBump = total % 2 ^ 32 ∧
        SameOutside h.mem h'.mem h.heapBump (h.heapBump + 16)) := by
  have hend := userVaEnd_eq
  have hle := hblocks.bump_le
  have haligned := hblocks.bump_aligned
  have hstart := hblocks.spans.le
  have hsum : checkedAdd h.heapBump hdrAlign = some (h.heapBump + 16) := if_pos (by unfold hdrAlign; omega)
  have heq : (h.heapBump + 16 - 1) / hdrAlign * hdrAlign = h.heapBump := by
    unfold hdrAlign
    omega
  unfold Heap.carve Heap.bumpAlloc Heap.ensureMapped
  rw [hsum]
  simp only [Option.bind_eq_bind, Option.bind_some, heq]
  by_cases hover : h.heapBump + total < 2 ^ 64
  · have hstop : checkedAdd h.heapBump total = some (h.heapBump + total) := if_pos hover
    obtain ⟨h1, ok, hmap, htop1, hok⟩ := mapUpTo_total (h := h) hmaps hblocks.top_aligned htop
      (Nat.le_refl (h.heapBump + total - h.heapMapTop))
    obtain ⟨hblocks1, hmem1, hbump1, -⟩ := hblocks.mapUpTo hmap (Nat.le_refl _)
    rw [hstop]
    simp only [Option.bind_some]
    rw [hmap]
    simp only [Option.bind_some]
    cases ok with
    | false =>
      refine .inr (.inl ⟨hover, hok.1 rfl, h1, ?_, htop1, hmem1, hblocks1⟩)
      rfl
    | true =>
      have hne : h.heapBump ≠ 0 := by
        unfold heapStart at hstart
        omega
      have hlow : total % 2 ^ 32 < 2 ^ 32 := Nat.mod_lt _ (by decide)
      refine .inr (.inr ⟨hover, fun href => Bool.noConfusion (hok.2 href),
        (((({ h1 with heapBump := h.heapBump + total } : Heap).setTotal h.heapBump (total % 2 ^ 32)).setFlags h.heapBump
          Heap.flagUsed).setRes h.heapBump 0), ?_, htop1, rfl, ?_, ?_⟩)
      · simp only [if_true, Option.bind_some, if_neg hne]
        rfl
      · rw [Heap.total_setRes, Heap.total_setFlags, Heap.total_setTotal _ _ hlow]
      · have hsame := ((Heap.sameOutside_setTotal ({ h1 with heapBump := h.heapBump + total } : Heap) h.heapBump
          (v := total % 2 ^ 32)).trans (Heap.sameOutside_setFlags _ h.heapBump (v := Heap.flagUsed))).trans
          (Heap.sameOutside_setRes _ h.heapBump (v := 0))
        exact hmem1 ▸ hsame
  · refine .inl ⟨Nat.not_lt.1 hover, ?_⟩
    rw [show checkedAdd h.heapBump total = none from if_neg hover]
    rfl

/-! ### Sizes that fit -/

/-- What `malloc` can serve: the block is below `2 ^ 32` bytes, or the kernel refuses it before an address overflows. -/
def Heap.Fits (sysMap : Nat → Bool) (h : Heap) (size : Nat) : Prop :=
  rounded size < 2 ^ 32 ∨
    (h.heapBump + rounded size < 2 ^ 64 ∧ Refused sysMap h (h.heapBump + rounded size))

private theorem lt_of_rounded {size : Nat} (h : rounded size < 2 ^ 32) : size < 2 ^ 32 - 31 := by
  unfold rounded at h
  omega

private theorem le_rounded (size : Nat) : size + 16 ≤ rounded size := by
  unfold rounded
  omega

/-- A block of a large size is carved. -/
private theorem malloc_large (sysMap : Nat → Bool) (hlarge : 2 ^ 32 ≤ rounded size) (hblocks : Blocks h carved lists) :
    h.malloc sysMap size = h.carve sysMap (rounded size) ∨ (2 ^ 64 ≤ h.heapBump + rounded size ∧ h.malloc sysMap size = none) := by
  have hstart := hblocks.spans.le
  have hbig : 2048 < size := by
    unfold rounded at hlarge
    omega
  have hclass : Heap.sizeClass size = none := by
    cases hci : Heap.sizeClass size with
    | none => rfl
    | some ci =>
      have hle := Heap.le_of_sizeClass hci
      have hmax := Heap.classSizes_le ci
      omega
  unfold Heap.malloc
  rw [if_neg (by omega), hclass]
  by_cases hsize : size + 32 < 2 ^ 64
  · left
    simp only
    rw [totalFor_eq hsize]
    rfl
  · right
    refine ⟨?_, ?_⟩
    · have hle := le_rounded size
      unfold heapStart at hstart
      omega
    · have hnone : Heap.totalFor size = none := by
        unfold Heap.totalFor
        by_cases hraw : hdrSize + size < 2 ^ 64
        · rw [show checkedAdd hdrSize size = some (hdrSize + size) from if_pos hraw]
          simp only [Option.bind_eq_bind, Option.bind_some]
          rw [show checkedAdd (hdrSize + size) hdrAlign = none from if_neg (by unfold hdrSize hdrAlign; omega)]
          rfl
        · rw [show checkedAdd hdrSize size = none from if_neg hraw]
          rfl
      simp only
      rw [hnone]
      rfl

/-- A small block is always there, or null. -/
private theorem malloc_small (hblocks : Blocks h carved lists) (hmaps : UserPages sysMap) (htop : h.heapMapTop ≤ userVaEnd)
    (hsmall : rounded size < 2 ^ 32) :
    ∃ h' q, h.malloc sysMap size = some (h', q) ∧ h'.heapMapTop ≤ userVaEnd := by
  have hend := userVaEnd_eq
  have hle := hblocks.bump_le
  have hcarve : ∀ n, n < 2 ^ 32 → ∃ h' q, h.carve sysMap n = some (h', q) ∧ h'.heapMapTop ≤ userVaEnd := by
    intro n hn
    rcases carve_total hblocks hmaps htop n with ⟨hover, -⟩ | ⟨-, -, h', hcarve, htop', -⟩ | ⟨-, -, h', hcarve, htop', -⟩
    · omega
    · exact ⟨h', 0, hcarve, htop'⟩
    · exact ⟨h', _, hcarve, htop'⟩
  unfold Heap.malloc
  by_cases hzero : size = 0
  · rw [if_pos hzero]
    exact ⟨h, 0, rfl, htop⟩
  · rw [if_neg hzero]
    cases hclass : Heap.sizeClass size with
    | some ci =>
      obtain ⟨n, htotal, hn, -⟩ := spanSize_of_class ci
      simp only
      rw [htotal]
      simp only [Option.bind_eq_bind, Option.bind_some]
      by_cases hhead : h.freeHeads ci ≠ 0
      · rw [if_pos hhead]
        exact ⟨_, _, rfl, htop⟩
      · rw [if_neg hhead]
        exact hcarve n hn.lt
    | none =>
      have hlt := lt_of_rounded hsmall
      simp only
      rw [totalFor_eq (by omega)]
      exact hcarve _ hsmall

/-- A size that fits is served: with null, or with a block below `2 ^ 32` bytes. -/
private theorem malloc_fits (hi : LiveBlocks h live carved lists) (hmaps : UserPages sysMap) (htop : h.heapMapTop ≤ userVaEnd)
    (hfits : h.Fits sysMap size) :
    ∃ h' q, h.malloc sysMap size = some (h', q) ∧ h'.heapMapTop ≤ userVaEnd ∧
      ((q = 0 ∧ HoldsFrom carved lists h' live) ∨
        (q ≠ 0 ∧ size < 2 ^ 32 - 31 ∧ HoldsFrom carved lists h' ((q, size) :: live))) := by
  by_cases hsmall : rounded size < 2 ^ 32
  · obtain ⟨h', q, hmalloc, htop'⟩ := malloc_small hi.blocks hmaps htop hsmall
    refine ⟨h', q, hmalloc, htop', ?_⟩
    rcases hi.malloc (lt_of_rounded hsmall) hmalloc with ⟨hq, -, hholds⟩ | ⟨hq, hholds, -⟩
    · exact .inl ⟨hq, hholds⟩
    · exact .inr ⟨hq, lt_of_rounded hsmall, hholds⟩
  · obtain ⟨hover, hrefused⟩ := hfits.resolve_left hsmall
    rcases malloc_large sysMap (Nat.not_lt.1 hsmall) hi.blocks with heq | ⟨hbig, -⟩
    · rcases carve_total hi.blocks hmaps htop (rounded size) with ⟨hbig, -⟩ | ⟨-, -, h', hcarve, htop', hmem, hblocks⟩ |
        ⟨-, hnot, -⟩
      · omega
      · refine ⟨h', 0, heq.trans hcarve, htop', .inl ⟨rfl, LiveBlocks.holdsFrom ⟨hblocks, fun x hx => ?_, hi.nodup⟩⟩⟩
        obtain ⟨s, hs, hptr, hle, hflags⟩ := hi.block x hx
        refine ⟨s, hs, hptr, hle, ?_⟩
        unfold Heap.flags
        rw [hmem]
        exact hflags
      · exact absurd hrefused hnot
    · omega

/-- For any other size the program stops, or the header of the block has the low half of its size only. -/
private theorem malloc_unfit (hblocks : Blocks h carved lists) (hmaps : UserPages sysMap) (htop : h.heapMapTop ≤ userVaEnd)
    (hunfit : ¬ h.Fits sysMap size) :
    2 ^ 32 ≤ rounded size ∧ (h.malloc sysMap size = none ∨ ∃ h', h.malloc sysMap size = some (h', h.heapBump + 16) ∧
      h'.heapBump = h.heapBump + rounded size ∧ h'.total h.heapBump = rounded size % 2 ^ 32 ∧
      SameOutside h.mem h'.mem h.heapBump (h.heapBump + 16)) := by
  have hlarge : 2 ^ 32 ≤ rounded size := Nat.not_lt.1 fun hlt => hunfit (.inl hlt)
  refine ⟨hlarge, ?_⟩
  rcases malloc_large sysMap hlarge hblocks with heq | ⟨-, hnone⟩
  · rw [heq]
    rcases carve_total hblocks hmaps htop (rounded size) with ⟨-, hnone⟩ | ⟨hover, hrefused, -⟩ |
      ⟨-, -, h', hcarve, -, hbump, htotal, hsame⟩
    · exact .inl hnone
    · exact absurd (.inr ⟨hover, hrefused⟩) hunfit
    · exact .inr ⟨h', hcarve, hbump, htotal, hsame⟩
  · exact .inl hnone

theorem covers_of_holds (hholds : Holds h live) (hmem : (q, size) ∈ live) : Covers h size q := by
  obtain ⟨carved, lists, hi⟩ := hholds
  obtain ⟨s, hs, hptr, hle, -⟩ := hi.block _ hmem
  exact .inr ⟨carved, hi.blocks.spans, hi.blocks.total, s, hs, hptr, hle⟩

/-- A header with the low half of a large size does not cover the block. -/
private theorem not_covers {b : Nat} (hlarge : 2 ^ 32 ≤ rounded size) (htotal : h.total b = rounded size % 2 ^ 32) :
    ¬ Covers h size (b + 16) := by
  rintro (hzero | ⟨blocks, -, hsizes, s, hs, hptr, hle⟩)
  · omega
  · have hb : s.1 = b := by
      rw [Heap.userPtr_eq] at hptr
      omega
    have hsize := hsizes s hs
    rw [hb, htotal] at hsize
    have hlt : rounded size < size + 32 := by
      unfold rounded
      omega
    unfold hdrSize at hle
    omega

/-- `free` writes to the header and to the link behind it only. -/
theorem free_frame {p : Nat} (hp : 16 ≤ p) (hfree : h.free p = some h') :
    SameOutside h.mem h'.mem (p - 16) (p + 8) ∧ h'.heapBump = h.heapBump ∧ h'.heapMapTop = h.heapMapTop := by
  have hflags : SameOutside h.mem (h.setFlags (p - 16) 0).mem (p - 16) (p + 8) :=
    (Heap.sameOutside_setFlags h (p - 16)).mono (Nat.le_refl _) (by omega)
  unfold Heap.free at hfree
  rw [if_neg (by omega)] at hfree
  dsimp only at hfree
  split at hfree
  · cases hfree
    exact ⟨.refl _ _ _, rfl, rfl⟩
  · obtain ⟨n, -, hfree⟩ := Option.bind_eq_some_iff.1 hfree
    split at hfree
    · cases hfree
      have hlink := sameOutside_write (h.setFlags (p - 16) 0).mem p 8 ((h.setFlags (p - 16) 0).freeHeads ‹_›)
      exact ⟨hflags.trans (hlink.mono (by omega) (Nat.le_refl _)), rfl, rfl⟩
    · cases hfree
      exact ⟨hflags, rfl, rfl⟩

end Pages

/-! ### Calls -/

/-- The size that a call asks for. -/
def Call.size : Call → Nat
  | .malloc _ size => size
  | .calloc _ nmemb size => nmemb * size
  | .realloc _ _ size => size
  | .free _ => 0
  | .store _ _ => 0

namespace Client

/-- Pointers were returned and not freed, stores stay within a live block, and the kernel maps user pages. -/
def Proper (c : Client) : Call → Prop
  | .malloc sysMap _ => UserPages sysMap
  | .calloc sysMap _ _ => UserPages sysMap
  | .realloc sysMap ptr _ => UserPages sysMap ∧ (ptr = 0 ∨ ptr ∈ c.live.map Prod.fst)
  | .free ptr => ptr = 0 ∨ ptr ∈ c.live.map Prod.fst
  | .store addr _ => ∃ x ∈ c.live, x.1 ≤ addr ∧ addr < x.1 + x.2

/-- What the calls can serve: a size that `malloc` can serve, a product that does not fit 64 bits, or a size for which the
block at hand is enough. -/
def Fits (c : Client) : Call → Prop
  | .malloc sysMap size => c.heap.Fits sysMap size
  | .calloc sysMap nmemb size => 2 ^ 64 ≤ nmemb * size ∨ c.heap.Fits sysMap (nmemb * size)
  | .realloc sysMap ptr size =>
    (ptr ≠ 0 ∧ size + hdrSize ≤ c.heap.total (Heap.fromUser ptr)) ∨ c.heap.Fits sysMap size
  | .free _ => True
  | .store _ _ => True

/-- The invariant: the live blocks are sound, and the heap is in user space. -/
structure Good (carved : List (Nat × Nat)) (lists : Fin numClasses → List Nat) (c : Client) : Prop where
  live : LiveBlocks c.heap c.live carved lists
  top : c.heap.heapMapTop ≤ userVaEnd

/-- The invariant, for blocks and lists that have come from the given ones. -/
def GoodFrom (carved : List (Nat × Nat)) (lists : Fin numClasses → List Nat) (c : Client) : Prop :=
  HoldsFrom carved lists c.heap c.live ∧ c.heap.heapMapTop ≤ userVaEnd

theorem GoodFrom.good {carved : List (Nat × Nat)} {lists : Fin numClasses → List Nat} {c : Client}
    (h : GoodFrom carved lists c) : ∃ carved' lists', Good carved' lists' c ∧ Evolves carved lists carved' lists' := by
  obtain ⟨⟨carved', lists', hi, hev⟩, htop⟩ := h
  exact ⟨carved', lists', ⟨hi, htop⟩, hev⟩

section Calls

variable {carved : List (Nat × Nat)} {lists : Fin numClasses → List Nat} {c d : Client} {sysMap : Nat → Bool}
  {size ptr q : Nat}

private theorem malloc_good (hgood : Good carved lists c) (hmaps : UserPages sysMap) (hfits : c.heap.Fits sysMap size) :
    ∃ h q, c.heap.malloc sysMap size = some (h, q) ∧ GoodFrom carved lists ⟨h, record c.live q size⟩ ∧
      Covers h size q := by
  obtain ⟨h, q, hmalloc, htop, ⟨rfl, hholds⟩ | ⟨hne, -, hholds⟩⟩ := malloc_fits hgood.live hmaps hgood.top hfits
  · exact ⟨h, 0, hmalloc, ⟨hholds, htop⟩, .inl rfl⟩
  · refine ⟨h, q, hmalloc, ?_, covers_of_holds hholds.holds List.mem_cons_self⟩
    rw [record_of_ne hne]
    exact ⟨hholds, htop⟩

private theorem calloc_good {nmemb : Nat} (hgood : Good carved lists c) (hmaps : UserPages sysMap)
    (hfits : 2 ^ 64 ≤ nmemb * size ∨ c.heap.Fits sysMap (nmemb * size)) :
    ∃ h q, c.heap.calloc sysMap nmemb size = some (h, q) ∧ GoodFrom carved lists ⟨h, record c.live q (nmemb * size)⟩ ∧
      Covers h (nmemb * size) q := by
  by_cases hproduct : nmemb * size < 2 ^ 64 ∧ 0 < nmemb * size
  · obtain ⟨h, q, hmalloc, htop, hout⟩ := malloc_fits hgood.live hmaps hgood.top (hfits.resolve_left (by omega))
    have hcalloc : c.heap.calloc sysMap nmemb size =
        if q ≠ 0 then some ({ h with mem := h.mem.fill q (nmemb * size) 0 }, q) else some (h, q) := by
      unfold Heap.calloc
      rw [if_pos hproduct, hmalloc]
      rfl
    rcases hout with ⟨rfl, hholds⟩ | ⟨hne, hsmall, -⟩
    · exact ⟨h, 0, hcalloc.trans (if_neg (not_not_intro rfl)), ⟨hholds, htop⟩, .inl rfl⟩
    · rw [if_pos hne] at hcalloc
      have hholds := hgood.live.calloc (.inl hsmall) hcalloc
      refine ⟨_, q, hcalloc, ⟨hholds, htop⟩, covers_of_holds hholds.holds ?_⟩
      rw [record_of_ne hne]
      exact List.mem_cons_self
  · have hcalloc : c.heap.calloc sysMap nmemb size = some (c.heap, 0) := if_neg hproduct
    exact ⟨c.heap, 0, hcalloc, ⟨hgood.live.holdsFrom, hgood.top⟩, .inl rfl⟩

private theorem free_good (hgood : Good carved lists c) {x : Nat × Nat} (hx : x ∈ c.live) :
    ∃ h, c.heap.free x.1 = some h ∧ GoodFrom carved lists ⟨h, without c.live x.1⟩ := by
  obtain ⟨s, hs, hptr, -, hused⟩ := hgood.live.block x hx
  have hfree := hgood.live.blocks.free_eq hs hused
  rw [← hptr] at hfree
  refine ⟨_, hfree, (hgood.live.free hx hfree).1, ?_⟩
  rw [(free_frame (by omega) hfree).2.2]
  exact hgood.top

/-- What `realloc` does for a live block. -/
private theorem realloc_live (sysMap : Nat → Bool) (hgood : Good carved lists c) {x : Nat × Nat} (hx : x ∈ c.live) (hzero : size ≠ 0) :
    ∃ old, c.heap.total (Heap.fromUser x.1) = old + hdrSize ∧ c.heap.realloc sysMap x.1 size =
      if size ≤ old then some (c.heap, x.1)
      else (c.heap.malloc sysMap size).bind fun out =>
        if out.2 = 0 then some (out.1, 0)
        else (Heap.free { out.1 with mem := out.1.mem.copy x.1 out.2 old } x.1).bind fun h => some (h, out.2) := by
  obtain ⟨s, hs, hptr, -, -⟩ := hgood.live.block x hx
  have hspan := (hgood.live.blocks.size s hs).le
  have htotal : c.heap.total (Heap.fromUser x.1) = s.2 := by
    rw [hptr, Heap.fromUser_add, hgood.live.blocks.total s hs]
  refine ⟨s.2 - 16, by rw [htotal]; unfold hdrSize; omega, ?_⟩
  unfold Heap.realloc
  rw [if_neg (hgood.live.ne_zero hx), if_neg hzero, htotal,
    show Libc.checkedSub s.2 hdrSize = some (s.2 - 16) from if_pos (by unfold hdrSize; omega)]
  rfl

private theorem realloc_good (hgood : Good carved lists c) (hmaps : UserPages sysMap) {x : Nat × Nat} (hx : x ∈ c.live)
    (hfits : size + hdrSize ≤ c.heap.total (Heap.fromUser x.1) ∨ c.heap.Fits sysMap size) :
    ∃ h q, c.heap.realloc sysMap x.1 size = some (h, q) ∧
      GoodFrom carved lists ⟨h, record (if size = 0 ∨ q ≠ 0 then without c.live x.1 else c.live) q size⟩ ∧
      Covers h size q := by
  have hne := hgood.live.ne_zero hx
  by_cases hzero : size = 0
  · obtain ⟨h, hfree, hfrom⟩ := free_good hgood hx
    have hrealloc : c.heap.realloc sysMap x.1 size = some (h, 0) := by
      unfold Heap.realloc
      rw [if_neg hne, if_pos hzero, hfree]
      rfl
    refine ⟨h, 0, hrealloc, ?_, .inl rfl⟩
    rw [if_pos (.inl hzero)]
    exact hfrom
  -- with a pointer there is a block for it
  have hresult : ∀ {h q}, c.heap.realloc sysMap x.1 size = some (h, q) → h.heapMapTop ≤ userVaEnd →
      (size + 16 ≤ c.heap.total (x.1 - 16) ∨ size < 2 ^ 32 - 31) → q ≠ 0 →
      ∃ h q, c.heap.realloc sysMap x.1 size = some (h, q) ∧
        GoodFrom carved lists ⟨h, record (if size = 0 ∨ q ≠ 0 then without c.live x.1 else c.live) q size⟩ ∧
        Covers h size q := by
    intro h q hrealloc htop hsize hq
    have hholds := (hgood.live.realloc hx hsize hrealloc).1
    refine ⟨h, q, hrealloc, ⟨hholds, htop⟩, covers_of_holds hholds.holds ?_⟩
    rw [record_of_ne hq]
    exact List.mem_cons_self
  obtain ⟨old, htotal, hrealloc⟩ := realloc_live sysMap hgood hx hzero
  by_cases hold : size ≤ old
  · rw [if_pos hold] at hrealloc
    refine hresult hrealloc hgood.top (.inl ?_) hne
    rw [show x.1 - 16 = Heap.fromUser x.1 from rfl, htotal]
    unfold hdrSize
    omega
  · rw [if_neg hold] at hrealloc
    have hfits : c.heap.Fits sysMap size := by
      refine hfits.resolve_left ?_
      rw [htotal]
      omega
    obtain ⟨h₁, q, hmalloc, htop, hout⟩ := malloc_fits hgood.live hmaps hgood.top hfits
    rw [hmalloc] at hrealloc
    simp only [Option.bind_some] at hrealloc
    rcases hout with ⟨rfl, hholds⟩ | ⟨hq, hsmall, hholds⟩
    · rw [if_pos rfl] at hrealloc
      refine ⟨h₁, 0, hrealloc, ?_, .inl rfl⟩
      rw [if_neg (by omega)]
      exact ⟨hholds, htop⟩
    · rw [if_neg hq] at hrealloc
      obtain ⟨carved₁, lists₁, hi₁, -⟩ := hholds
      obtain ⟨t, ht, hptr, hle, hused⟩ := hi₁.block _ List.mem_cons_self
      obtain ⟨s, hs, hptr', -, -⟩ := hgood.live.block x hx
      have hspan : old + hdrSize = s.2 := by
        rw [← htotal, hptr', Heap.fromUser_add, hgood.live.blocks.total s hs]
      dsimp only at hptr hle
      unfold hdrSize at hspan
      have hi₂ := hi₁.write_user ht hused ((sameOutside_copy h₁.mem x.1 q old).mono (by omega) (by omega))
      have hgood₂ : Good carved₁ lists₁ ⟨{ h₁ with mem := h₁.mem.copy x.1 q old }, (q, size) :: c.live⟩ := ⟨hi₂, htop⟩
      obtain ⟨h₂, hfree, -, htop₂⟩ := free_good hgood₂ (List.mem_cons_of_mem _ hx)
      rw [hfree] at hrealloc
      exact hresult hrealloc htop₂ (.inr hsmall) hq

/-- A call that fits returns, covers its size and keeps the invariant. -/
theorem good_step {call : Call} (hgood : Good carved lists c) (hproper : c.Proper call) (hfits : c.Fits call) :
    ∃ d q, c.step call = some (d, q) ∧ Covers d.heap call.size q ∧ GoodFrom carved lists d := by
  cases call with
  | malloc sysMap size =>
    obtain ⟨h, q, hcall, hfrom, hcovers⟩ := malloc_good hgood hproper hfits
    exact ⟨_, q, by rw [step, hcall]; rfl, hcovers, hfrom⟩
  | calloc sysMap nmemb size =>
    obtain ⟨h, q, hcall, hfrom, hcovers⟩ := calloc_good hgood hproper hfits
    exact ⟨_, q, by rw [step, hcall]; rfl, hcovers, hfrom⟩
  | realloc sysMap ptr size =>
    obtain ⟨hmaps, rfl | hptr⟩ := hproper
    · have hfits : c.heap.Fits sysMap size := hfits.resolve_left fun h => h.1 rfl
      obtain ⟨h, q, hcall, hfrom, hcovers⟩ := malloc_good hgood hmaps hfits
      have hcall : c.heap.realloc sysMap 0 size = some (h, q) := hcall
      refine ⟨_, q, by rw [step, hcall]; rfl, hcovers, ?_⟩
      rw [hgood.live.without_zero, ite_self]
      exact hfrom
    · obtain ⟨x, hx, rfl⟩ := List.mem_map.1 hptr
      obtain ⟨h, q, hcall, hfrom, hcovers⟩ := realloc_good hgood hmaps hx (hfits.imp_left And.right)
      exact ⟨_, q, by rw [step, hcall]; rfl, hcovers, hfrom⟩
  | free ptr =>
    rcases hproper with rfl | hptr
    · have hfree : c.heap.free 0 = some c.heap := rfl
      refine ⟨_, 0, by rw [step, hfree]; rfl, .inl rfl, ?_⟩
      rw [hgood.live.without_zero]
      exact ⟨hgood.live.holdsFrom, hgood.top⟩
    · obtain ⟨x, hx, rfl⟩ := List.mem_map.1 hptr
      obtain ⟨h, hfree, hfrom⟩ := free_good hgood hx
      exact ⟨_, 0, by rw [step, hfree]; rfl, .inl rfl, hfrom⟩
  | store addr byte =>
    obtain ⟨x, hx, hlo, hhi⟩ := hproper
    obtain ⟨s, hs, hptr, hle, hused⟩ := hgood.live.block x hx
    have hi := hgood.live.write_user hs hused ((sameOutside_fill c.heap.mem addr 1 byte).mono (by omega) (by omega))
    exact ⟨_, 0, rfl, .inl rfl, hi.holdsFrom, hgood.top⟩

/-- A call that does not fit stops the program, or its block is not covered by its header. -/
private theorem unfit_step {call : Call} (hgood : Good carved lists c) (hproper : c.Proper call) (hunfit : ¬ c.Fits call) :
    ¬ ∃ d q, c.step call = some (d, q) ∧ Covers d.heap call.size q := by
  rintro ⟨d, q, hstep, hcovers⟩
  cases call with
  | malloc sysMap size =>
    obtain ⟨hlarge, hnone | ⟨h, hcall, -, htotal, -⟩⟩ := malloc_unfit hgood.live.blocks hproper hgood.top hunfit
    · rw [step, hnone] at hstep
      cases hstep
    · rw [step, hcall] at hstep
      cases hstep
      exact not_covers hlarge htotal hcovers
  | calloc sysMap nmemb size =>
    obtain ⟨hproduct, hunfit⟩ := not_or.1 hunfit
    obtain ⟨hlarge, hout⟩ := malloc_unfit hgood.live.blocks hproper hgood.top hunfit
    have hpos : 0 < nmemb * size := by
      unfold rounded at hlarge
      omega
    rcases hout with hnone | ⟨h, hcall, -, htotal, -⟩
    · rw [step, Heap.calloc, if_pos ⟨by omega, hpos⟩, hnone] at hstep
      cases hstep
    · rw [step, Heap.calloc, if_pos ⟨by omega, hpos⟩, hcall] at hstep
      have hq : c.heap.heapBump + 16 ≠ 0 := by omega
      simp only [Option.bind_eq_bind, Option.bind_some, if_pos hq] at hstep
      cases hstep
      refine not_covers hlarge (b := c.heap.heapBump) ?_ hcovers
      rw [← htotal]
      exact (sameOutside_fill _ _ _ _).read_eq (.inl (by omega))
  | realloc sysMap ptr size =>
    obtain ⟨hgrow, hunfit⟩ := not_or.1 hunfit
    obtain ⟨hmaps, hptr⟩ := hproper
    obtain ⟨hlarge, hout⟩ := malloc_unfit hgood.live.blocks hmaps hgood.top hunfit
    by_cases hzero : ptr = 0
    · subst hzero
      have hrealloc : c.heap.realloc sysMap 0 size = c.heap.malloc sysMap size := rfl
      rcases hout with hnone | ⟨h, hcall, -, htotal, -⟩
      · rw [step, hrealloc, hnone] at hstep
        cases hstep
      · rw [step, hrealloc, hcall] at hstep
        cases hstep
        exact not_covers hlarge htotal hcovers
    · obtain ⟨x, hx, rfl⟩ := List.mem_map.1 (hptr.resolve_left hzero)
      have hne : size ≠ 0 := by
        unfold rounded at hlarge
        omega
      obtain ⟨old, htotal, hrealloc⟩ := realloc_live sysMap hgood hx hne
      have hnot : ¬ size ≤ old := by
        intro hle
        refine hgrow ⟨hzero, ?_⟩
        rw [htotal]
        omega
      rw [if_neg hnot] at hrealloc
      rcases hout with hnone | ⟨h, hcall, hbump, hhead, -⟩
      · rw [step, hrealloc, hnone] at hstep
        cases hstep
      · have hq : c.heap.heapBump + 16 ≠ 0 := by omega
        rw [hcall] at hrealloc
        simp only [Option.bind_some, if_neg hq] at hrealloc
        obtain ⟨⟨h', q'⟩, hcall', heq⟩ := Option.map_eq_some_iff.1 hstep
        rw [hrealloc] at hcall'
        obtain ⟨h₂, hfree, heq'⟩ := Option.bind_eq_some_iff.1 hcall'
        cases heq'
        cases heq
        -- the new header is neither in the bytes that are copied nor in the block that is freed
        obtain ⟨s, hs, hptr', -, -⟩ := hgood.live.block x hx
        have hspan := (hgood.live.blocks.size s hs).le
        have hbounds := hgood.live.blocks.spans.bounds hs
        have hframe := (free_frame (by omega) hfree).1
        refine not_covers hlarge (b := c.heap.heapBump) ?_ hcovers
        rw [← hhead]
        exact (hframe.read_eq (.inr (by omega))).trans ((sameOutside_copy _ _ _ _).read_eq (.inl (by omega)))
  | free ptr => exact hunfit trivial
  | store addr byte => exact hunfit trivial

/-! ### Runs -/

/-- A run of proper calls that fit. -/
def Serves (c : Client) (call : Call) : Prop := c.Proper call ∧ c.Fits call

theorem good_new (mem : ByteMemory) : Good [] (fun _ => []) (new mem) :=
  ⟨⟨blocks_new mem, fun x hx => (by cases hx), List.nodup_nil⟩, (by decide : heapStart ≤ userVaEnd)⟩

theorem good_of_run {es : List (Call × Nat)} {s : Client} (h : Run step Serves s es c)
    (hgood : Good carved lists s) : ∃ carved' lists', Good carved' lists' c ∧ Evolves carved lists carved' lists' := by
  refine h.invariant (P := fun c => ∃ carved' lists', Good carved' lists' c ∧ Evolves carved lists carved' lists') ?_
    ⟨carved, lists, hgood, .refl _ _⟩
  rintro c d call q ⟨carved₁, lists₁, hgood₁, hev₁⟩ ⟨hproper, hfits⟩ hstep
  obtain ⟨d', q', hstep', -, hfrom⟩ := good_step hgood₁ hproper hfits
  rw [hstep] at hstep'
  cases hstep'
  obtain ⟨carved₂, lists₂, hgood₂, hev₂⟩ := hfrom.good
  exact ⟨carved₂, lists₂, hgood₂, hev₁.trans hev₂⟩

/-- In every state that is reached, the live blocks are covered, and the next call returns null or a block that is covered
exactly if it fits. -/
theorem covers_iff {mem : ByteMemory} {es : List (Call × Nat)} (h : Run step Serves (new mem) es c) :
    (∀ x ∈ c.live, Covers c.heap x.2 x.1) ∧ ∀ call, c.Proper call →
      ((∃ d q, c.step call = some (d, q) ∧ Covers d.heap call.size q) ↔ c.Fits call) := by
  obtain ⟨carved, lists, hgood, -⟩ := good_of_run h (good_new mem)
  refine ⟨fun x hx => covers_of_holds ⟨carved, lists, hgood.live⟩ hx, fun call hproper => ⟨fun hcall => ?_, fun hfits => ?_⟩⟩
  · by_contra hunfit
    exact unfit_step hgood hproper hunfit hcall
  · obtain ⟨d, q, hstep, hcovers, -⟩ := good_step hgood hproper hfits
    exact ⟨d, q, hstep, hcovers⟩

end Calls

/-- The kernel maps every page of user space. -/
def mapsUser (page : Nat) : Bool := decide (page < userVaEnd)

theorem userPages_mapsUser : UserPages mapsUser := fun _ hpage => decide_eq_false (Nat.not_lt.2 hpage)

/-- A block for ten bytes is there, and one for 5000 is asked for. -/
theorem covers_iff_grown : ∃ c : Client, (∀ x ∈ c.live, Covers c.heap x.2 x.1) ∧ c.live = [(0x800010, 10)] ∧
    ((∃ d q, c.step (.malloc mapsUser 5000) = some (d, q) ∧ Covers d.heap 5000 q) ↔
      c.Fits (.malloc mapsUser 5000)) := by
  have hserves : Serves (new fun _ => 0) (.malloc mapsUser 10) := ⟨userPages_mapsUser, .inl (by decide)⟩
  have hstep : (step (new fun _ => 0) (.malloc mapsUser 10)).any (fun out => out.1.live = [(0x800010, 10)]) = true := by
    decide
  obtain ⟨⟨c, q⟩, hc, hlive⟩ := (Option.any_eq_true _ _).1 hstep
  obtain ⟨hcovers, hiff⟩ := covers_iff (.single hserves hc)
  exact ⟨c, hcovers, of_decide_eq_true hlive, hiff (.malloc mapsUser 5000) userPages_mapsUser⟩

/-- The greatest size stops the program. -/
theorem malloc_max_not_covered : ¬ ∃ d q, (new fun _ => 0).step (.malloc mapsUser (2 ^ 64 - 1)) = some (d, q) ∧
    Covers d.heap (2 ^ 64 - 1) q := by
  have hstep : (new fun _ => 0).step (.malloc mapsUser (2 ^ 64 - 1)) = none := by decide
  rintro ⟨d, q, hcall, -⟩
  rw [hstep] at hcall
  cases hcall

end Client

end Rost.Libc
