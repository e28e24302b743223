import Rost.Libc.Malloc
import Mathlib.Tactic.IntervalCases

/-!
# The blocks of the heap

The invariant of the allocator: the carved blocks fill the range up to the bump pointer, their headers state their sizes,
and the free lists thread through blocks that are marked as free.  Taking a block from a list, carving a new one and freeing
one keep it; each of them writes to the one block only (`Blocks.reuse`, `Blocks.carve`, `Blocks.free`).
-/

namespace Rost.Libc

open Lib (ByteMemory FreeLists Spans)
open Lib.ByteMemory (SameOutside sameOutside_write read_write_self)

namespace Heap

@[simp] theorem userPtr_eq (hdr : Nat) : userPtr hdr = hdr + 16 := rfl

@[simp] theorem fromUser_add (hdr : Nat) : fromUser (hdr + 16) = hdr := rfl

theorem le_of_sizeClass {n : Nat} {ci : Fin numClasses} (h : sizeClass n = some ci) : n ≤ classSizes.get ci := by
  have hle := List.find?_some (p := fun ci : Fin numClasses => decide (n ≤ classSizes.get ci)) h
  exact of_decide_eq_true hle

theorem classSizes_le (ci : Fin numClasses) : classSizes.get ci ≤ 2048 := by
  revert ci
  decide

theorem lt_of_sizeClass {n : Nat} (h : sizeClass n = none) : 2048 < n := by
  have hlast := List.find?_eq_none.1 h (⟨8, by decide⟩ : Fin numClasses) (List.mem_finRange _)
  have hsize : classSizes.get (⟨8, by decide⟩ : Fin numClasses) = 2048 := rfl
  rw [hsize, decide_eq_true_eq] at hlast
  omega

/-! ### Writes to the header -/

variable (h : Heap) (hdr : Nat) {v : Nat}

theorem sameOutside_setTotal : SameOutside h.mem (h.setTotal hdr v).mem hdr (hdr + 16) :=
  (sameOutside_write h.mem hdr 4 v).mono (by omega) (by omega)

theorem sameOutside_setFlags : SameOutside h.mem (h.setFlags hdr v).mem hdr (hdr + 16) :=
  (sameOutside_write h.mem (hdr + 4) 4 v).mono (by omega) (by omega)

theorem sameOutside_setRes : SameOutside h.mem (h.setRes hdr v).mem hdr (hdr + 16) :=
  (sameOutside_write h.mem (hdr + 8) 8 v).mono (by omega) (by omega)

theorem total_setTotal (hv : v < 2 ^ 32) : (h.setTotal hdr v).total hdr = v := read_write_self _ _ hv

theorem total_setFlags : (h.setFlags hdr v).total hdr = h.total hdr :=
  (sameOutside_write h.mem (hdr + 4) 4 v).read_eq (by omega)

theorem total_setRes : (h.setRes hdr v).total hdr = h.total hdr :=
  (sameOutside_write h.mem (hdr + 8) 8 v).read_eq (by omega)

theorem flags_setFlags (hv : v < 2 ^ 32) : (h.setFlags hdr v).flags hdr = v := read_write_self _ _ hv

theorem flags_setRes : (h.setRes hdr v).flags hdr = h.flags hdr :=
  (sameOutside_write h.mem (hdr + 8) 8 v).read_eq (by omega)

end Heap

open Heap (sizeClass totalFor)

/-- A size that `totalFor` gives: when the block is freed, it goes to a class that its user data covers. -/
structure SpanSize (n : Nat) : Prop where
  aligned : n % 16 = 0
  le : 32 ≤ n
  lt : n < 2 ^ 32
  covers : ∀ ci, sizeClass (n - 16) = some ci → classSizes.get ci + 16 ≤ n

theorem spanSize_of_class (ci : Fin numClasses) :
    ∃ n, totalFor (classSizes.get ci) = some n ∧ SpanSize n ∧ classSizes.get ci + 16 ≤ n := by
  have hall : ∀ ci : Fin numClasses, ∃ n ∈ totalFor (classSizes.get ci), (n % 16 = 0 ∧ 32 ≤ n ∧ n < 2 ^ 32 ∧
      ∀ cj, sizeClass (n - 16) = some cj → classSizes.get cj + 16 ≤ n) ∧ classSizes.get ci + 16 ≤ n := by decide
  obtain ⟨n, htotal, ⟨haligned, hle, hlt, hcovers⟩, hfits⟩ := hall ci
  exact ⟨n, htotal, ⟨haligned, hle, hlt, hcovers⟩, hfits⟩

theorem totalFor_eq {size : Nat} (h : size + 32 < 2 ^ 64) : totalFor size = some ((size + 31) / 16 * 16) := by
  have hraw : Libc.checkedAdd hdrSize size = some (16 + size) := if_pos (by unfold hdrSize; omega)
  have hsum : Libc.checkedAdd (16 + size) hdrAlign = some (16 + size + 16) := if_pos (by unfold hdrAlign; omega)
  unfold totalFor
  rw [hraw]
  simp only [Option.bind_eq_bind, Option.bind_some]
  rw [hsum]
  simp only [Option.bind_some, hdrAlign]
  congr 3
  omega

theorem spanSize_of_large {size total : Nat} (h : size < 2 ^ 32 - 31) (hlarge : sizeClass size = none)
    (htotal : totalFor size = some total) : SpanSize total ∧ size + 16 ≤ total := by
  have hlt := Heap.lt_of_sizeClass hlarge
  rw [totalFor_eq (by omega), Option.some_inj] at htotal
  have hfits : size + 16 ≤ total := by omega
  refine ⟨⟨by omega, by omega, by omega, fun ci hci => ?_⟩, hfits⟩
  have hle := Heap.le_of_sizeClass hci
  have hmax := Heap.classSizes_le ci
  omega

/-- The blocks `carved`, given by the address of their header and their size, and the lists of free blocks. -/
structure Blocks (h : Heap) (carved : List (Nat × Nat)) (lists : Fin numClasses → List Nat) : Prop where
  spans : Spans heapStart h.heapBump carved
  size : ∀ s ∈ carved, SpanSize s.2
  aligned : ∀ s ∈ carved, s.1 % 16 = 0
  total : ∀ s ∈ carved, h.total s.1 = s.2
  bump_aligned : h.heapBump % 16 = 0
  bump_lt : h.heapBump < 2 ^ 64
  bump_le : h.heapBump ≤ h.heapMapTop
  top_aligned : h.heapMapTop % 0x1000 = 0
  mapped : ∀ a, heapStart ≤ a → a < h.heapMapTop → h.mapped (a / 0x1000 * 0x1000) = true
  links : FreeLists h.next h.freeHeads lists
  free : ∀ ci, ∀ b ∈ lists ci, ∃ n, (b, n) ∈ carved ∧ h.flags b = 0 ∧ classSizes.get ci + 16 ≤ n

theorem blocks_new (mem : ByteMemory) : Blocks (.new mem) [] fun _ => [] where
  spans := rfl
  size s hs := by cases hs
  aligned s hs := by cases hs
  total s hs := by cases hs
  bump_aligned := (by decide : heapStart % 16 = 0)
  bump_lt := (by decide : heapStart < 2 ^ 64)
  bump_le := Nat.le_refl _
  top_aligned := (by decide : heapStart % 0x1000 = 0)
  mapped a hle hlt := absurd hlt (Nat.not_lt.2 hle)
  links := ⟨fun _ => rfl, fun _ => List.nodup_nil, fun _ _ _ b hb => by cases hb⟩
  free ci b hb := by cases hb

namespace Blocks

variable {h h' : Heap} {carved : List (Nat × Nat)} {lists : Fin numClasses → List Nat} {s t : Nat × Nat}

/-- A free block is not one that is marked as used. -/
theorem not_mem_lists (hblocks : Blocks h carved lists) {b : Nat} (hused : h.flags b = 1) (ci : Fin numClasses) :
    b ∉ lists ci := by
  intro hb
  obtain ⟨n, -, hflags, -⟩ := hblocks.free ci b hb
  omega

/-- The header of `b` and the link behind it are the same. -/
structure SameBlock (h h' : Heap) (b : Nat) : Prop where
  total : h'.total b = h.total b
  flags : h'.flags b = h.flags b
  next : h'.next b = h.next b

theorem sameBlock_of_sameOutside {lo hi b : Nat} (hsame : SameOutside h.mem h'.mem lo hi) (hout : b + 32 ≤ lo ∨ hi ≤ b) :
    SameBlock h h' b := by
  refine ⟨hsame.read_eq ?_, hsame.read_eq ?_, hsame.read_eq ?_⟩
  · omega
  · omega
  · rw [Heap.userPtr_eq]
    omega

/-- What is done within a block does not change the other blocks. -/
theorem sameBlock {lo hi : Nat} (hspans : Spans lo hi carved) (hsize : ∀ s ∈ carved, SpanSize s.2) (hs : s ∈ carved)
    (hsame : SameOutside h.mem h'.mem s.1 (s.1 + s.2)) (ht : t ∈ carved) (hne : t.1 ≠ s.1) : SameBlock h h' t.1 := by
  apply sameBlock_of_sameOutside hsame
  have hle := (hsize t ht).le
  rcases hspans.apart hs ht with rfl | hst
  · exact absurd rfl hne
  · omega

theorem modify (hblocks : Blocks h carved lists) (hs : s ∈ carved) (hsame : SameOutside h.mem h'.mem s.1 (s.1 + s.2))
    (hbump : h'.heapBump = h.heapBump) (htop : h'.heapMapTop = h.heapMapTop) (hmapped : h'.mapped = h.mapped)
    (htotal : h'.total s.1 = s.2) {lists' : Fin numClasses → List Nat} (hlinks : FreeLists h'.next h'.freeHeads lists')
    (hfree : ∀ ci, ∀ b ∈ lists' ci, (b ∈ lists ci ∧ b ≠ s.1) ∨ (b = s.1 ∧ h'.flags b = 0 ∧ classSizes.get ci + 16 ≤ s.2)) :
    Blocks h' carved lists' where
  spans := hbump ▸ hblocks.spans
  size := hblocks.size
  aligned := hblocks.aligned
  total t ht := by
    by_cases hne : t.1 = s.1
    · have heq := hblocks.spans.eq_of_fst_eq ht hs hne
      rw [heq]
      exact htotal
    · rw [(sameBlock hblocks.spans hblocks.size hs hsame ht hne).total]
      exact hblocks.total t ht
  bump_aligned := hbump ▸ hblocks.bump_aligned
  bump_lt := hbump ▸ hblocks.bump_lt
  bump_le := by
    rw [hbump, htop]
    exact hblocks.bump_le
  top_aligned := htop ▸ hblocks.top_aligned
  mapped := by
    rw [htop, hmapped]
    exact hblocks.mapped
  links := hlinks
  free ci b hb := by
    rcases hfree ci b hb with ⟨hold, hne⟩ | ⟨rfl, hflags, hcovers⟩
    · obtain ⟨n, hn, hflags, hcovers⟩ := hblocks.free ci b hold
      refine ⟨n, hn, ?_, hcovers⟩
      rw [(sameBlock hblocks.spans hblocks.size hs hsame hn hne).flags]
      exact hflags
    · exact ⟨s.2, hs, hflags, hcovers⟩

/-- What a client does to the user data of a block in use. -/
theorem write_user (hblocks : Blocks h carved lists) (hs : s ∈ carved) (hused : h.flags s.1 = 1) {mem : ByteMemory}
    (hsame : SameOutside h.mem mem (s.1 + 16) (s.1 + s.2)) : Blocks { h with mem := mem } carved lists := by
  have hne : ∀ ci, ∀ b ∈ lists ci, b ≠ s.1 := by
    rintro ci b hb rfl
    exact hblocks.not_mem_lists hused ci hb
  have hsame' : SameOutside h.mem ({ h with mem := mem } : Heap).mem s.1 (s.1 + s.2) :=
    hsame.mono (by omega) (Nat.le_refl _)
  have htotal : ({ h with mem := mem } : Heap).total s.1 = s.2 := by
    rw [← hblocks.total s hs]
    exact hsame.read_eq (by omega)
  refine hblocks.modify hs hsame' rfl rfl rfl htotal ?_ fun ci b hb => .inl ⟨hb, hne ci b hb⟩
  refine hblocks.links.congr fun ci b hb => ?_
  obtain ⟨n, hn, -, -⟩ := hblocks.free ci b hb
  exact (sameBlock hblocks.spans hblocks.size hs hsame' hn (hne ci b hb)).next

/-! ### Taking a block from a list, and putting one back -/

theorem reuse (hblocks : Blocks h carved lists) {ci : Fin numClasses} (hne : h.freeHeads ci ≠ 0) :
    ∃ n lists', (h.freeHeads ci, n) ∈ carved ∧ h.flags (h.freeHeads ci) = 0 ∧ classSizes.get ci + 16 ≤ n ∧
      Blocks (h.reuse ci).1 carved lists' ∧ (h.reuse ci).1.flags (h.freeHeads ci) = 1 ∧
      SameOutside h.mem (h.reuse ci).1.mem (h.freeHeads ci) (h.freeHeads ci + 16) ∧
      h.freeHeads ci ∈ lists ci ∧ ∀ cj, ∀ b ∈ lists' cj, b ∈ lists cj := by
  obtain ⟨rest, hlist, hpop⟩ := hblocks.links.pop hne
  have hhead : h.freeHeads ci ∈ lists ci := by
    rw [hlist]
    exact List.mem_cons_self
  obtain ⟨n, hn, hflags, hcovers⟩ := hblocks.free ci _ hhead
  have hle := (hblocks.size _ hn).le
  have hsame := Heap.sameOutside_setFlags { h with
    freeHeads := Function.update h.freeHeads ci (h.next (h.freeHeads ci)) } (h.freeHeads ci) (v := Heap.flagUsed)
  have hsame' : SameOutside h.mem (h.reuse ci).1.mem (h.freeHeads ci) (h.freeHeads ci + n) := hsame.mono (Nat.le_refl _) (by omega)
  -- what is left on the lists was on them before, and the block that is taken is on none
  have hrest : ∀ cj, ∀ b ∈ Function.update lists ci rest cj, b ∈ lists cj ∧ b ≠ h.freeHeads ci := by
    intro cj b hb
    by_cases hcj : cj = ci
    · subst hcj
      rw [Function.update_self] at hb
      have hnodup := hblocks.links.nodup cj
      rw [hlist] at hnodup ⊢
      refine ⟨List.mem_cons_of_mem _ hb, ?_⟩
      rintro rfl
      exact (List.nodup_cons.1 hnodup).1 hb
    · rw [Function.update_of_ne hcj] at hb
      refine ⟨hb, ?_⟩
      rintro rfl
      exact hblocks.links.disjoint ci cj (Ne.symm hcj) _ hhead hb
  refine ⟨n, _, hn, hflags, hcovers, hblocks.modify hn hsame' rfl rfl rfl ?_ ?_ fun cj b hb => .inl (hrest cj b hb), ?_,
    hsame, hhead, fun cj b hb => (hrest cj b hb).1⟩
  · rw [← hblocks.total _ hn]
    exact Heap.total_setFlags _ _
  · refine hpop.congr fun cj b hb => ?_
    obtain ⟨hold, hneb⟩ := hrest cj b hb
    obtain ⟨k, hk, -, -⟩ := hblocks.free cj b hold
    exact (sameBlock hblocks.spans hblocks.size hn hsame' hk hneb).next
  · exact Heap.flags_setFlags _ _ (by decide)

theorem free_eq (hblocks : Blocks h carved lists) (hs : s ∈ carved) (hused : h.flags s.1 = 1) :
    h.free (s.1 + 16) = some (match sizeClass (s.2 - 16) with
      | some ci =>
        { h.setFlags s.1 0 with
          mem := (h.setFlags s.1 0).mem.write (s.1 + 16) 8 (h.freeHeads ci)
          freeHeads := Function.update h.freeHeads ci s.1 }
      | none => h.setFlags s.1 0) := by
  have hle := (hblocks.size s hs).le
  have hnotFree : ¬ h.isFree (Heap.fromUser (s.1 + 16)) = true := by
    rw [Heap.fromUser_add]
    unfold Heap.isFree
    rw [hused]
    decide
  have hbytes : Libc.checkedSub ((h.setFlags s.1 0).total s.1) hdrSize = some (s.2 - 16) := by
    rw [Heap.total_setFlags, hblocks.total s hs]
    exact if_pos (by unfold hdrSize; omega)
  unfold Heap.free
  rw [if_neg (by omega)]
  dsimp only
  rw [if_neg hnotFree, Heap.fromUser_add, hbytes]
  simp only [Option.bind_eq_bind, Option.bind_some]
  cases sizeClass (s.2 - 16) with
  | none => rfl
  | some ci => rfl

/-- The link to a block in front of the list. -/
private theorem freeHeads_lt (hblocks : Blocks h carved lists) (ci : Fin numClasses) : h.freeHeads ci < 2 ^ 64 := by
  by_cases hne : h.freeHeads ci = 0
  · rw [hne]
    decide
  · obtain ⟨n, -, hn, -⟩ := hblocks.reuse hne
    have hbounds := hblocks.spans.bounds hn
    have hlt := hblocks.bump_lt
    dsimp only at hbounds
    omega

theorem free_used (hblocks : Blocks h carved lists) (hs : s ∈ carved) (hused : h.flags s.1 = 1)
    (hfree : h.free (s.1 + 16) = some h') :
    ∃ lists', Blocks h' carved lists' ∧ SameOutside h.mem h'.mem s.1 (s.1 + s.2) ∧
      ∀ ci, ∀ b ∈ lists' ci, b ∈ lists ci ∨ (b = s.1 ∧ sizeClass (s.2 - 16) = some ci) := by
  have hsize := hblocks.size s hs
  have hle := hsize.le
  have hflags : SameOutside h.mem (h.setFlags s.1 0).mem s.1 (s.1 + s.2) :=
    (Heap.sameOutside_setFlags h s.1).mono (Nat.le_refl _) (by omega)
  have htotal : (h.setFlags s.1 0).total s.1 = s.2 := by
    rw [Heap.total_setFlags, hblocks.total s hs]
  have hne : ∀ ci, ∀ b ∈ lists ci, b ≠ s.1 := by
    rintro ci b hb rfl
    exact hblocks.not_mem_lists hused ci hb
  rw [hblocks.free_eq hs hused, Option.some_inj] at hfree
  split at hfree
  · rename_i ci hci
    have hlink := sameOutside_write (h.setFlags s.1 0).mem (s.1 + 16) 8 (h.freeHeads ci)
    have hmem : h'.mem = (h.setFlags s.1 0).mem.write (s.1 + 16) 8 (h.freeHeads ci) := by rw [← hfree]
    have hheads : h'.freeHeads = Function.update h.freeHeads ci s.1 := by rw [← hfree]
    rw [← hmem] at hlink
    have hsame : SameOutside h.mem h'.mem s.1 (s.1 + s.2) := hflags.trans (hlink.mono (by omega) (by omega))
    have hnext : h'.next s.1 = h.freeHeads ci := by
      unfold Heap.next
      rw [hmem]
      exact read_write_self _ _ (hblocks.freeHeads_lt ci)
    have hzero : h'.flags s.1 = 0 := by
      rw [← Heap.flags_setFlags h s.1 (by decide : 0 < 2 ^ 32)]
      exact hlink.read_eq (by omega)
    have hlinks : FreeLists h'.next h'.freeHeads (Function.update lists ci (s.1 :: lists ci)) := by
      rw [hheads]
      refine hblocks.links.push ?_ (fun cj hb => hne cj _ hb rfl) hnext fun cj b hb => ?_
      · have hstart := (hblocks.spans.bounds hs).1
        unfold heapStart at hstart
        omega
      · obtain ⟨n, hn, -, -⟩ := hblocks.free cj b hb
        exact (sameBlock hblocks.spans hblocks.size hs hsame hn (hne cj b hb)).next
    refine ⟨_, hblocks.modify hs hsame (by rw [← hfree]; rfl) (by rw [← hfree]; rfl) (by rw [← hfree]; rfl) ?_ hlinks ?_, hsame,
      fun cj b hb => ?_⟩
    · rw [← htotal]
      exact hlink.read_eq (by omega)
    · intro cj b hb
      by_cases hcj : cj = ci
      · subst hcj
        rw [Function.update_self] at hb
        rcases List.mem_cons.1 hb with rfl | hb
        · exact .inr ⟨rfl, hzero, hsize.covers cj hci⟩
        · exact .inl ⟨hb, hne cj b hb⟩
      · rw [Function.update_of_ne hcj] at hb
        exact .inl ⟨hb, hne cj b hb⟩
    · by_cases hcj : cj = ci
      · subst hcj
        rw [Function.update_self] at hb
        rcases List.mem_cons.1 hb with rfl | hb
        · exact .inr ⟨rfl, hci⟩
        · exact .inl hb
      · rw [Function.update_of_ne hcj] at hb
        exact .inl hb
  · subst hfree
    refine ⟨lists, hblocks.modify hs hflags rfl rfl rfl htotal ?_ fun ci b hb => .inl ⟨hb, hne ci b hb⟩, hflags,
      fun ci b hb => .inl hb⟩
    refine hblocks.links.congr fun ci b hb => ?_
    obtain ⟨n, hn, -, -⟩ := hblocks.free ci b hb
    exact (sameBlock hblocks.spans hblocks.size hs hflags hn (hne ci b hb)).next

/-! ### Mapping pages -/

theorem map_page (hblocks : Blocks h carved lists) :
    Blocks { h with
      heapMapTop := h.heapMapTop + 0x1000
      mapped := Function.update h.mapped (h.heapMapTop / 0x1000 * 0x1000) true } carved lists := by
  have htop := hblocks.top_aligned
  have hle := hblocks.bump_le
  refine { hblocks with bump_le := ?_, top_aligned := ?_, mapped := fun a hlo hhi => ?_ }
  · dsimp only
    omega
  · dsimp only
    omega
  · dsimp only at hhi ⊢
    by_cases hpage : a / 0x1000 * 0x1000 = h.heapMapTop / 0x1000 * 0x1000
    · rw [hpage, Function.update_self]
    · rw [Function.update_of_ne hpage]
      exact hblocks.mapped a hlo (by omega)

/-- Whether it succeeds or not, mapping pages leaves everything but the page table as it is. -/
theorem mapUpTo {sysMap : Nat → Bool} {stop fuel : Nat} {ok : Bool} (hblocks : Blocks h carved lists)
    (hmap : Heap.mapUpTo sysMap stop fuel h = some (h', ok)) (hfuel : stop - h.heapMapTop ≤ fuel) :
    Blocks h' carved lists ∧ h'.mem = h.mem ∧ h'.heapBump = h.heapBump ∧ (ok = true → stop ≤ h'.heapMapTop) := by
  induction fuel generalizing h with
  | zero =>
    unfold Heap.mapUpTo at hmap
    cases hmap
    exact ⟨hblocks, rfl, rfl, fun _ => by omega⟩
  | succ fuel ih =>
    unfold Heap.mapUpTo at hmap
    split at hmap
    · rename_i hlt
      simp only at hmap
      split at hmap
      · obtain ⟨top, htop, hrest⟩ := Option.bind_eq_some_iff.1 hmap
        unfold checkedAdd at htop
        split at htop
        · cases htop
          have hrec := ih hblocks.map_page hrest (by dsimp only; omega)
          exact hrec
        · cases htop
      · cases hmap
        exact ⟨hblocks, rfl, rfl, fun hok => by cases hok⟩
    · rename_i hge
      cases hmap
      exact ⟨hblocks, rfl, rfl, fun _ => by omega⟩

/-! ### Carving a block -/

/-- A block behind the last one, on mapped pages. -/
theorem append (hblocks : Blocks h carved lists) {n : Nat} (hn : SpanSize n) (hbump : h'.heapBump = h.heapBump + n)
    (hlt : h'.heapBump < 2 ^ 64) (htop : h'.heapMapTop = h.heapMapTop) (hle : h'.heapBump ≤ h'.heapMapTop)
    (hmapped : h'.mapped = h.mapped) (hheads : h'.freeHeads = h.freeHeads) (htotal : h'.total h.heapBump = n)
    (hsame : SameOutside h.mem h'.mem h.heapBump (h.heapBump + 16)) :
    Blocks h' (carved ++ [(h.heapBump, n)]) lists := by
  have hbelow : ∀ t ∈ carved, SameBlock h h' t.1 := by
    intro t ht
    have hbounds := hblocks.spans.bounds ht
    have hsize := (hblocks.size t ht).le
    exact sameBlock_of_sameOutside hsame (by omega)
  have haligned := hblocks.bump_aligned
  have hmod := hn.aligned
  have hpos := hn.le
  constructor
  case spans =>
    rw [hbump]
    exact hblocks.spans.snoc (by omega)
  case size => simpa [or_imp, forall_and, hn] using hblocks.size
  case aligned =>
    intro t ht
    rcases List.mem_append.1 ht with ht | ht
    · exact hblocks.aligned t ht
    · rw [List.mem_singleton.1 ht]
      exact haligned
  case total =>
    intro t ht
    rcases List.mem_append.1 ht with ht | ht
    · rw [(hbelow t ht).total]
      exact hblocks.total t ht
    · rw [List.mem_singleton.1 ht]
      exact htotal
  case bump_aligned => omega
  case bump_lt => exact hlt
  case bump_le => exact hle
  case top_aligned => exact htop ▸ hblocks.top_aligned
  case mapped =>
    rw [htop, hmapped]
    exact hblocks.mapped
  case links =>
    rw [hheads]
    refine hblocks.links.congr fun ci b hb => ?_
    obtain ⟨k, hk, -, -⟩ := hblocks.free ci b hb
    exact (hbelow _ hk).next
  case free =>
    intro ci b hb
    obtain ⟨k, hk, hflags, hcovers⟩ := hblocks.free ci b hb
    refine ⟨k, List.mem_append_left _ hk, ?_, hcovers⟩
    rw [(hbelow _ hk).flags]
    exact hflags

theorem bumpAlloc {sysMap : Nat → Bool} {total hdr : Nat} (hblocks : Blocks h carved lists)
    (hbump : h.bumpAlloc sysMap total = some (h', hdr)) :
    h'.mem = h.mem ∧ ((hdr = 0 ∧ Blocks h' carved lists) ∨
      (hdr = h.heapBump ∧ hdr + total < 2 ^ 64 ∧ hdr + total ≤ h'.heapMapTop ∧ h'.heapBump = hdr + total ∧
        Blocks { h' with heapBump := hdr } carved lists)) := by
  have haligned := hblocks.bump_aligned
  unfold Heap.bumpAlloc at hbump
  obtain ⟨sum, hsum, hbump⟩ := Option.bind_eq_some_iff.1 hbump
  obtain ⟨⟨h1, ok⟩, hmap, hbump⟩ := Option.bind_eq_some_iff.1 hbump
  obtain ⟨stop, hstop, hmap⟩ := Option.bind_eq_some_iff.1 hmap
  unfold Libc.checkedAdd at hsum hstop
  split at hsum
  · cases hsum
    have heq : (h.heapBump + hdrAlign - 1) / hdrAlign * hdrAlign = h.heapBump := by
      unfold hdrAlign
      omega
    rw [heq] at hstop hbump
    split at hstop
    · rename_i hlt
      cases hstop
      obtain ⟨hblocks1, hmem, hkeep, hok⟩ := hblocks.mapUpTo hmap (Nat.le_refl _)
      cases ok
      · cases hbump
        exact ⟨hmem, .inl ⟨rfl, hblocks1⟩⟩
      · obtain ⟨bump, hadd, hbump⟩ := Option.bind_eq_some_iff.1 hbump
        rw [show Libc.checkedAdd h.heapBump total = some (h.heapBump + total) from if_pos hlt] at hadd
        cases hadd
        cases hbump
        refine ⟨hmem, .inr ⟨rfl, hlt, hok rfl, rfl, ?_⟩⟩
        rw [← hkeep]
        exact hblocks1
    · cases hstop
  · cases hsum

theorem carve {sysMap : Nat → Bool} {total q : Nat} (hblocks : Blocks h carved lists) (hsize : SpanSize total)
    (hcarve : h.carve sysMap total = some (h', q)) :
    (q = 0 ∧ h'.mem = h.mem ∧ Blocks h' carved lists) ∨
      (q = h.heapBump + 16 ∧ Blocks h' (carved ++ [(h.heapBump, total)]) lists ∧ h'.flags h.heapBump = 1 ∧
        SameOutside h.mem h'.mem h.heapBump (h.heapBump + 16)) := by
  unfold Heap.carve at hcarve
  obtain ⟨⟨h1, hdr⟩, hbump, hcarve⟩ := Option.bind_eq_some_iff.1 hcarve
  have hstart := hblocks.spans.le
  obtain ⟨hmem, ⟨rfl, hblocks1⟩ | ⟨rfl, hlt, hle, hnew, hblocks1⟩⟩ := hblocks.bumpAlloc hbump
  · cases hcarve
    exact .inl ⟨rfl, hmem, hblocks1⟩
  · have hne : h.heapBump ≠ 0 := by
      unfold heapStart at hstart
      omega
    simp only [if_neg hne] at hcarve
    cases hcarve
    have hmod : total % 2 ^ 32 = total := Nat.mod_eq_of_lt hsize.lt
    rw [hmod]
    have hsame := ((Heap.sameOutside_setTotal h1 h.heapBump (v := total)).trans
      (Heap.sameOutside_setFlags _ h.heapBump (v := Heap.flagUsed))).trans (Heap.sameOutside_setRes _ h.heapBump (v := 0))
    have htotal : (((h1.setTotal h.heapBump total).setFlags h.heapBump Heap.flagUsed).setRes h.heapBump 0).total h.heapBump =
        total := by
      rw [Heap.total_setRes, Heap.total_setFlags, Heap.total_setTotal _ _ hsize.lt]
    have hflags : (((h1.setTotal h.heapBump total).setFlags h.heapBump Heap.flagUsed).setRes h.heapBump 0).flags h.heapBump =
        1 := by
      rw [Heap.flags_setRes, Heap.flags_setFlags _ _ (by decide)]
      rfl
    refine .inr ⟨rfl, ?_, hflags, hmem ▸ hsame⟩
    refine hblocks1.append hsize hnew ?_ rfl ?_ rfl rfl htotal hsame
    · exact hnew ▸ hlt
    · exact hnew ▸ hle

end Blocks

end Rost.Libc
