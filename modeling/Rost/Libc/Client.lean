import Rost.Libc.Blocks
import Rost.Lib.Run

/-!
# Runs of the heap

A client calls the allocator in any order, with any pattern of mapping failures, and stores to its own blocks.  In every
run the live blocks are aligned, mapped, and apart from each other and from all headers, and the free lists are well formed
(`heap_sound`).
-/

namespace Rost.Libc

open Lib (ByteMemory FreeLists Spans Walk Run exec run_of_exec)
open Lib.ByteMemory (SameOutside sameOutside_write sameOutside_fill sameOutside_copy copy_apply)

/-! ### Live blocks -/

/-- The blocks that a client may use, given by their pointer and the size that was asked for. -/
structure LiveBlocks (h : Heap) (live carved : List (Nat × Nat)) (lists : Fin numClasses → List Nat) : Prop where
  blocks : Blocks h carved lists
  block : ∀ x ∈ live, ∃ s ∈ carved, x.1 = s.1 + 16 ∧ x.2 + 16 ≤ s.2 ∧ h.flags s.1 = 1
  nodup : (live.map Prod.fst).Nodup

/-- The invariant, for some blocks and lists. -/
def Holds (h : Heap) (live : List (Nat × Nat)) : Prop := ∃ carved lists, LiveBlocks h live carved lists

/-- What a call makes of the blocks and lists: new blocks come behind the others, and a block gets on a list only by its
size. -/
structure Evolves (carved : List (Nat × Nat)) (lists : Fin numClasses → List Nat) (carved' : List (Nat × Nat))
    (lists' : Fin numClasses → List Nat) : Prop where
  grows : carved <+: carved'
  filed : ∀ ci, ∀ b ∈ lists' ci, b ∈ lists ci ∨ ∃ n, (b, n) ∈ carved' ∧ Heap.sizeClass (n - 16) = some ci

theorem Evolves.refl (carved : List (Nat × Nat)) (lists : Fin numClasses → List Nat) : Evolves carved lists carved lists :=
  ⟨List.prefix_refl _, fun _ _ hb => .inl hb⟩

theorem Evolves.trans {c₁ c₂ c₃ : List (Nat × Nat)} {l₁ l₂ l₃ : Fin numClasses → List Nat} (h : Evolves c₁ l₁ c₂ l₂)
    (h' : Evolves c₂ l₂ c₃ l₃) : Evolves c₁ l₁ c₃ l₃ := by
  refine ⟨h.grows.trans h'.grows, fun ci b hb => ?_⟩
  rcases h'.filed ci b hb with hb | hnew
  · rcases h.filed ci b hb with hb | ⟨n, hn, hclass⟩
    · exact .inl hb
    · exact .inr ⟨n, h'.grows.subset hn, hclass⟩
  · exact .inr hnew

/-- The invariant, for blocks and lists that have come from the given ones. -/
def HoldsFrom (carved : List (Nat × Nat)) (lists : Fin numClasses → List Nat) (h : Heap) (live : List (Nat × Nat)) : Prop :=
  ∃ carved' lists', LiveBlocks h live carved' lists' ∧ Evolves carved lists carved' lists'

theorem HoldsFrom.holds {carved : List (Nat × Nat)} {lists : Fin numClasses → List Nat} {h : Heap}
    {live : List (Nat × Nat)} (hfrom : HoldsFrom carved lists h live) : Holds h live := by
  obtain ⟨carved', lists', hi, -⟩ := hfrom
  exact ⟨carved', lists', hi⟩

theorem HoldsFrom.trans {c₁ c₂ live : List (Nat × Nat)} {l₁ l₂ : Fin numClasses → List Nat} {h : Heap}
    (hevolves : Evolves c₁ l₁ c₂ l₂) (hfrom : HoldsFrom c₂ l₂ h live) : HoldsFrom c₁ l₁ h live := by
  obtain ⟨carved', lists', hi, hev⟩ := hfrom
  exact ⟨carved', lists', hi, hevolves.trans hev⟩

theorem LiveBlocks.holdsFrom {h : Heap} {live carved : List (Nat × Nat)} {lists : Fin numClasses → List Nat}
    (hi : LiveBlocks h live carved lists) : HoldsFrom carved lists h live := ⟨carved, lists, hi, .refl _ _⟩

/-- The block at `ptr` is no longer live. -/
def without (live : List (Nat × Nat)) (ptr : Nat) : List (Nat × Nat) := live.filter fun x => x.1 ≠ ptr

/-- The block that a call has returned is live, if there is one. -/
def record (live : List (Nat × Nat)) (ptr size : Nat) : List (Nat × Nat) := if ptr = 0 then live else (ptr, size) :: live

theorem record_of_ne {live : List (Nat × Nat)} {ptr size : Nat} (h : ptr ≠ 0) :
    record live ptr size = (ptr, size) :: live := if_neg h

theorem mem_without {live : List (Nat × Nat)} {ptr : Nat} {x : Nat × Nat} : x ∈ without live ptr ↔ x ∈ live ∧ x.1 ≠ ptr := by
  unfold without
  simp

namespace LiveBlocks

variable {h h' : Heap} {live carved : List (Nat × Nat)} {lists : Fin numClasses → List Nat} {s x : Nat × Nat}
  {size ptr q : Nat} {sysMap : Nat → Bool}

theorem ne_zero (hi : LiveBlocks h live carved lists) (hx : x ∈ live) : x.1 ≠ 0 := by
  obtain ⟨s, -, hptr, -, -⟩ := hi.block x hx
  omega

theorem without_zero (hi : LiveBlocks h live carved lists) : without live 0 = live := by
  unfold without
  rw [List.filter_eq_self]
  intro x hx
  exact decide_eq_true (hi.ne_zero hx)

/-- A block becomes live that was not, and only its header is written. -/
theorem take (hi : LiveBlocks h live carved lists) {carved' : List (Nat × Nat)} {lists' : Fin numClasses → List Nat}
    (hblocks : Blocks h' carved' lists') (hsub : ∀ t ∈ carved, t ∈ carved') (hs : s ∈ carved') (hused : h'.flags s.1 = 1)
    (hfits : size + 16 ≤ s.2) (hsame : SameOutside h.mem h'.mem s.1 (s.1 + 16)) (hnot : ∀ x ∈ live, x.1 ≠ s.1 + 16) :
    LiveBlocks h' ((s.1 + 16, size) :: live) carved' lists' := by
  refine ⟨hblocks, List.forall_mem_cons.2 ⟨⟨s, hs, rfl, hfits, hused⟩, fun x hx => ?_⟩, ?_⟩
  · obtain ⟨t, ht, hptr, hle, hflags⟩ := hi.block x hx
    have hne : t.1 ≠ s.1 := by
      intro heq
      exact hnot x hx (by omega)
    have hwide := (hblocks.size s hs).le
    refine ⟨t, hsub t ht, hptr, hle, ?_⟩
    rw [(Blocks.sameBlock hblocks.spans hblocks.size hs (hsame.mono (Nat.le_refl _) (by omega)) (hsub t ht) hne).flags]
    exact hflags
  · rw [List.map_cons, List.nodup_cons]
    refine ⟨fun hmem => ?_, hi.nodup⟩
    obtain ⟨x, hx, heq⟩ := List.mem_map.1 hmem
    exact hnot x hx heq

theorem carve (hi : LiveBlocks h live carved lists) {n : Nat} (hn : SpanSize n) (hfits : size + 16 ≤ n)
    (hcarve : h.carve sysMap n = some (h', q)) :
    (q = 0 ∧ h'.mem = h.mem ∧ HoldsFrom carved lists h' live) ∨
      (q ≠ 0 ∧ HoldsFrom carved lists h' ((q, size) :: live) ∧ SameOutside h.mem h'.mem (q - 16) q) := by
  rcases hi.blocks.carve hn hcarve with ⟨rfl, hmem, hblocks⟩ | ⟨rfl, hblocks, hused, hsame⟩
  · refine .inl ⟨rfl, hmem, LiveBlocks.holdsFrom ⟨hblocks, fun x hx => ?_, hi.nodup⟩⟩
    obtain ⟨s, hs, hptr, hle, hflags⟩ := hi.block x hx
    refine ⟨s, hs, hptr, hle, ?_⟩
    unfold Heap.flags
    rw [hmem]
    exact hflags
  · refine .inr ⟨by omega, ⟨_, _, hi.take (s := (h.heapBump, n)) hblocks (fun t ht => List.mem_append_left _ ht)
      (List.mem_append_right _ (List.mem_singleton_self _)) hused hfits hsame fun x hx => ?_,
      List.prefix_append _ _, fun _ _ hb => .inl hb⟩, hsame⟩
    obtain ⟨s, hs, hptr, hle, -⟩ := hi.block x hx
    have hbounds := hi.blocks.spans.bounds hs
    dsimp only
    omega

theorem malloc (hi : LiveBlocks h live carved lists) (hsize : size < 2 ^ 32 - 31)
    (hmalloc : h.malloc sysMap size = some (h', q)) :
    (q = 0 ∧ h'.mem = h.mem ∧ HoldsFrom carved lists h' live) ∨
      (q ≠ 0 ∧ HoldsFrom carved lists h' ((q, size) :: live) ∧ SameOutside h.mem h'.mem (q - 16) q) := by
  unfold Heap.malloc at hmalloc
  split at hmalloc
  · cases hmalloc
    exact .inl ⟨rfl, rfl, hi.holdsFrom⟩
  · split at hmalloc
    · rename_i ci hci
      have hle := Heap.le_of_sizeClass hci
      obtain ⟨n, htotal, hn, hcovers⟩ := spanSize_of_class ci
      rw [htotal] at hmalloc
      simp only [Option.bind_eq_bind, Option.bind_some] at hmalloc
      split at hmalloc
      · rename_i hne
        obtain ⟨k, lists', hk, hfree, hfits, hblocks, hused, hsame, -, hsub⟩ := hi.blocks.reuse hne
        cases hmalloc
        refine .inr ⟨by rw [Heap.userPtr_eq]; omega, ⟨_, _, hi.take (s := (h.freeHeads ci, k)) hblocks (fun _ ht => ht) hk hused
          (by dsimp only; omega) hsame fun x hx => ?_, List.prefix_refl _, fun cj b hb => .inl (hsub cj b hb)⟩, hsame⟩
        obtain ⟨s, hs, hptr, -, hflags⟩ := hi.block x hx
        dsimp only
        intro heq
        have hfst : s.1 = h.freeHeads ci := by omega
        rw [hfst] at hflags
        omega
      · exact hi.carve hn (by omega) hmalloc
    · rename_i hlarge
      obtain ⟨n, htotal, hcarve⟩ := Option.bind_eq_some_iff.1 hmalloc
      obtain ⟨hn, hfits⟩ := spanSize_of_large hsize hlarge htotal
      exact hi.carve hn hfits hcarve

/-- The blocks of two live pointers do not overlap. -/
theorem apart (hi : LiveBlocks h live carved lists) {y : Nat × Nat} (hx : x ∈ live) (hy : y ∈ live) (hne : x.1 ≠ y.1) :
    x.1 + x.2 + 16 ≤ y.1 ∨ y.1 + y.2 + 16 ≤ x.1 := by
  obtain ⟨s, hs, hptr, hle, -⟩ := hi.block x hx
  obtain ⟨t, ht, hptr', hle', -⟩ := hi.block y hy
  rcases hi.blocks.spans.apart hs ht with rfl | hst
  · omega
  · omega

/-- A client writes to the user data of a live block. -/
theorem write_user (hi : LiveBlocks h live carved lists) (hs : s ∈ carved) (hused : h.flags s.1 = 1) {mem : ByteMemory}
    (hsame : SameOutside h.mem mem (s.1 + 16) (s.1 + s.2)) : LiveBlocks { h with mem := mem } live carved lists := by
  refine ⟨hi.blocks.write_user hs hused hsame, fun x hx => ?_, hi.nodup⟩
  obtain ⟨t, ht, hptr, hle, hflags⟩ := hi.block x hx
  have htsize := (hi.blocks.size t ht).le
  refine ⟨t, ht, hptr, hle, ?_⟩
  rw [← hflags]
  apply hsame.read_eq
  rcases hi.blocks.spans.apart hs ht with rfl | hst
  · omega
  · omega

theorem free (hi : LiveBlocks h live carved lists) (hx : x ∈ live) (hfree : h.free x.1 = some h') :
    HoldsFrom carved lists h' (without live x.1) ∧ ∀ y ∈ live, y.1 ≠ x.1 → ∀ k < y.2, h'.mem (y.1 + k) = h.mem (y.1 + k) := by
  obtain ⟨s, hs, hptr, hle, hused⟩ := hi.block x hx
  rw [hptr] at hfree
  obtain ⟨lists', hblocks, hsame, hfiled⟩ := hi.blocks.free_used hs hused hfree
  refine ⟨⟨carved, lists', ⟨hblocks, fun y hy => ?_, ?_⟩, List.prefix_refl _, fun ci b hb => ?_⟩, fun y hy hne k hk => ?_⟩
  · obtain ⟨hy, hne⟩ := mem_without.1 hy
    obtain ⟨t, ht, hptr', hle', hflags⟩ := hi.block y hy
    refine ⟨t, ht, hptr', hle', ?_⟩
    rw [(Blocks.sameBlock hi.blocks.spans hi.blocks.size hs hsame ht (by omega)).flags]
    exact hflags
  · exact hi.nodup.sublist (List.filter_sublist.map _)
  · rcases hfiled ci b hb with hb | ⟨rfl, hclass⟩
    · exact .inl hb
    · exact .inr ⟨s.2, hs, hclass⟩
  · obtain ⟨t, ht, hptr', hle', -⟩ := hi.block y hy
    apply hsame
    rcases hi.blocks.spans.apart hs ht with rfl | hst
    · omega
    · omega

theorem calloc {nmemb : Nat} (hi : LiveBlocks h live carved lists) (hsize : nmemb * size < 2 ^ 32 - 31 ∨ 2 ^ 64 ≤ nmemb * size)
    (hcalloc : h.calloc sysMap nmemb size = some (h', q)) :
    HoldsFrom carved lists h' (record live q (nmemb * size)) := by
  unfold Heap.calloc at hcalloc
  split at hcalloc
  · obtain ⟨⟨h1, ptr⟩, hmalloc, hcalloc⟩ := Option.bind_eq_some_iff.1 hcalloc
    rcases hi.malloc (by omega) hmalloc with ⟨rfl, -, hholds⟩ | ⟨hne, ⟨carved', lists', hi1, hev⟩, -⟩
    · cases hcalloc
      exact hholds
    · simp only [if_pos hne] at hcalloc
      cases hcalloc
      obtain ⟨s, hs, hptr, hle, hused⟩ := hi1.block _ List.mem_cons_self
      dsimp only at hptr hle
      rw [record_of_ne hne]
      exact ⟨carved', lists', hi1.write_user hs hused ((sameOutside_fill _ _ _ _).mono (by omega) (by omega)), hev⟩
  · cases hcalloc
    exact hi.holdsFrom

private theorem without_cons (hne : q ≠ ptr) : without ((q, size) :: live) ptr = (q, size) :: without live ptr := by
  unfold without
  exact List.filter_cons_of_pos (decide_eq_true hne)

/-- The block keeps its place, with another size. -/
private theorem resize (hi : LiveBlocks h live carved lists) (hs : s ∈ carved) (hptr : x.1 = s.1 + 16)
    (hused : h.flags s.1 = 1) (hfits : size + 16 ≤ s.2) : LiveBlocks h ((x.1, size) :: without live x.1) carved lists := by
  refine ⟨hi.blocks, List.forall_mem_cons.2 ⟨⟨s, hs, hptr, hfits, hused⟩, fun y hy => hi.block y (mem_without.1 hy).1⟩, ?_⟩
  rw [List.map_cons, List.nodup_cons]
  refine ⟨fun hmem => ?_, hi.nodup.sublist (List.filter_sublist.map _)⟩
  obtain ⟨y, hy, heq⟩ := List.mem_map.1 hmem
  exact (mem_without.1 hy).2 heq

theorem realloc (hi : LiveBlocks h live carved lists) (hx : x ∈ live) (hsize : size + 16 ≤ h.total (x.1 - 16) ∨ size < 2 ^ 32 - 31)
    (hrealloc : h.realloc sysMap x.1 size = some (h', q)) :
    HoldsFrom carved lists h' (record (if size = 0 ∨ q ≠ 0 then without live x.1 else live) q size) ∧
      (q ≠ 0 → ∀ k < min x.2 size, h'.mem (q + k) = h.mem (x.1 + k)) := by
  obtain ⟨s, hs, hptr, hle, hused⟩ := hi.block x hx
  have hne := hi.ne_zero hx
  have hspan := (hi.blocks.size s hs).le
  have hold : Libc.checkedSub (h.total (Heap.fromUser x.1)) hdrSize = some (s.2 - 16) := by
    rw [hptr, Heap.fromUser_add, hi.blocks.total s hs]
    exact if_pos (by unfold hdrSize; omega)
  unfold Heap.realloc at hrealloc
  rw [if_neg hne] at hrealloc
  by_cases hzero : size = 0
  · rw [if_pos hzero] at hrealloc
    obtain ⟨h1, hfree, hrealloc⟩ := Option.bind_eq_some_iff.1 hrealloc
    cases hrealloc
    rw [if_pos (.inl hzero)]
    exact ⟨(hi.free hx hfree).1, fun h => absurd rfl h⟩
  · rw [if_neg hzero, hold] at hrealloc
    simp only [Option.bind_eq_bind, Option.bind_some] at hrealloc
    split at hrealloc
    · rename_i hfits
      cases hrealloc
      rw [if_pos (.inr hne), record_of_ne hne]
      exact ⟨(hi.resize hs hptr hused (by omega)).holdsFrom, fun _ k _ => rfl⟩
    · rename_i hgrow
      obtain ⟨⟨h1, newPtr⟩, hmalloc, hrealloc⟩ := Option.bind_eq_some_iff.1 hrealloc
      have hsmall : size < 2 ^ 32 - 31 := by
        refine hsize.resolve_left fun hfits => hgrow ?_
        rw [show x.1 - 16 = s.1 by omega, hi.blocks.total s hs] at hfits
        omega
      rcases hi.malloc hsmall hmalloc with ⟨rfl, -, hholds⟩ | ⟨hnew, ⟨carved', lists', hi1, hev⟩, hsame⟩
      · cases hrealloc
        rw [if_neg (by omega)]
        exact ⟨hholds, fun h => absurd rfl h⟩
      · simp only [if_neg hnew] at hrealloc
        obtain ⟨h2, hfree, hrealloc⟩ := Option.bind_eq_some_iff.1 hrealloc
        cases hrealloc
        obtain ⟨t, ht, hnptr, hnle, hnused⟩ := hi1.block _ List.mem_cons_self
        dsimp only at hnptr hnle
        have hdiff : q ≠ x.1 := by
          rintro rfl
          exact (List.nodup_cons.1 hi1.nodup).1 (List.mem_map.2 ⟨x, hx, rfl⟩)
        have hapart := hi1.apart List.mem_cons_self (List.mem_cons_of_mem _ hx) hdiff
        have hi2 := hi1.write_user ht hnused ((sameOutside_copy h1.mem x.1 q (s.2 - 16)).mono (by omega) (by omega))
        obtain ⟨hholds, hkeep⟩ := hi2.free (List.mem_cons_of_mem _ hx) hfree
        rw [if_pos (.inr hnew), record_of_ne hnew]
        rw [without_cons hdiff] at hholds
        refine ⟨hholds.trans hev, fun _ k hk => ?_⟩
        dsimp only at hapart
        calc h'.mem (q + k) = (h1.mem.copy x.1 q (s.2 - 16)) (q + k) :=
              hkeep _ List.mem_cons_self hdiff k (by dsimp only; omega)
          _ = h1.mem (x.1 + k) := copy_apply _ _ _ (by omega)
          _ = h.mem (x.1 + k) := hsame _ (by omega)

end LiveBlocks

/-! ### Runs -/

/-- The heap with the blocks that were returned and not freed. -/
structure Client where
  heap : Heap
  live : List (Nat × Nat)

/-- What a client does; `sysMap` says which pages the kernel maps during the call. -/
inductive Call where
  | malloc (sysMap : Nat → Bool) (size : Nat)
  | calloc (sysMap : Nat → Bool) (nmemb size : Nat)
  | realloc (sysMap : Nat → Bool) (ptr size : Nat)
  | free (ptr : Nat)
  | store (addr : Nat) (byte : BitVec 8)

namespace Client

def new (mem : ByteMemory) : Client := ⟨.new mem, []⟩

/-- The result is the pointer that the call returns. -/
def step (c : Client) : Call → Option (Client × Nat)
  | .malloc sysMap size => (c.heap.malloc sysMap size).map fun out => (⟨out.1, record c.live out.2 size⟩, out.2)
  | .calloc sysMap nmemb size =>
    (c.heap.calloc sysMap nmemb size).map fun out => (⟨out.1, record c.live out.2 (nmemb * size)⟩, out.2)
  | .realloc sysMap ptr size => (c.heap.realloc sysMap ptr size).map fun out =>
    (⟨out.1, record (if size = 0 ∨ out.2 ≠ 0 then without c.live ptr else c.live) out.2 size⟩, out.2)
  | .free ptr => (c.heap.free ptr).map fun h => (⟨h, without c.live ptr⟩, 0)
  | .store addr byte => some (⟨{ c.heap with mem := c.heap.mem.fill addr 1 byte }, c.live⟩, 0)

/-- Sizes are below `2 ^ 31`, pointers were returned and not freed, and stores stay within a live block.  `calloc` may be
given factors whose product does not fit 64 bits. -/
def Legal (c : Client) : Call → Prop
  | .malloc _ size => size < 2 ^ 31
  | .calloc _ nmemb size => nmemb * size < 2 ^ 31 ∨ 2 ^ 64 ≤ nmemb * size
  | .realloc _ ptr size => size < 2 ^ 31 ∧ (ptr = 0 ∨ ptr ∈ c.live.map Prod.fst)
  | .free ptr => ptr = 0 ∨ ptr ∈ c.live.map Prod.fst
  | .store addr _ => ∃ x ∈ c.live, x.1 ≤ addr ∧ addr < x.1 + x.2

instance decidableLegal (c : Client) (call : Call) : Decidable (c.Legal call) := by
  cases call <;> unfold Legal <;> infer_instance

/-- The headers, found by stepping from block to block. -/
def IsHeader (h : Heap) (b : Nat) : Prop := Walk h.total h.heapBump heapStart b

structure Sound (c : Client) : Prop where
  aligned : ∀ x ∈ c.live, x.1 % 16 = 0
  mapped : ∀ x ∈ c.live, ∀ a, x.1 ≤ a → a < x.1 + x.2 → heapStart ≤ a ∧ c.heap.mapped (a / 0x1000 * 0x1000) = true
  disjoint : c.live.Pairwise fun x y => x.1 + x.2 ≤ y.1 ∨ y.1 + y.2 ≤ x.1
  headers : ∀ x ∈ c.live, ∀ b, IsHeader c.heap b → x.1 + x.2 ≤ b ∨ b + hdrSize ≤ x.1
  free : ∃ lists, FreeLists c.heap.next c.heap.freeHeads lists ∧ ∀ ci, ∀ b ∈ lists ci,
    IsHeader c.heap b ∧ c.heap.isFree b = true ∧ classSizes.get ci + hdrSize ≤ c.heap.total b ∧
      ∀ x ∈ c.live, x.1 ≠ Heap.userPtr b

theorem holds_step {c d : Client} {call : Call} {q : Nat} (h : Holds c.heap c.live) (hlegal : c.Legal call)
    (hstep : c.step call = some (d, q)) : Holds d.heap d.live := by
  obtain ⟨carved, lists, hi⟩ := h
  cases call with
  | malloc sysMap size =>
    obtain ⟨⟨h1, ptr⟩, hmalloc, heq⟩ := Option.map_eq_some_iff.1 hstep
    cases heq
    have hsize : size < 2 ^ 31 := hlegal
    rcases hi.malloc (by omega) hmalloc with ⟨rfl, -, hholds⟩ | ⟨hne, hholds, -⟩
    · exact hholds.holds
    · rw [record_of_ne hne]
      exact hholds.holds
  | calloc sysMap nmemb size =>
    obtain ⟨⟨h1, ptr⟩, hcalloc, heq⟩ := Option.map_eq_some_iff.1 hstep
    cases heq
    have hsize : nmemb * size < 2 ^ 31 ∨ 2 ^ 64 ≤ nmemb * size := hlegal
    exact (hi.calloc (by omega) hcalloc).holds
  | realloc sysMap ptr size =>
    obtain ⟨⟨h1, new⟩, hrealloc, heq⟩ := Option.map_eq_some_iff.1 hstep
    cases heq
    obtain ⟨hsize, rfl | hptr⟩ := hlegal
    · rw [hi.without_zero, ite_self]
      rcases hi.malloc (by omega) hrealloc with ⟨rfl, -, hholds⟩ | ⟨hne, hholds, -⟩
      · exact hholds.holds
      · rw [record_of_ne hne]
        exact hholds.holds
    · obtain ⟨x, hx, rfl⟩ := List.mem_map.1 hptr
      exact (hi.realloc hx (.inr (by omega)) hrealloc).1.holds
  | free ptr =>
    obtain ⟨h1, hfree, heq⟩ := Option.map_eq_some_iff.1 hstep
    cases heq
    rcases hlegal with rfl | hptr
    · cases hfree
      rw [hi.without_zero]
      exact ⟨carved, lists, hi⟩
    · obtain ⟨x, hx, rfl⟩ := List.mem_map.1 hptr
      exact (hi.free hx hfree).1.holds
  | store addr byte =>
    cases hstep
    obtain ⟨x, hx, hlo, hhi⟩ := hlegal
    obtain ⟨s, hs, hptr, hle, hused⟩ := hi.block x hx
    exact ⟨carved, lists, hi.write_user hs hused ((sameOutside_fill _ _ _ _).mono (by omega) (by omega))⟩

theorem sound_of_holds {c : Client} (h : Holds c.heap c.live) : c.Sound := by
  obtain ⟨carved, lists, hi⟩ := h
  have hheader : ∀ b, IsHeader c.heap b ↔ ∃ n, (b, n) ∈ carved := fun b => hi.blocks.spans.walk_iff hi.blocks.total
  constructor
  case aligned =>
    intro x hx
    obtain ⟨s, hs, hptr, -, -⟩ := hi.block x hx
    have haligned := hi.blocks.aligned s hs
    omega
  case mapped =>
    intro x hx a hlo hhi
    obtain ⟨s, hs, hptr, hle, -⟩ := hi.block x hx
    have hbounds := hi.blocks.spans.bounds hs
    have htop := hi.blocks.bump_le
    exact ⟨by omega, hi.blocks.mapped a (by omega) (by omega)⟩
  case disjoint =>
    refine List.Pairwise.imp_of_mem ?_ (List.pairwise_map.1 hi.nodup)
    intro x y hx hy hne
    have hapart := hi.apart hx hy hne
    omega
  case headers =>
    intro x hx b hb
    obtain ⟨n, hn⟩ := (hheader b).1 hb
    obtain ⟨s, hs, hptr, hle, -⟩ := hi.block x hx
    have hsize := (hi.blocks.size _ hn).le
    unfold hdrSize
    rcases hi.blocks.spans.apart hs hn with rfl | hst
    · dsimp only at hptr
      omega
    · dsimp only at hst
      omega
  case free =>
    refine ⟨lists, hi.blocks.links, fun ci b hb => ?_⟩
    obtain ⟨n, hn, hflags, hcovers⟩ := hi.blocks.free ci b hb
    refine ⟨(hheader b).2 ⟨n, hn⟩, ?_, ?_, fun x hx heq => ?_⟩
    · unfold Heap.isFree
      rw [hflags]
      rfl
    · rw [hi.blocks.total _ hn]
      exact hcovers
    · obtain ⟨s, -, hptr, -, hused⟩ := hi.block x hx
      rw [Heap.userPtr_eq] at heq
      have hfst : s.1 = b := by omega
      rw [hfst] at hused
      omega

/-- In every run the live blocks are sound, and resizing one keeps its contents up to the smaller of the two sizes. -/
theorem heap_sound {mem : ByteMemory} {es : List (Call × Nat)} {c : Client} (h : Run step Legal (new mem) es c) :
    c.Sound ∧ ∀ sysMap ptr old size d q, (ptr, old) ∈ c.live → size < 2 ^ 31 →
      c.step (.realloc sysMap ptr size) = some (d, q) → q ≠ 0 →
      ∀ k < min old size, d.heap.mem (q + k) = c.heap.mem (ptr + k) := by
  have hholds : Holds c.heap c.live := by
    refine h.invariant (P := fun c => Holds c.heap c.live) holds_step ?_
    exact ⟨[], fun _ => [], blocks_new mem, fun x hx => (by cases hx), List.nodup_nil⟩
  refine ⟨sound_of_holds hholds, fun sysMap ptr old size d q hx hsize hstep hne => ?_⟩
  obtain ⟨carved, lists, hi⟩ := hholds
  obtain ⟨⟨h1, new⟩, hrealloc, heq⟩ := Option.map_eq_some_iff.1 hstep
  cases heq
  exact (hi.realloc hx (.inr (by omega)) hrealloc).2 hne

/-- The kernel maps every page. -/
def mapsAll (_ : Nat) : Bool := true

/-- A block is filled, another is freed, the kernel refuses pages for a third, and the first is moved to grow. -/
theorem heap_sound_moved : ∃ es c d q, Run step Legal (new fun _ => 0) es c ∧ c.Sound ∧
    c.step (.realloc mapsAll 0x800010 100) = some (d, q) ∧ q ≠ 0x800010 ∧
    ∀ k < 10, d.heap.mem (q + k) = c.heap.mem (0x800010 + k) := by
  have hexec : (exec step Legal (new fun _ => 0)
      [.malloc mapsAll 10, .store 0x800012 7, .malloc mapsAll 5, .free 0x800030, .malloc (fun _ => false) 5000]).any
      (fun out => decide ((0x800010, 10) ∈ out.1.live) &&
        (out.1.step (.realloc mapsAll 0x800010 100)).any fun next => decide (next.2 ≠ 0 ∧ next.2 ≠ 0x800010)) = true := by
    decide
  obtain ⟨⟨c, es⟩, hrun, hout⟩ := (Option.any_eq_true _ _).1 hexec
  obtain ⟨hlive, hnext⟩ := Bool.and_eq_true_iff.1 hout
  obtain ⟨⟨d, q⟩, hstep, hq⟩ := (Option.any_eq_true _ _).1 hnext
  obtain ⟨hne, hmoved⟩ := of_decide_eq_true hq
  obtain ⟨hsound, hkeep⟩ := heap_sound (run_of_exec hrun)
  exact ⟨es, c, d, q, run_of_exec hrun, hsound, hstep, hmoved,
    fun k hk => hkeep mapsAll 0x800010 10 100 d q (of_decide_eq_true hlive) (by decide) hstep hne k (by omega)⟩

end Client

end Rost.Libc
