import Rost.Libc.Sizes

/-!
# Reuse of freed blocks

`malloc` chooses the class of a block by the size that is asked for, `free` by the room that the block has.  The two agree
for every class but the first: its limit is eight bytes, and its blocks have room for sixteen.  So the first list is always
empty (`Filed`), and small blocks are reused exactly from nine bytes on (`Client.reused_iff`).
-/

namespace Rost.Libc

open Lib (ByteMemory Spans Chain FreeLists Run)
open Heap (sizeClass totalFor)

/-! ### Classes -/

/-- The class of the sizes up to eight bytes. -/
def firstClass : Fin numClasses := ⟨0, by decide⟩

/-- The size of a block that is carved for a class. -/
def spanOf (ci : Fin numClasses) : Nat := max 32 (classSizes.get ci + 16)

/-- The class that a block goes to when it is freed. -/
def homeOf (ci : Fin numClasses) : Fin numClasses := if ci = firstClass then ⟨1, by decide⟩ else ci

theorem totalFor_class (ci : Fin numClasses) : totalFor (classSizes.get ci) = some (spanOf ci) := by
  revert ci
  decide

theorem sizeClass_spanOf (ci : Fin numClasses) : sizeClass (spanOf ci - 16) = some (homeOf ci) := by
  revert ci
  decide

theorem spanOf_le (ci : Fin numClasses) : 32 ≤ spanOf ci ∧ spanOf ci ≤ 2064 := by
  revert ci
  decide

theorem homeOf_eq_iff (ci : Fin numClasses) : homeOf ci = ci ↔ ci ≠ firstClass := by
  revert ci
  decide

private theorem classSizes_first : classSizes.get firstClass = 8 := rfl

private theorem sizeClass_le_eight {n : Nat} (h : n ≤ 8) : sizeClass n = some firstClass := by
  interval_cases n <;> decide

/-- A small size has a class, which is the first one up to eight bytes. -/
theorem sizeClass_small {n : Nat} (h : n ≤ 2048) : ∃ ci, sizeClass n = some ci ∧ (ci ≠ firstClass ↔ 9 ≤ n) := by
  by_cases hle : n ≤ 8
  · exact ⟨firstClass, sizeClass_le_eight hle, iff_of_false (not_not_intro rfl) (by omega)⟩
  · cases hci : sizeClass n with
    | none =>
      have := Heap.lt_of_sizeClass hci
      omega
    | some ci =>
      refine ⟨ci, rfl, iff_of_true ?_ (by omega)⟩
      rintro rfl
      have hlimit := Heap.le_of_sizeClass hci
      rw [classSizes_first] at hlimit
      omega

/-! ### Lists by size -/

/-- A block is on the list of the class of its room. -/
def Filed (carved : List (Nat × Nat)) (lists : Fin numClasses → List Nat) : Prop :=
  ∀ ci, ∀ b ∈ lists ci, ∃ n, (b, n) ∈ carved ∧ sizeClass (n - 16) = some ci

theorem filed_new : Filed [] fun _ => [] := fun _ _ hb => by cases hb

section Lists

variable {h h' : Heap} {carved carved' live : List (Nat × Nat)} {lists lists' : Fin numClasses → List Nat}
  {sysMap : Nat → Bool} {n q : Nat} {ci : Fin numClasses}

theorem Filed.evolves (hfiled : Filed carved lists) (hev : Evolves carved lists carved' lists') : Filed carved' lists' := by
  intro ci b hb
  rcases hev.filed ci b hb with hb | hnew
  · obtain ⟨n, hn, hclass⟩ := hfiled ci b hb
    exact ⟨n, hev.grows.subset hn, hclass⟩
  · exact hnew

/-- No block has room for less than sixteen bytes. -/
theorem Filed.first_empty (hfiled : Filed carved lists) (hblocks : Blocks h carved lists) : lists firstClass = [] := by
  rw [List.eq_nil_iff_forall_not_mem]
  intro b hb
  obtain ⟨n, hn, hclass⟩ := hfiled firstClass b hb
  have hle := (hblocks.size _ hn).le
  have hlimit := Heap.le_of_sizeClass hclass
  rw [classSizes_first] at hlimit
  dsimp only at hle
  omega

/-- A list is empty when its head is zero. -/
private theorem lists_eq_nil_iff (hblocks : Blocks h carved lists) (ci : Fin numClasses) :
    h.freeHeads ci = 0 ↔ lists ci = [] := by
  have hchain := hblocks.links.chain ci
  constructor
  · intro hzero
    cases hlist : lists ci with
    | nil => rfl
    | cons b l =>
      rw [hlist] at hchain
      obtain ⟨hhead, hne, -⟩ := hchain
      exact absurd (hhead.symm.trans hzero) hne
  · intro hnil
    rw [hnil] at hchain
    exact hchain

/-- What `malloc` does for a class: it takes the first block of the list, or carves one if there is none. -/
theorem malloc_of_class (hblocks : Blocks h carved lists) (hmaps : UserPages sysMap) (htop : h.heapMapTop ≤ userVaEnd)
    (hn : 1 ≤ n) (hclass : sizeClass n = some ci) :
    (h.freeHeads ci ≠ 0 ∧ h.malloc sysMap n = some (h.reuse ci)) ∨
    (h.freeHeads ci = 0 ∧ Refused sysMap h (h.heapBump + spanOf ci) ∧ ∃ h', h.malloc sysMap n = some (h', 0) ∧
      Blocks h' carved lists ∧ h'.heapBump = h.heapBump) ∨
    (h.freeHeads ci = 0 ∧ ¬ Refused sysMap h (h.heapBump + spanOf ci) ∧
      ∃ h', h.malloc sysMap n = some (h', h.heapBump + 16) ∧ Blocks h' (carved ++ [(h.heapBump, spanOf ci)]) lists ∧
        h'.heapBump = h.heapBump + spanOf ci) := by
  obtain ⟨total, htotal, hspan, -⟩ := spanSize_of_class ci
  rw [totalFor_class, Option.some_inj] at htotal
  subst htotal
  have hmalloc : h.malloc sysMap n =
      if h.freeHeads ci ≠ 0 then some (h.reuse ci) else h.carve sysMap (spanOf ci) := by
    unfold Heap.malloc
    rw [if_neg (by omega), hclass]
    simp only
    rw [totalFor_class]
    rfl
  rw [hmalloc]
  by_cases hhead : h.freeHeads ci = 0
  · rw [if_neg (not_not_intro hhead)]
    have hle := hblocks.bump_le
    have hsmall := (spanOf_le ci).2
    have hend : userVaEnd = 0x800000000000 := rfl
    rcases carve_total hblocks hmaps htop (spanOf ci) with ⟨hover, -⟩ | ⟨-, hrefused, h', hcarve, -, -, hblocks'⟩ |
      ⟨-, hnot, h', hcarve, -, hbump, -⟩
    · omega
    · refine .inr (.inl ⟨hhead, hrefused, h', hcarve, hblocks', ?_⟩)
      exact (hblocks'.spans.unique hblocks.spans)
    · rcases hblocks.carve hspan hcarve with ⟨hzero, -⟩ | ⟨-, hblocks', -⟩
      · omega
      · exact .inr (.inr ⟨hhead, hnot, h', hcarve, hblocks', hbump⟩)
  · rw [if_pos hhead]
    exact .inl ⟨hhead, rfl⟩

end Lists

/-! ### Calls -/

namespace Client

section Calls

variable {carved : List (Nat × Nat)} {lists : Fin numClasses → List Nat} {c d e f g : Client} {sysMap : Nat → Bool}
  {n p q r : Nat} {ci : Fin numClasses} {s : Nat × Nat}

/-- A small size always fits. -/
private theorem serves_small (hmaps : UserPages sysMap) (hn : n ≤ 2048) : Serves c (.malloc sysMap n) := by
  refine ⟨hmaps, .inl ?_⟩
  unfold rounded
  omega

/-- A step of a run, with what it makes of the blocks and lists. -/
private theorem good_of_step (call : Call) (hgood : Good carved lists c) (hserves : Serves c call)
    (hstep : c.step call = some (d, q)) : ∃ carved' lists', Good carved' lists' d ∧ Evolves carved lists carved' lists' := by
  obtain ⟨d', q', hstep', -, hfrom⟩ := good_step hgood hserves.1 hserves.2
  rw [hstep] at hstep'
  cases hstep'
  exact hfrom.good

/-- The block that `malloc` returns for a small size has the room by which it is filed. -/
private theorem malloc_home (hgood : Good carved lists c) (hfiled : Filed carved lists) (hmaps : UserPages sysMap)
    (hpos : 1 ≤ n) (hn : n ≤ 2048) (hclass : sizeClass n = some ci) (hmalloc : c.step (.malloc sysMap n) = some (d, p))
    (hp : p ≠ 0) : ∃ carved' lists' s, Good carved' lists' d ∧ Evolves carved lists carved' lists' ∧ s ∈ carved' ∧
      p = s.1 + 16 ∧ sizeClass (s.2 - 16) = some (homeOf ci) := by
  obtain ⟨carved', lists', hgood', hev⟩ := good_of_step (.malloc sysMap n) hgood (serves_small hmaps hn) hmalloc
  obtain ⟨⟨h', p⟩, hcall, heq⟩ := Option.map_eq_some_iff.1 hmalloc
  cases heq
  have hlive : (p, n) ∈ record c.live p n := by
    rw [record_of_ne hp]
    exact List.mem_cons_self
  obtain ⟨s, hs, hptr, -, -⟩ := hgood'.live.block _ hlive
  dsimp only at hptr
  refine ⟨carved', lists', s, hgood', hev, hs, hptr, ?_⟩
  rcases malloc_of_class hgood.live.blocks hmaps hgood.top hpos hclass with ⟨hhead, hreuse⟩ | ⟨-, -, h₁, hnull, -⟩ |
    ⟨-, -, h₁, hcarve, hblocks, -⟩
  · -- a block of the list goes back to it
    rw [hreuse] at hcall
    cases hcall
    obtain ⟨-, -, -, -, -, -, -, -, hmem, -⟩ := hgood.live.blocks.reuse hhead
    obtain ⟨k, hk, hclass'⟩ := hfiled ci _ hmem
    have hfst : s = (c.heap.freeHeads ci, k) := by
      refine hgood'.live.blocks.spans.eq_of_fst_eq hs (hev.grows.subset hk) ?_
      rw [Heap.userPtr_eq] at hptr
      dsimp only
      omega
    have hne : ci ≠ firstClass := by
      rintro rfl
      rw [hfiled.first_empty hgood.live.blocks] at hmem
      cases hmem
    rw [hfst, (homeOf_eq_iff ci).2 hne]
    exact hclass'
  · rw [hnull] at hcall
    cases hcall
    exact absurd rfl hp
  · rw [hcarve] at hcall
    cases hcall
    have hfst : s.1 = c.heap.heapBump := by omega
    have htotal := hblocks.total _ (List.mem_append_right _ (List.mem_singleton_self _))
    have hsize := hgood'.live.blocks.total s hs
    dsimp only at htotal hsize
    rw [hfst, htotal] at hsize
    rw [← hsize]
    exact sizeClass_spanOf ci

/-- A block that is freed becomes the first one of the list it is filed on. -/
private theorem free_home (hgood : Good carved lists e) (hs : s ∈ carved) (hptr : p = s.1 + 16)
    (hlive : p ∈ e.live.map Prod.fst) {cj : Fin numClasses} (hclass : sizeClass (s.2 - 16) = some cj)
    (hfree : e.step (.free p) = some (f, r)) : f.heap.freeHeads cj = s.1 := by
  obtain ⟨x, hx, hfst⟩ := List.mem_map.1 hlive
  obtain ⟨t, ht, hptr', -, hused⟩ := hgood.live.block x hx
  have hst : t = s := by
    refine hgood.live.blocks.spans.eq_of_fst_eq ht hs ?_
    omega
  subst hst
  have hcall := hgood.live.blocks.free_eq ht hused
  rw [← hptr] at hcall
  simp only [step] at hfree
  rw [hcall, hclass, Option.map_some, Option.some_inj] at hfree
  cases hfree
  exact Function.update_self ..

/-! ### A block that is freed and asked for again -/

/-- A block of `n` bytes at `p` is obtained in the state `c`, and is freed later, which leads to the state `f`. -/
def Freed (n p : Nat) (c f : Client) : Prop :=
  ∃ sysMap d es e r, UserPages sysMap ∧ c.step (.malloc sysMap n) = some (d, p) ∧ p ≠ 0 ∧ Run step Serves d es e ∧
    p ∈ e.live.map Prod.fst ∧ e.step (.free p) = some (f, r)

private theorem freed_home (hgood : Good carved lists c) (hfiled : Filed carved lists) (hpos : 1 ≤ n) (hn : n ≤ 2048)
    (hclass : sizeClass n = some ci) (hfreed : Freed n p c f) :
    ∃ carved' lists', Good carved' lists' f ∧ Filed carved' lists' ∧ f.heap.freeHeads (homeOf ci) + 16 = p ∧
      f.heap.freeHeads (homeOf ci) ≠ 0 := by
  obtain ⟨sysMap, d, es, e, r, hmaps, hmalloc, hp, hrun, hlive, hfree⟩ := hfreed
  obtain ⟨carved₁, lists₁, s, hgood₁, hev₁, hs, hptr, hhome⟩ := malloc_home hgood hfiled hmaps hpos hn hclass hmalloc hp
  obtain ⟨carved₂, lists₂, hgood₂, hev₂⟩ := good_of_run hrun hgood₁
  have hs₂ := hev₂.grows.subset hs
  obtain ⟨carved₃, lists₃, hgood₃, hev₃⟩ := good_of_step (.free p) hgood₂ ⟨.inr hlive, trivial⟩ hfree
  have hhead := free_home hgood₂ hs₂ hptr hlive hhome hfree
  have hstart := (hgood₂.live.blocks.spans.bounds hs₂).1
  unfold heapStart at hstart
  refine ⟨carved₃, lists₃, hgood₃, ((hfiled.evolves hev₁).evolves hev₂).evolves hev₃, ?_, ?_⟩
  · omega
  · omega

/-! ### Rounds -/

/-- Rounds of `malloc` and `free`, in `k` of which there was a block. -/
inductive Alternates (n : Nat) : Nat → Client → Client → Prop
  | nil (c : Client) : Alternates n 0 c c
  | snoc {k p r : Nat} {c d e f : Client} {sysMap : Nat → Bool} (h : Alternates n k c d) (hmaps : UserPages sysMap)
      (hmalloc : d.step (.malloc sysMap n) = some (e, p)) (hfree : e.step (.free p) = some (f, r)) :
      Alternates n (if p = 0 then k else k + 1) c f

private theorem free_bump (hfree : e.step (.free p) = some (f, r)) (hp : p = 0 ∨ 16 ≤ p) :
    f.heap.heapBump = e.heap.heapBump := by
  obtain ⟨h', hcall, heq⟩ := Option.map_eq_some_iff.1 hfree
  cases heq
  rcases hp with rfl | hp
  · cases hcall
    rfl
  · exact (free_frame hp hcall).2.1

/-- A round carves a block if the list is empty and the kernel maps the page, and leaves the block on the list of its
room. -/
private theorem round_good (hgood : Good carved lists c) (hfiled : Filed carved lists) (hmaps : UserPages sysMap)
    (hpos : 1 ≤ n) (hn : n ≤ 2048) (hclass : sizeClass n = some ci) (hmalloc : c.step (.malloc sysMap n) = some (e, p))
    (hfree : e.step (.free p) = some (f, r)) :
    ∃ carved' lists', Good carved' lists' f ∧ Filed carved' lists' ∧
      f.heap.heapBump = c.heap.heapBump + (if c.heap.freeHeads ci ≠ 0 ∨ p = 0 then 0 else spanOf ci) ∧
      (p ≠ 0 → f.heap.freeHeads (homeOf ci) ≠ 0) ∧
      (p = 0 → c.heap.freeHeads ci = 0) := by
  obtain ⟨⟨h', p⟩, hcall, heq⟩ := Option.map_eq_some_iff.1 hmalloc
  cases heq
  obtain ⟨carved₁, lists₁, hgood₁, hev₁⟩ := good_of_step (.malloc sysMap n) hgood (serves_small hmaps hn) hmalloc
  have hbump : (⟨h', record c.live p n⟩ : Client).heap.heapBump =
      c.heap.heapBump + (if c.heap.freeHeads ci ≠ 0 ∨ p = 0 then 0 else spanOf ci) ∧
      (p = 0 → c.heap.freeHeads ci = 0) ∧ (p = 0 ∨ 16 ≤ p) := by
    rcases malloc_of_class hgood.live.blocks hmaps hgood.top hpos hclass with ⟨hhead, hreuse⟩ |
      ⟨hhead, -, h₁, hnull, -, hbump⟩ | ⟨hhead, -, h₁, hcarve, -, hbump⟩
    · rw [hreuse] at hcall
      cases hcall
      rw [if_pos (.inl hhead)]
      exact ⟨rfl, fun hzero => by rw [Heap.userPtr_eq] at hzero; omega, .inr (by rw [Heap.userPtr_eq]; omega)⟩
    · rw [hnull] at hcall
      cases hcall
      rw [if_pos (.inr rfl)]
      exact ⟨hbump, fun _ => hhead, .inl rfl⟩
    · rw [hcarve] at hcall
      cases hcall
      rw [if_neg (by omega)]
      exact ⟨hbump, fun hzero => by omega, .inr (by omega)⟩
  obtain ⟨hbump, hnull, hp⟩ := hbump
  have hproper : Proper ⟨h', record c.live p n⟩ (.free p) := by
    by_cases hzero : p = 0
    · exact .inl hzero
    · refine .inr ?_
      rw [record_of_ne hzero]
      exact List.mem_cons_self
  obtain ⟨carved₂, lists₂, hgood₂, hev₂⟩ := good_of_step (.free p) hgood₁ ⟨hproper, trivial⟩ hfree
  refine ⟨carved₂, lists₂, hgood₂, (hfiled.evolves hev₁).evolves hev₂, ?_, fun hne => ?_, hnull⟩
  · rw [free_bump hfree hp, hbump]
  · have hlive := hproper.resolve_left hne
    have hfreed : Freed n p c f := ⟨sysMap, _, [], _, r, hmaps, hmalloc, hne, .nil _, hlive, hfree⟩
    obtain ⟨-, -, -, -, -, hhead⟩ := freed_home hgood hfiled hpos hn hclass hfreed
    exact hhead

/-- From nine bytes on, rounds carve one block at most; up to eight bytes, every block that they get. -/
private theorem bump_of_alternates {k : Nat} (hgood : Good carved lists c) (hfiled : Filed carved lists) (hpos : 1 ≤ n)
    (hn : n ≤ 2048) (hclass : sizeClass n = some ci) (h : Alternates n k c f) :
    (∃ carved' lists', Good carved' lists' f ∧ Filed carved' lists') ∧
      (ci ≠ firstClass → f.heap.heapBump ≤ c.heap.heapBump + if f.heap.freeHeads ci = 0 then 0 else spanOf ci) ∧
      (ci = firstClass → f.heap.heapBump = c.heap.heapBump + 32 * k) := by
  induction h with
  | nil => exact ⟨⟨carved, lists, hgood, hfiled⟩, fun _ => Nat.le_add_right _ _, fun _ => rfl⟩
  | @snoc k p r c d e f sysMap h hmaps hmalloc hfree ih =>
    obtain ⟨⟨carved₁, lists₁, hgood₁, hfiled₁⟩, hlarge, hfirst⟩ := ih hgood
    obtain ⟨carved₂, lists₂, hgood₂, hfiled₂, hbump, hhead, hnull⟩ :=
      round_good hgood₁ hfiled₁ hmaps hpos hn hclass hmalloc hfree
    refine ⟨⟨carved₂, lists₂, hgood₂, hfiled₂⟩, fun hne => ?_, fun heq => ?_⟩
    · have hlarge := hlarge hne
      rw [(homeOf_eq_iff ci).2 hne] at hhead
      rw [hbump]
      by_cases hp : p = 0
      · rw [if_pos (.inr hp)]
        rw [if_pos (hnull hp)] at hlarge
        omega
      · rw [if_neg (hhead hp)]
        by_cases hempty : d.heap.freeHeads ci = 0
        · rw [if_neg (by simp [hempty, hp])]
          rw [if_pos hempty] at hlarge
          omega
        · rw [if_pos (.inl hempty)]
          rw [if_neg hempty] at hlarge
          omega
    · subst heq
      have hempty : d.heap.freeHeads firstClass = 0 :=
        (lists_eq_nil_iff hgood₁.live.blocks firstClass).2 (hfiled₁.first_empty hgood₁.live.blocks)
      have hspan : spanOf firstClass = 32 := rfl
      rw [hbump, hfirst rfl]
      by_cases hp : p = 0
      · rw [if_pos (.inr hp), if_pos hp, Nat.add_zero]
      · rw [if_neg (by simp [hempty, hp]), if_neg hp, hspan]
        omega

/-- A freed block of `n` bytes is taken again by the next `malloc` of as many exactly if `n` is nine at least, unless the
kernel refuses the page for a new one.  Rounds of `malloc` and `free` keep the heap within one block from nine bytes on,
and let it grow by 32 bytes for each block below. -/
theorem reused_iff {mem : ByteMemory} {es : List (Call × Nat)} (h : Run step Serves (new mem) es c) (hpos : 1 ≤ n)
    (hn : n ≤ 2048) :
    (∀ p f sysMap g q, Freed n p c f → UserPages sysMap → f.step (.malloc sysMap n) = some (g, q) →
      (g.heap.heapBump = f.heap.heapBump ↔ 9 ≤ n ∨ Refused sysMap f.heap (f.heap.heapBump + 32)) ∧ (9 ≤ n → q = p)) ∧
    ∀ k f, Alternates n k c f → (9 ≤ n → f.heap.heapBump ≤ c.heap.heapBump + 2064) ∧
      (n < 9 → f.heap.heapBump = c.heap.heapBump + 32 * k) := by
  obtain ⟨ci, hclass, hfirst⟩ := sizeClass_small hn
  obtain ⟨carved, lists, hgood, hev⟩ := good_of_run h (good_new mem)
  have hfiled := filed_new.evolves hev
  refine ⟨fun p f sysMap g q hfreed hmaps hmalloc => ?_, fun k f halternates => ?_⟩
  · obtain ⟨carved₁, lists₁, hgood₁, hfiled₁, hhead, hne⟩ := freed_home hgood hfiled hpos hn hclass hfreed
    obtain ⟨⟨h', q⟩, hcall, heq⟩ := Option.map_eq_some_iff.1 hmalloc
    cases heq
    dsimp only
    by_cases hnine : 9 ≤ n
    · -- the block is first on the list that is looked at
      rw [(homeOf_eq_iff ci).2 (hfirst.2 hnine)] at hhead hne
      rcases malloc_of_class hgood₁.live.blocks hmaps hgood₁.top hpos hclass with ⟨-, hreuse⟩ | ⟨hempty, -⟩ | ⟨hempty, -⟩
      · rw [hreuse] at hcall
        cases hcall
        exact ⟨iff_of_true rfl (.inl hnine), fun _ => hhead⟩
      · exact absurd hempty hne
      · exact absurd hempty hne
    · have heq : ci = firstClass := by
        by_contra hci
        exact hnine (hfirst.1 hci)
      subst heq
      have hempty := (lists_eq_nil_iff hgood₁.live.blocks firstClass).2 (hfiled₁.first_empty hgood₁.live.blocks)
      have hspan : spanOf firstClass = 32 := rfl
      refine ⟨?_, fun h => absurd h hnine⟩
      rcases malloc_of_class hgood₁.live.blocks hmaps hgood₁.top hpos hclass with ⟨hhead, -⟩ |
        ⟨-, hrefused, h₁, hnull, -, hbump⟩ | ⟨-, hnot, h₁, hcarve, -, hbump⟩
      · exact absurd hempty hhead
      · rw [hnull] at hcall
        cases hcall
        exact iff_of_true hbump (.inr hrefused)
      · rw [hcarve] at hcall
        cases hcall
        refine iff_of_false ?_ (not_or.2 ⟨hnine, hnot⟩)
        rw [hbump, hspan]
        omega
  · obtain ⟨-, hlarge, hsmall⟩ := bump_of_alternates hgood hfiled hpos hn hclass halternates
    refine ⟨fun hnine => le_trans (hlarge (hfirst.2 hnine)) ?_, fun hlt => hsmall ?_⟩
    · have hspan := (spanOf_le ci).2
      split
      · omega
      · omega
    · by_contra hci
      exact absurd (hfirst.1 hci) (by omega)

end Calls

/-- A block of `n` bytes is obtained at `p`, freed and asked for again, all of which can be evaluated. -/
private theorem freed_and_again {n p : Nat} (same : Bool) (hp : p ≠ 0)
    (h : ((new fun _ => 0).step (.malloc mapsUser n)).any (fun d => decide (d.2 = p ∧ p ∈ d.1.live.map Prod.fst) &&
      (d.1.step (.free p)).any fun f => (f.1.step (.malloc mapsUser n)).any fun g =>
        decide (g.1.heap.heapBump = f.1.heap.heapBump) == same) = true) :
    ∃ f g q, Freed n p (new fun _ => 0) f ∧ f.step (.malloc mapsUser n) = some (g, q) ∧
      decide (g.heap.heapBump = f.heap.heapBump) = same := by
  obtain ⟨⟨d, p'⟩, hmalloc, hd⟩ := (Option.any_eq_true _ _).1 h
  obtain ⟨hlive, hd⟩ := Bool.and_eq_true_iff.1 hd
  obtain ⟨rfl, hlive⟩ := of_decide_eq_true hlive
  obtain ⟨⟨f, r⟩, hfree, hf⟩ := (Option.any_eq_true _ _).1 hd
  obtain ⟨⟨g, q⟩, hagain, hg⟩ := (Option.any_eq_true _ _).1 hf
  exact ⟨f, g, q, ⟨mapsUser, d, [], d, r, userPages_mapsUser, hmalloc, hp, .nil d, hlive, hfree⟩, hagain,
    beq_iff_eq.1 hg⟩

theorem reused_iff_ten : ∃ f g q, Freed 10 0x800010 (new fun _ => 0) f ∧ f.step (.malloc mapsUser 10) = some (g, q) ∧
    g.heap.heapBump = f.heap.heapBump ∧ q = 0x800010 := by
  obtain ⟨f, g, q, hfreed, hagain, -⟩ := freed_and_again (n := 10) (p := 0x800010) true (by decide) (by decide)
  obtain ⟨hiff, hsame⟩ := (reused_iff (.nil (new fun _ => 0)) (n := 10) (by decide) (by decide)).1 _ _ _ _ _ hfreed
    userPages_mapsUser hagain
  exact ⟨f, g, q, hfreed, hagain, hiff.2 (.inl (by decide)), hsame (by decide)⟩

/-- A block for eight bytes is not taken again. -/
theorem eight_not_reused : ∃ f g q, Freed 8 0x800010 (new fun _ => 0) f ∧ f.step (.malloc mapsUser 8) = some (g, q) ∧
    g.heap.heapBump ≠ f.heap.heapBump := by
  obtain ⟨f, g, q, hfreed, hagain, hne⟩ := freed_and_again (n := 8) (p := 0x800010) false (by decide) (by decide)
  exact ⟨f, g, q, hfreed, hagain, of_decide_eq_false hne⟩

end Client

end Rost.Libc
