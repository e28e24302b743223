import Rost.Memory.PageMap

/-!
# Access rights of pages

The hardware lets a user access, or write to, a page if every entry on its walk allows it, and executes code there unless
one entry forbids it.  When a 2 MB page is split, the 512 entries of the new table have its flags, but the entry of the
page directory is built anew: present, writable, and open to user mode only if the page that is mapped is.  And mapping
a page for the user opens the entries above it.  So the other pages keep their rights to write and to execute, and
`rights_kept_iff` says when they keep the access of the user.
-/

namespace Rost

open Lib (Bitmap)
open Lib.TableTree (TableAt descend)

/-- What the hardware allows on a page. -/
structure Rights where
  user : Bool
  write : Bool
  noExecute : Bool
deriving DecidableEq, Repr

/-- U/S and R/W hold if they are set on all levels of the walk, NX if it is set on one. -/
def Rights.ofWalk (entries : List Word) : Rights where
  user := entries.all fun e => decide (e &&& pteUser ≠ 0)
  write := entries.all fun e => decide (e &&& pteWritable ≠ 0)
  noExecute := entries.any fun e => decide (e &&& pteNoExecute ≠ 0)

/-- The addresses lie in the same 2 MB. -/
def SameHuge (v w : Word) : Prop := pml4Index w = pml4Index v ∧ pdptIndex w = pdptIndex v ∧ pdIndex w = pdIndex v

/-- `w` lies on another page of the 2 MB of `v`. -/
def OtherPage (v w : Word) : Prop := SameHuge v w ∧ ptIndex w ≠ ptIndex v

theorem SameHuge.refl (v : Word) : SameHuge v v := ⟨rfl, rfl, rfl⟩

/-- The next page, or the one before. -/
private theorem otherPage_xor (v : Word) : OtherPage v (v ^^^ 0x1000) := by
  have hupper : ∀ n : Nat, (0x1000 : Word) >>> n = 0 → (v ^^^ 0x1000) >>> n = v >>> n := by
    intro n hn
    rw [BitVec.ushiftRight_xor_distrib, hn]
    exact BitVec.xor_zero
  refine ⟨⟨?_, ?_, ?_⟩, fun h => ?_⟩
  · exact congrArg low9 (hupper 39 (by decide))
  · exact congrArg low9 (hupper 30 (by decide))
  · exact congrArg low9 (hupper 21 (by decide))
  · -- bit 12 is the lowest one of the index in the page table
    have hlow : (v ^^^ 0x1000) >>> 12 &&& 0x1FF#64 = v >>> 12 &&& 0x1FF#64 :=
      BitVec.eq_of_toNat_eq (Fin.mk.inj h)
    rw [BitVec.ushiftRight_xor_distrib, show (0x1000 : Word) >>> 12 = 1 from by decide] at hlow
    have hbit := congrArg (fun w : Word => w.getLsbD 0) hlow
    simp at hbit

namespace Memory

def rights (m : Memory) (pml4 virt : Word) : Option Rights := (m.walk pml4 virt).map Rights.ofWalk

/-- The pages have the rights they had. -/
def KeepsRights (root : Word) (m m' : Memory) (pages : Word → Prop) : Prop :=
  ∀ v, pages v → m'.rights root v = m.rights root v

/-- The walk for `virt` ends at the 2 MB page `e2`, and the entries above it point to tables. -/
structure HugeLeaf (m : Memory) (root virt e4 e3 e2 : Word) : Prop where
  walk : m.walk root virt = some [e4, e3, e2]
  plain4 : e4 &&& pteHugePage = 0
  plain3 : e3 &&& pteHugePage = 0

/-! ### The bits of the new entries -/

private theorem user_cases (flags : Word) : flags &&& pteUser = 0 ∨ flags &&& pteUser = pteUser := by
  have huser : ∀ i : Fin 64, pteUser.getLsbD i = decide (i.val = 2) := by decide
  cases hbit : flags.getLsbD 2 with
  | false =>
    left
    refine BitVec.eq_of_getLsbD_eq fun i hi => ?_
    rw [BitVec.getLsbD_and, huser ⟨i, hi⟩]
    by_cases h2 : i = 2
    · subst h2
      rw [hbit]
      rfl
    · simp [h2]
  | true =>
    right
    refine BitVec.eq_of_getLsbD_eq fun i hi => ?_
    rw [BitVec.getLsbD_and, huser ⟨i, hi⟩]
    by_cases h2 : i = 2
    · subst h2
      rw [hbit]
      rfl
    · simp [h2]

private theorem linkEntry_and {bit : Word} (haddr : pteAddrMask &&& bit = 0) (c u : Word) :
    linkEntry c u &&& bit = (ptePresent ||| pteWritable ||| u) &&& bit := by
  unfold linkEntry
  simp only [or_and, BitVec.and_assoc, haddr]
  simp

private theorem or_user_and {u bit : Word} (hu : u = 0 ∨ u = pteUser) (hbit : pteUser &&& bit = 0) (e : Word) :
    (e ||| u) &&& bit = e &&& bit := by
  rcases hu with rfl | rfl
  · rw [show e ||| 0 = e from BitVec.or_zero]
  · exact or_pteUser_and hbit

private theorem or_user_addr {u : Word} (hu : u = 0 ∨ u = pteUser) (e : Word) :
    (e ||| u) &&& pteAddrMask = e &&& pteAddrMask :=
  or_user_and hu (by decide) e

private theorem or_user_present {u e : Word} (hu : u = 0 ∨ u = pteUser) (he : e &&& ptePresent ≠ 0) :
    (e ||| u) &&& ptePresent ≠ 0 := by
  rw [or_user_and hu (by decide)]
  exact he

private theorem or_user_user {u : Word} (hu : u = 0 ∨ u = pteUser) (e : Word) :
    (e ||| u) &&& pteUser ≠ 0 ↔ u ≠ 0 ∨ e &&& pteUser ≠ 0 := by
  rcases hu with rfl | rfl
  · rw [show e ||| 0 = e from BitVec.or_zero]
    exact ⟨Or.inr, fun h => h.resolve_left fun h0 => h0 rfl⟩
  · refine ⟨fun _ => Or.inl (by decide), fun _ h => ?_⟩
    rw [or_and, BitVec.and_self] at h
    have hbit := congrArg (fun w : Word => w.getLsbD 2) h
    rw [BitVec.getLsbD_or, show pteUser.getLsbD 2 = true from by decide, Bool.or_true] at hbit
    cases hbit

/-- The rights on a 2 MB page, if the entries above have the user bit `u` besides their own. -/
private theorem ofWalk_opened {u : Word} (hu : u = 0 ∨ u = pteUser) (e4 e3 e2 : Word) :
    Rights.ofWalk [e4 ||| u, e3 ||| u, e2] =
      { Rights.ofWalk [e4, e3, e2] with
        user := if u = 0 then (Rights.ofWalk [e4, e3, e2]).user else decide (e2 &&& pteUser ≠ 0) } := by
  unfold Rights.ofWalk
  simp only [List.all_cons, List.all_nil, List.any_cons, List.any_nil, or_user_user hu,
    or_user_and hu (show pteUser &&& pteWritable = 0 from by decide),
    or_user_and hu (show pteUser &&& pteNoExecute = 0 from by decide)]
  rcases hu with rfl | rfl
  · simp
  · simp [show pteUser ≠ 0#64 from by decide]

/-- The rights on a page of a split 2 MB page, if the entry of the page directory has the user bit `u` and those above
have it besides their own. -/
private theorem ofWalk_split {u : Word} (hu : u = 0 ∨ u = pteUser) (e4 e3 e2 c : Word) (j : Fin 512) :
    Rights.ofWalk [e4 ||| u, e3 ||| u, linkEntry c u, splitEntry e2 j] =
      { Rights.ofWalk [e4, e3, e2] with user := decide (u ≠ 0 ∧ e2 &&& pteUser ≠ 0) } := by
  have hlinkW : linkEntry c u &&& pteWritable = pteWritable :=
    (linkEntry_and (by decide) c u).trans (by rcases hu with rfl | rfl <;> decide)
  have hlinkN : linkEntry c u &&& pteNoExecute = 0 :=
    (linkEntry_and (by decide) c u).trans (by rcases hu with rfl | rfl <;> decide)
  have hlinkU : linkEntry c u &&& pteUser = u :=
    (linkEntry_and (by decide) c u).trans (by rcases hu with rfl | rfl <;> decide)
  unfold Rights.ofWalk
  simp only [List.all_cons, List.all_nil, List.any_cons, List.any_nil, or_user_user hu,
    or_user_and hu (show pteUser &&& pteWritable = 0 from by decide),
    or_user_and hu (show pteUser &&& pteNoExecute = 0 from by decide), hlinkW, hlinkN, hlinkU,
    splitEntry_bit (show pteAddrMask &&& pteUser = 0 from by decide) (by decide),
    splitEntry_bit (show pteAddrMask &&& pteWritable = 0 from by decide) (by decide),
    splitEntry_bit (show pteAddrMask &&& pteNoExecute = 0 from by decide) (by decide)]
  rcases hu with rfl | rfl
  · simp [show pteWritable ≠ 0#64 from by decide]
  · simp [show pteWritable ≠ 0#64 from by decide, show pteUser ≠ 0#64 from by decide]

/-! ### The walk -/

section Walk

variable {m : Memory} {root virt e4 e3 e2 e1 : Word}

private theorem walk_of_huge (h4 : m.ram root (pml4Index virt) = e4) (hp4 : e4 &&& ptePresent ≠ 0)
    (h3 : m.ram (e4 &&& pteAddrMask) (pdptIndex virt) = e3) (hp3 : e3 &&& ptePresent ≠ 0)
    (h2 : m.ram (e3 &&& pteAddrMask) (pdIndex virt) = e2) (hp2 : e2 &&& ptePresent ≠ 0) (hhuge : e2 &&& pteHugePage ≠ 0) :
    m.walk root virt = some [e4, e3, e2] := by
  unfold Memory.walk
  simp only
  rw [h4, if_neg hp4, h3, if_neg hp3, h2, if_neg hp2, if_pos hhuge]

private theorem walk_of_page (h4 : m.ram root (pml4Index virt) = e4) (hp4 : e4 &&& ptePresent ≠ 0)
    (h3 : m.ram (e4 &&& pteAddrMask) (pdptIndex virt) = e3) (hp3 : e3 &&& ptePresent ≠ 0)
    (h2 : m.ram (e3 &&& pteAddrMask) (pdIndex virt) = e2) (hp2 : e2 &&& ptePresent ≠ 0) (hplain : e2 &&& pteHugePage = 0)
    (h1 : m.ram (e2 &&& pteAddrMask) (ptIndex virt) = e1) (hp1 : e1 &&& ptePresent ≠ 0) :
    m.walk root virt = some [e4, e3, e2, e1] := by
  unfold Memory.walk
  simp only
  rw [h4, if_neg hp4, h3, if_neg hp3, h2, if_neg hp2, if_neg (not_not.2 hplain), h1, if_neg hp1]

/-- The other addresses of the 2 MB lead to the same entry. -/
private theorem HugeLeaf.walk_same (h : HugeLeaf m root virt e4 e3 e2) {v : Word} (hv : SameHuge virt v) :
    m.walk root v = some [e4, e3, e2] := by
  obtain ⟨⟨h4, hp4⟩, ⟨h3, hp3⟩, h2, hp2, hhuge⟩ := walk_entries h.walk
  obtain ⟨hv4, hv3, hv2⟩ := hv
  exact walk_of_huge (by rw [hv4]; exact h4) hp4 (by rw [hv3]; exact h3) hp3 (by rw [hv2]; exact h2) hp2 hhuge

/-- The three tables on the walk are tables of the tree, on three different paths. -/
private theorem HugeLeaf.tables (h : HugeLeaf m root virt e4 e3 e2) :
    TableAt m.links root 3 [] root ∧ TableAt m.links root 3 [pml4Index virt] (e4 &&& pteAddrMask) ∧
      TableAt m.links root 3 [pml4Index virt, pdptIndex virt] (e3 &&& pteAddrMask) := by
  obtain ⟨⟨h4, hp4⟩, ⟨h3, hp3⟩, -⟩ := walk_entries h.walk
  have hlink4 : m.links 3 root (pml4Index virt) = .table (e4 &&& pteAddrMask) := by
    unfold links
    rw [h4]
    exact decode_upper hp4 (by decide)
  have hlink3 : m.links 2 (e4 &&& pteAddrMask) (pdptIndex virt) = .table (e3 &&& pteAddrMask) := by
    unfold links
    rw [h3]
    exact decode_upper hp3 (by decide)
  refine ⟨⟨Nat.zero_le _, rfl⟩, ⟨by simp, ?_⟩, ⟨by simp, ?_⟩⟩
  · simp only [descend, hlink4]
  · simp only [descend, hlink4, Nat.reduceSub, hlink3]

private theorem HugeLeaf.distinct (h : HugeLeaf m root virt e4 e3 e2) (htree : PageTree m root) :
    root ≠ e4 &&& pteAddrMask ∧ root ≠ e3 &&& pteAddrMask ∧ e4 &&& pteAddrMask ≠ e3 &&& pteAddrMask := by
  obtain ⟨hroot, hpdpt, hpd⟩ := h.tables
  refine ⟨fun heq => ?_, fun heq => ?_, fun heq => ?_⟩
  · rw [← heq] at hpdpt
    exact absurd (htree.unshared _ _ _ hroot hpdpt) nofun
  · rw [← heq] at hpd
    exact absurd (htree.unshared _ _ _ hroot hpd) nofun
  · rw [← heq] at hpd
    exact absurd (htree.unshared _ _ _ hpdpt hpd) (by simp)

end Walk

/-! ### The new table -/

section Alloc

variable {m m₁ : Memory} {root c : Word}

/-- The frame for the new table is none of the tables of the tree. -/
private theorem PageTree.allocPtFrame (h : PageTree m root) (halloc : m.allocPtFrame = (m₁, some c)) :
    IsTableAddr c ∧ ∀ p, ¬ TableAt m.links root 3 p c := by
  unfold Memory.allocPtFrame poolAllocPt at halloc
  cases hpool : m.ptPool with
  | nil =>
    rw [hpool] at halloc
    rcases m.globalAlloc4k_cases with ⟨-, heq⟩ | ⟨idx, hidx, haddr, -⟩
    · rw [show m.globalAlloc4k = (m₁, some c) from halloc] at heq
      cases heq
    · rw [show m.globalAlloc4k = (m₁, some c) from halloc] at haddr
      cases haddr
      exact ⟨m.isTableAddr_frameAddr hidx, h.free idx hidx.1 hidx.2.1⟩
  | cons q rest =>
    rw [hpool] at halloc
    cases halloc
    obtain ⟨hres, hnot⟩ := h.pool c (by rw [hpool]; exact List.mem_cons_self)
    exact ⟨hres.addr, hnot⟩

/-- The allocators do not look into the frames. -/
private theorem allocPtFrame_writeEntry (m : Memory) (f : Word) (i : Fin 512) (w : Word) :
    (m.writeEntry f i w).allocPtFrame = (m.allocPtFrame.1.writeEntry f i w, m.allocPtFrame.2) := by
  have htag : ∀ (m : Memory) (p : Word) (k : FrameKind),
      (m.writeEntry f i w).frameTag p k = (m.frameTag p k).writeEntry f i w := by
    intro m p k
    unfold frameTag
    rw [show (m.writeEntry f i w).frameIndex p = m.frameIndex p from rfl]
    cases m.frameIndex p with
    | none => rfl
    | some idx => rfl
  unfold Memory.allocPtFrame poolAllocPt
  rw [show (m.writeEntry f i w).ptPool = m.ptPool from rfl]
  cases m.ptPool with
  | cons q rest => rfl
  | nil =>
    simp only
    unfold globalAlloc4k
    rw [show (m.writeEntry f i w).freeBitmap = m.freeBitmap from rfl]
    cases m.freeBitmap.findFirst (maxTrackedFrames / 64) with
    | none => rfl
    | some idx =>
      simp only
      rw [show (m.writeEntry f i w).frameAddr idx = m.frameAddr idx from rfl,
        show (m.writeEntry f i w).region = m.region from rfl]
      split
      · rfl
      · exact congrArg (·, _) (htag { m with freeBitmap := m.freeBitmap.clear idx } _ _)

end Alloc

/-! ### The two ways to split -/

/-- The entries above the 2 MB page have got the user bit `u`. -/
private def opened (m : Memory) (root virt e4 e3 u : Word) : Memory :=
  (m.writeEntry root (pml4Index virt) (e4 ||| u)).writeEntry (e4 &&& pteAddrMask) (pdptIndex virt) (e3 ||| u)

/-- The table `c` stands for the 2 MB page `e2`, with its pages in the slots `P`. -/
private structure SplitAt (m' : Memory) (root virt e4 e3 e2 u c : Word) (P : Fin 512 → Prop) : Prop where
  upper4 : m'.ram root (pml4Index virt) = e4 ||| u
  upper3 : m'.ram (e4 &&& pteAddrMask) (pdptIndex virt) = e3 ||| u
  link : m'.ram (e3 &&& pteAddrMask) (pdIndex virt) = linkEntry c u
  pages : ∀ j, P j → m'.ram c j = splitEntry e2 j
  points : PointsTo (linkEntry c u) c

section Split

variable {m m₁ m' : Memory} {root virt e4 e3 e2 u c : Word}

/-- `alloc_fn` on an entry that points to a table. -/
private theorem allocFn_table (hu : u = 0 ∨ u = pteUser) {f : Word} {i : Fin 512}
    (hpresent : m.ram f i &&& ptePresent ≠ 0) (hplain : m.ram f i &&& pteHugePage = 0) :
    m.allocFn u f i = (m.writeEntry f i (m.ram f i ||| u), some (m.ram f i &&& pteAddrMask)) := by
  unfold Memory.allocFn
  simp only
  rw [if_neg hpresent, if_neg (not_not.2 hplain)]
  rcases hu with rfl | rfl
  · rw [if_neg fun h => h.1 rfl, show m.ram f i ||| 0 = m.ram f i from BitVec.or_zero, writeEntry_self]
  · by_cases hopen : m.ram f i &&& pteUser = 0
    · rw [if_pos ⟨by decide, hopen⟩, or_pteUser_and (by decide)]
    · -- the entry is open already, and is not written
      have hsame : m.ram f i ||| pteUser = m.ram f i := by
        have huser := (user_cases (m.ram f i)).resolve_left hopen
        rw [← huser]
        refine BitVec.eq_of_getLsbD_eq fun j _ => ?_
        rw [BitVec.getLsbD_or, BitVec.getLsbD_and]
        cases (m.ram f i).getLsbD j with
        | false => rfl
        | true => rfl
      rw [if_neg fun h => hopen h.2, hsame, writeEntry_self]

private theorem opened_ram (hleaf : HugeLeaf m root virt e4 e3 e2) (htree : PageTree m root) :
    (opened m root virt e4 e3 u).ram root (pml4Index virt) = e4 ||| u ∧
      (opened m root virt e4 e3 u).ram (e4 &&& pteAddrMask) (pdptIndex virt) = e3 ||| u ∧
      (opened m root virt e4 e3 u).ram (e3 &&& pteAddrMask) (pdIndex virt) = e2 := by
  obtain ⟨h43, h42, h32⟩ := hleaf.distinct htree
  unfold opened
  refine ⟨?_, ?_, ?_⟩
  · rw [writeEntry_ram, if_neg fun h => h43 h.1, writeEntry_ram, if_pos ⟨rfl, rfl⟩]
  · rw [writeEntry_ram, if_pos ⟨rfl, rfl⟩]
  · rw [writeEntry_ram, if_neg fun h => h32 h.1.symm, writeEntry_ram, if_neg fun h => h42 h.1.symm]
    exact (walk_entries hleaf.walk).2.2.1

private theorem opened_zero (hleaf : HugeLeaf m root virt e4 e3 e2) : opened m root virt e4 e3 0 = m := by
  obtain ⟨⟨h4, -⟩, ⟨h3, -⟩, -⟩ := walk_entries hleaf.walk
  unfold opened
  rw [show e4 ||| 0 = e4 from BitVec.or_zero, show e3 ||| 0 = e3 from BitVec.or_zero, ← h4, writeEntry_self, h4, ← h3,
    writeEntry_self]

/-- `map_page_global` opens the two entries and calls `alloc_fn` on the 2 MB page. -/
private theorem mapPageGlobal_leaf (hleaf : HugeLeaf m root virt e4 e3 e2) (htree : PageTree m root) (phys flags : Word) :
    m.mapPageGlobal root virt phys flags =
      match (opened m root virt e4 e3 (flags &&& pteUser)).allocFn (flags &&& pteUser) (e3 &&& pteAddrMask) (pdIndex virt) with
      | (m, none) => (m, false)
      | (m, some pt) => (m.writeEntry pt (ptIndex virt) (phys &&& pteAddrMask ||| flags &&& ~~~pteHugePage), true) := by
  obtain ⟨⟨h4, hp4⟩, ⟨h3, hp3⟩, -⟩ := walk_entries hleaf.walk
  obtain ⟨h43, -⟩ := hleaf.distinct htree
  have hram3 : (m.writeEntry root (pml4Index virt) (e4 ||| flags &&& pteUser)).ram (e4 &&& pteAddrMask) (pdptIndex virt) =
      e3 := by
    rw [writeEntry_ram, if_neg fun h => h43 h.1.symm]
    exact h3
  unfold Memory.mapPageGlobal
  simp only
  rw [allocFn_table (user_cases flags) (by rw [h4]; exact hp4) (by rw [h4]; exact hleaf.plain4), h4]
  simp only
  rw [allocFn_table (user_cases flags) (by rw [hram3]; exact hp3) (by rw [hram3]; exact hleaf.plain3), hram3]
  rfl

/-- `split_huge_page_global` calls `alloc_fn` on the 2 MB page, for a page that is closed to user mode. -/
private theorem splitHugePageGlobal_leaf (hleaf : HugeLeaf m root virt e4 e3 e2) :
    (m.splitHugePageGlobal root virt).1 = (m.allocFn 0 (e3 &&& pteAddrMask) (pdIndex virt)).1 := by
  obtain ⟨⟨h4, hp4⟩, ⟨h3, hp3⟩, h2, hp2, hhuge⟩ := walk_entries hleaf.walk
  have hpd : m.pageDirectory root virt = some (e3 &&& pteAddrMask) := by
    unfold pageDirectory
    simp only
    rw [h4, if_neg hp4, h3, if_neg hp3]
  unfold Memory.splitHugePageGlobal Memory.allocFn
  rw [hpd]
  simp only
  rw [h2, if_neg hp2, if_neg hp2, if_neg hhuge, if_pos hhuge]
  cases m.allocPtFrame with
  | mk m₁ r =>
    cases r with
    | none => rfl
    | some pt =>
      simp only
      rw [show ∀ w : Word, w ||| 0 = w from fun _ => BitVec.or_zero]

/-- `alloc_fn` on the 2 MB page fails for want of a frame, or puts a new table there. -/
private theorem allocFn_leaf (hleaf : HugeLeaf m root virt e4 e3 e2) (htree : PageTree m root)
    (hu : u = 0 ∨ u = pteUser) :
    (m.allocPtFrame.2 = none ∧ (opened m root virt e4 e3 u).allocFn u (e3 &&& pteAddrMask) (pdIndex virt) =
      (opened m root virt e4 e3 u, none)) ∨
    ∃ m' c, m.allocPtFrame.2 = some c ∧
      (opened m root virt e4 e3 u).allocFn u (e3 &&& pteAddrMask) (pdIndex virt) = (m', some c) ∧
      SplitAt m' root virt e4 e3 e2 u c (fun _ => True) ∧
      ∀ i w, SplitAt (m'.writeEntry c i w) root virt e4 e3 e2 u c (· ≠ i) := by
  obtain ⟨-, -, -, hp2, hhuge⟩ := walk_entries hleaf.walk
  obtain ⟨h43, h42, h32⟩ := hleaf.distinct htree
  obtain ⟨hroot, hpdpt, hpd⟩ := hleaf.tables
  obtain ⟨-, -, hram2⟩ := opened_ram (u := u) hleaf htree
  cases halloc : m.allocPtFrame with
  | mk m₁ r =>
    have halloc' : (opened m root virt e4 e3 u).allocPtFrame = (opened m₁ root virt e4 e3 u, r) := by
      unfold opened
      rw [allocPtFrame_writeEntry, allocPtFrame_writeEntry, halloc]
    unfold Memory.allocFn
    simp only
    rw [hram2, if_neg hp2, if_pos hhuge, halloc']
    cases r with
    | none =>
      rw [allocPtFrame_eq_none halloc]
      exact Or.inl ⟨rfl, rfl⟩
    | some c =>
      obtain ⟨haddr, hnot⟩ := htree.allocPtFrame halloc
      have hlink : PointsTo (linkEntry c u) c := by
        have h : PointsTo (linkEntry c (u &&& pteUser)) c := pointsTo_allocFn haddr
        rwa [show u &&& pteUser = u by rcases hu with rfl | rfl <;> decide] at h
      -- the three tables above are none of the new one, so filling it leaves their entries alone
      have hne : ∀ {p f}, TableAt m.links root 3 p f → f ≠ c := by
        rintro p f hf rfl
        exact hnot p hf
      have hsplit : SplitAt (((opened m₁ root virt e4 e3 u).fillSplit c e2).writeEntry (e3 &&& pteAddrMask) (pdIndex virt)
          (linkEntry c u)) root virt e4 e3 e2 u c (fun _ => True) := by
        refine ⟨?_, ?_, ?_, fun j _ => ?_, hlink⟩
        · rw [writeEntry_ram, if_neg fun h => h42 h.1]
          refine (if_neg (hne hroot)).trans ?_
          unfold opened
          rw [writeEntry_ram, if_neg fun h => h43 h.1, writeEntry_ram, if_pos ⟨rfl, rfl⟩]
        · rw [writeEntry_ram, if_neg fun h => h32 h.1]
          refine (if_neg (hne hpdpt)).trans ?_
          unfold opened
          rw [writeEntry_ram, if_pos ⟨rfl, rfl⟩]
        · rw [writeEntry_ram, if_pos ⟨rfl, rfl⟩]
        · rw [writeEntry_ram, if_neg fun h => hne hpd h.1.symm]
          exact if_pos rfl
      refine Or.inr ⟨_, c, rfl, ?_, hsplit, fun i w => ⟨?_, ?_, ?_, fun j hj => ?_, hlink⟩⟩
      · exact congrArg (fun a => (_, some a)) hlink.addr
      · rw [writeEntry_ram, if_neg fun h => hne hroot h.1]
        exact hsplit.upper4
      · rw [writeEntry_ram, if_neg fun h => hne hpdpt h.1]
        exact hsplit.upper3
      · rw [writeEntry_ram, if_neg fun h => hne hpd h.1]
        exact hsplit.link
      · rw [writeEntry_ram, if_neg fun h => hj h.2]
        exact hsplit.pages j trivial

/-- The rights on the pages of the new table. -/
private theorem SplitAt.rights {P : Fin 512 → Prop} (h : SplitAt m' root virt e4 e3 e2 u c P)
    (hleaf : HugeLeaf m root virt e4 e3 e2) (hu : u = 0 ∨ u = pteUser) {v : Word} (hv : SameHuge virt v)
    (hP : P (ptIndex v)) : m'.rights root v =
      some { Rights.ofWalk [e4, e3, e2] with user := decide (u ≠ 0 ∧ e2 &&& pteUser ≠ 0) } := by
  obtain ⟨⟨-, hp4⟩, ⟨-, hp3⟩, -, hp2, -⟩ := walk_entries hleaf.walk
  obtain ⟨hv4, hv3, hv2⟩ := hv
  have hwalk : m'.walk root v = some [e4 ||| u, e3 ||| u, linkEntry c u, splitEntry e2 (ptIndex v)] := by
    refine walk_of_page ?_ (or_user_present hu hp4) ?_ (or_user_present hu hp3) ?_ h.points.present h.points.plain ?_ ?_
    · rw [hv4]
      exact h.upper4
    · rw [hv3, or_user_addr hu]
      exact h.upper3
    · rw [hv2, or_user_addr hu]
      exact h.link
    · rw [h.points.addr]
      exact h.pages _ hP
    · rw [splitEntry_bit (by decide) (by decide)]
      exact hp2
  unfold Memory.rights
  rw [hwalk, Option.map_some, ofWalk_split hu]

/-- The rights on the 2 MB page below the opened entries. -/
private theorem rights_opened (hleaf : HugeLeaf m root virt e4 e3 e2) (htree : PageTree m root)
    (hu : u = 0 ∨ u = pteUser) {v : Word} (hv : SameHuge virt v) : (opened m root virt e4 e3 u).rights root v =
      some { Rights.ofWalk [e4, e3, e2] with
        user := if u = 0 then (Rights.ofWalk [e4, e3, e2]).user else decide (e2 &&& pteUser ≠ 0) } := by
  obtain ⟨⟨-, hp4⟩, ⟨-, hp3⟩, -, hp2, hhuge⟩ := walk_entries hleaf.walk
  obtain ⟨h4, h3, h2⟩ := opened_ram (u := u) hleaf htree
  obtain ⟨hv4, hv3, hv2⟩ := hv
  have hwalk : (opened m root virt e4 e3 u).walk root v = some [e4 ||| u, e3 ||| u, e2] := by
    refine walk_of_huge ?_ (or_user_present hu hp4) ?_ (or_user_present hu hp3) ?_ hp2 hhuge
    · rw [hv4]
      exact h4
    · rw [hv3, or_user_addr hu]
      exact h3
    · rw [hv2, or_user_addr hu]
      exact h2
  unfold Memory.rights
  rw [hwalk, Option.map_some, ofWalk_opened hu]

private theorem HugeLeaf.user (h : HugeLeaf m root virt e4 e3 e2) :
    m.hasRight root virt pteUser = (Rights.ofWalk [e4, e3, e2]).user := by
  unfold hasRight
  rw [h.walk]
  rfl

/-- Where only the access of the user may change, and to the same on all pages, the rights are kept if that is what the
user had. -/
private theorem keepsRights_iff {pages : Word → Prop} {b : Bool} (hleaf : HugeLeaf m root virt e4 e3 e2)
    (hone : ∃ v, pages v) (hsame : ∀ v, pages v → SameHuge virt v)
    (hrights : ∀ v, pages v → m'.rights root v = some { Rights.ofWalk [e4, e3, e2] with user := b }) :
    KeepsRights root m m' pages ↔ b = m.hasRight root virt pteUser := by
  have hold : ∀ v, pages v → m.rights root v = some (Rights.ofWalk [e4, e3, e2]) := by
    intro v hv
    unfold Memory.rights
    rw [hleaf.walk_same (hsame v hv), Option.map_some]
  rw [hleaf.user]
  constructor
  · intro h
    obtain ⟨v, hv⟩ := hone
    have heq := (hrights v hv).symm.trans ((h v hv).trans (hold v hv))
    exact congrArg Rights.user (Option.some.inj heq)
  · rintro rfl v hv
    rw [hrights v hv, hold v hv]

end Split

/-- The access of the user survives on the other pages of the 2 MB page `e2` when one of them is mapped with `flags`: a
page that is closed to user mode closes all of them, unless no frame is left for the table; one that is open to user mode
opens those that are marked so. -/
def UserKept (m : Memory) (root virt e2 flags : Word) : Prop :=
  if flags &&& pteUser = 0 then m.allocPtFrame.2 = none ∨ m.hasRight root virt pteUser = false
  else e2 &&& pteUser ≠ 0 → m.hasRight root virt pteUser = true

section Kept

variable {m : Memory} {root virt e4 e3 e2 : Word}

/-- Marking the pages for the user is what the user had, unless those were closed further up. -/
private theorem decide_user_iff (hleaf : HugeLeaf m root virt e4 e3 e2) :
    decide (e2 &&& pteUser ≠ 0) = m.hasRight root virt pteUser ↔
      (e2 &&& pteUser ≠ 0 → m.hasRight root virt pteUser = true) := by
  constructor
  · intro h huser
    rw [← h]
    exact decide_eq_true huser
  · intro h
    by_cases huser : e2 &&& pteUser = 0
    · rw [hleaf.user]
      unfold Rights.ofWalk
      simp [huser]
    · rw [h huser]
      exact decide_eq_true huser

/-- Closed pages are what the user had, if they were closed before. -/
private theorem closed_iff {u : Word} {c : Word} (hu : u = 0) (hsome : m.allocPtFrame.2 = some c) :
    decide (u ≠ 0 ∧ e2 &&& pteUser ≠ 0) = m.hasRight root virt pteUser ↔
      m.allocPtFrame.2 = none ∨ m.hasRight root virt pteUser = false := by
  rw [hsome, decide_eq_false fun h => h.1 hu]
  exact ⟨fun h => Or.inr h.symm, fun h => (h.resolve_left nofun).symm⟩

/-- `split_huge_page_global` on a 2 MB page. -/
private theorem split_kept_iff (htree : PageTree m root) (hleaf : HugeLeaf m root virt e4 e3 e2) :
    KeepsRights root m (m.splitHugePageGlobal root virt).1 (SameHuge virt) ↔ UserKept m root virt e2 0 := by
  rw [splitHugePageGlobal_leaf hleaf]
  unfold UserKept
  rw [if_pos (by decide)]
  have hcases := allocFn_leaf hleaf htree (Or.inl rfl)
  rw [opened_zero hleaf] at hcases
  rcases hcases with ⟨hnone, heq⟩ | ⟨m', c, hsome, heq, hsplit, -⟩
  · rw [heq]
    exact iff_of_true (fun _ _ => rfl) (Or.inl hnone)
  · rw [heq, keepsRights_iff hleaf ⟨virt, .refl virt⟩ (fun _ hv => hv) fun v hv =>
      hsplit.rights hleaf (Or.inl rfl) hv trivial]
    exact closed_iff rfl hsome

/-- `map_page_global` on a page of a 2 MB page. -/
private theorem map_kept_iff (htree : PageTree m root) (hleaf : HugeLeaf m root virt e4 e3 e2) (phys flags : Word) :
    KeepsRights root m (m.mapPageGlobal root virt phys flags).1 (OtherPage virt) ↔ UserKept m root virt e2 flags := by
  have hone : ∃ v, OtherPage virt v := ⟨_, otherPage_xor virt⟩
  have hsame : ∀ v, OtherPage virt v → SameHuge virt v := fun _ hv => hv.1
  have hu := user_cases flags
  rw [mapPageGlobal_leaf hleaf htree]
  unfold UserKept
  rcases allocFn_leaf hleaf htree hu with ⟨hnone, heq⟩ | ⟨m', c, hsome, heq, -, hpage⟩
  · -- without a frame for the table, only the entries above have been opened
    rw [heq, keepsRights_iff hleaf hone hsame fun v hv => rights_opened hleaf htree hu hv.1]
    by_cases hclosed : flags &&& pteUser = 0
    · rw [if_pos hclosed, if_pos hclosed]
      exact iff_of_true hleaf.user.symm (Or.inl hnone)
    · rw [if_neg hclosed, if_neg hclosed]
      exact decide_user_iff hleaf
  · rw [heq, keepsRights_iff hleaf hone hsame fun v hv => (hpage _ _).rights hleaf hu hv.1 hv.2]
    by_cases hclosed : flags &&& pteUser = 0
    · rw [if_pos hclosed]
      exact closed_iff hclosed hsome
    · rw [if_neg hclosed, decide_eq_decide.2 ⟨And.right, fun h => ⟨hclosed, h⟩⟩]
      exact decide_user_iff hleaf

end Kept

/-- A 2 MB page keeps its rights when it is split, and its other pages keep theirs when one of them is mapped, if and
only if the access of the user survives; the rights to write and to execute always do. -/
theorem rights_kept_iff {m : Memory} {root virt e4 e3 e2 : Word} (htree : PageTree m root)
    (hleaf : HugeLeaf m root virt e4 e3 e2) :
    (KeepsRights root m (m.splitHugePageGlobal root virt).1 (SameHuge virt) ↔ UserKept m root virt e2 0) ∧
      ∀ phys flags, KeepsRights root m (m.mapPageGlobal root virt phys flags).1 (OtherPage virt) ↔
        UserKept m root virt e2 flags :=
  ⟨split_kept_iff htree hleaf, map_kept_iff htree hleaf⟩

/-- On a tree that is open to user mode on all levels, mapping a page for the user keeps the rights of the others. -/
theorem rights_kept_small : KeepsRights 0x1000 (smallTree 0x3007 0x87)
    ((smallTree 0x3007 0x87).mapPageGlobal 0x1000 0x5000 0x6000 7).1 (OtherPage 0x5000) := by
  have h3 : decode 2 0x3007 = .table 0x3000 := decode_upper (by decide : (0x3007 : Word) &&& ptePresent ≠ 0) (by decide)
  have h2 : decode 1 0x87 = .leaf 0x87 := decode_huge (by decide) (by decide)
  have hleaf : HugeLeaf (smallTree 0x3007 0x87) 0x1000 0x5000 0x2007 0x3007 0x87 := ⟨by decide, by decide, by decide⟩
  refine ((rights_kept_iff (smallTree_pageTree h3 h2) hleaf).2 0x6000 7).2 ?_
  unfold UserKept
  rw [if_neg (by decide)]
  exact fun _ => by decide

/-! ### A page for the user -/

/-- The PML4 at `0x1000` and two more tables map the first 2 MB onto themselves, for the user as well; two frames are in
the pool. -/
private def userMapped : Memory :=
  (identityMapRegion ⟨.atOneMb 0x2000 (by decide), Bitmap.empty, fun _ => .free, [0x4000, 0x5000], fun _ _ => 0⟩ ⟨0x2000, 0x2000⟩
    0x1000 0 0x200000 7).1

/-- Then the next page is mapped for the user, which opens the entries above. -/
private def userOpened : Memory := (userMapped.mapPageGlobal 0x1000 0x200000 0x200000 7).1

/-- Then a split takes the access to the first 2 MB; before, mapping one of their pages would have given access to all. -/
theorem split_closes_user :
    (userOpened.walk 0x1000 0x6000 = some [0x2007, 0x3007, 0x87] ∧
      ¬ KeepsRights 0x1000 userOpened (userOpened.splitHugePageGlobal 0x1000 0x6000).1 (SameHuge 0x6000)) ∧
    (userMapped.walk 0x1000 0x6000 = some [0x2003, 0x3003, 0x87] ∧
      ¬ KeepsRights 0x1000 userMapped (userMapped.mapPageGlobal 0x1000 0x6000 0x6000 7).1 (OtherPage 0x6000)) := by
  refine ⟨⟨by decide, fun h => ?_⟩, ⟨by decide, fun h => ?_⟩⟩
  · exact absurd (h 0x6000 (.refl 0x6000)) (by decide)
  · exact absurd (h 0x7000 ⟨⟨by decide, by decide, by decide⟩, by decide⟩) (by decide)

end Memory

end Rost
