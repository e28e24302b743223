import Rost.Memory.Boot
import Rost.Lib.Run

/-!
# Page tables refine a map of pages

A tree of page tables is a map from pages to frames, and the functions that change single pages change single points
of it: `map_page_global` sets one page, also when it has to split a 2 MB page for it, `unmap_page` clears one,
`split_huge_page_global` and `remap_page_flags` change none, and a call that fails changes nothing.  This holds for
every sequence of calls on a tree in which no table is reached on two paths, with allocators that hand out unused
frames (`PageTree`), and entries as the kernel writes them (`PlainEntries`): the page-size bit stands in page
directories only, 2 MB pages are aligned, and flags have no bits of an address.
-/

namespace Rost

open Lib (Run exec run_of_exec)
open Lib.TableTree (TableAt pathTag)

/-- The calls that change single pages of a tree. -/
inductive PageOp where
  | map (virt phys flags : Word)
  | split (virt : Word)
  | remap (virt flags : Word)
  | unmap (virt : Word)

namespace PageOp

def flags : PageOp → Word
  | .map _ _ flags => flags
  | .remap _ flags => flags
  | _ => 0

/-- What a call that returns `ok` does to a map from addresses to addresses. -/
def onMap (op : PageOp) (ok : Bool) (t : Word → Option Word) (v : Word) : Option Word :=
  match op, ok with
  | .map virt phys flags, true =>
    if pageNumber v = pageNumber virt then
      if flags &&& ptePresent = 0 then none else some (phys &&& pteAddrMask ||| v &&& 0xFFF#64)
    else t v
  | .remap virt flags, true => if pageNumber v = pageNumber virt ∧ flags &&& ptePresent = 0 then none else t v
  | .unmap virt, true => if pageNumber v = pageNumber virt then none else t v
  | _, _ => t v

end PageOp

namespace Memory

/-- A call on the tree of `root`. -/
def pageStep (root : Word) (m : Memory) : PageOp → Option (Memory × Bool)
  | .map virt phys flags => some (m.mapPageGlobal root virt phys flags)
  | .split virt => some (m.splitHugePageGlobal root virt)
  | .remap virt flags => some (m.remapPageFlags root virt flags)
  | .unmap virt => some (m.unmapPage root virt)

/-- No page table of `root` is reached on two paths, and the allocators have none of them to hand out. -/
structure PageTree (m : Memory) (root : Word) : Prop where
  addr : IsTableAddr root
  unshared : ∀ p q f, TableAt m.links root 3 p f → TableAt m.links root 3 q f → p = q
  free : ∀ idx, idx < maxTrackedFrames → m.isFree idx = true → ∀ p, ¬ TableAt m.links root 3 p (m.frameAddr idx)
  pool : ∀ f ∈ m.ptPool, m.Reserved f ∧ ∀ p, ¬ TableAt m.links root 3 p f
  pool_nodup : m.ptPool.Nodup

/-- The page-size bit stands in page directories only, and there it marks an aligned 2 MB page. -/
structure PlainEntries (m : Memory) (root : Word) : Prop where
  upper : ∀ p f j, TableAt m.links root 3 p f → p.length < 2 → m.ram f j &&& ptePresent ≠ 0 →
    m.ram f j &&& pteHugePage = 0
  aligned : ∀ p f j, TableAt m.links root 3 p f → p.length = 2 → m.ram f j &&& ptePresent ≠ 0 →
    m.ram f j &&& pteHugePage ≠ 0 → m.ram f j &&& pteSubPageMask = 0

section Tree

variable {m m' : Memory} {root : Word} {tag : Tags} {op : PageOp} {ok : Bool}

private theorem isTableAddr_and (w : Word) : IsTableAddr (w &&& pteAddrMask) := by
  unfold IsTableAddr
  rw [BitVec.and_assoc, BitVec.and_self]

/-- Such a tree is a layout of tables. -/
theorem PageTree.tables (h : PageTree m root) (hplain : PlainEntries m root) :
    Tables m root (pathTag m.links root 3) ∧ Aligned m root (pathTag m.links root 3) := by
  have L := Lib.TableTree.layout_pathTag Shareable (fun f j c => decode_zero_ne_table (m.ram f j) c) h.unshared
  refine ⟨⟨L, ?_, ?_, ?_, ?_, h.pool_nodup⟩, ?_⟩
  · intro f t hf
    obtain ⟨o, p⟩ := t
    induction p using List.reverseRecOn with
    | nil =>
      obtain ⟨rfl, -⟩ := Lib.TableTree.pathTag_eq_some hf
      rw [L.root hf]
      exact h.addr
    | append_singleton p j _ =>
      obtain ⟨g, -, hlink⟩ := L.parent hf
      rw [← (decode_eq_table hlink).2.2]
      exact isTableAddr_and _
  · intro f o p j hf
    exact hplain.upper p f j (Lib.TableTree.pathTag_eq_some hf).2
  · intro idx hlt hfree
    exact Lib.TableTree.pathTag_eq_none (h.free idx hlt hfree)
  · intro p hp
    obtain ⟨hres, hnot⟩ := h.pool p hp
    exact ⟨Lib.TableTree.pathTag_eq_none hnot, hres⟩
  · intro f p j hf
    exact hplain.aligned p f j (Lib.TableTree.pathTag_eq_some hf).2

/-- The entry of a page that is written with flags that are no part of an address. -/
private theorem setPage_flags {t : Word → Option Word} {virt a flags : Word} (hflags : flags &&& pteAddrMask = 0) :
    setPage t virt (a &&& pteAddrMask ||| flags &&& ~~~pteHugePage) = fun v =>
      if pageNumber v = pageNumber virt then
        if flags &&& ptePresent = 0 then none else some (a &&& pteAddrMask ||| v &&& 0xFFF#64)
      else t v := by
  show setPage t virt (pageEntry a flags) = _
  funext v
  unfold setPage
  rw [pageEntry_present, pageEntry_and hflags]

/-- One call keeps the layout, and does to the translation what it does to a map. -/
private theorem Tables.pageStep (T : Tables m root tag) (ha : Aligned m root tag)
    (h : m.pageStep root op = some (m', ok)) : ∃ tag', Tables m' root tag' ∧ Aligned m' root tag' ∧
      ((ok = true → op.flags &&& pteAddrMask = 0) → m'.translateAddress root = op.onMap ok (m.translateAddress root)) := by
  cases op with
  | map virt phys flags =>
    obtain ⟨tag', hb, hpages⟩ := T.kern_mapPageGlobal (Option.some.inj h)
    refine ⟨tag', hb.tables, hpages.aligned ha, fun hflags => ?_⟩
    rw [hpages.translate ha]
    cases ok with
    | false => rfl
    | true =>
      have hflags : flags &&& pteAddrMask = 0 := hflags rfl
      simp only [if_true]
      rw [setPage_flags hflags]
      rfl
  | split virt =>
    obtain ⟨tag', hb, hpages⟩ := T.kern_splitHugePageGlobal virt
    have heq : m.splitHugePageGlobal root virt = (m', ok) := Option.some.inj h
    rw [heq] at hb hpages
    refine ⟨tag', hb.tables, hpages.aligned ha, fun _ => ?_⟩
    rw [hpages.translate ha]
    rfl
  | remap virt flags =>
    obtain ⟨hb, old, hpages, hold⟩ := T.kern_remapPageFlags (Option.some.inj h)
    refine ⟨tag, hb.tables, hpages.aligned ha, fun hflags => ?_⟩
    rw [hpages.translate ha]
    cases ok with
    | false => rfl
    | true =>
      have hflags : flags &&& pteAddrMask = 0 := hflags rfl
      simp only [if_true]
      rw [setPage_flags hflags]
      funext v
      simp only [PageOp.onMap]
      by_cases hpage : pageNumber v = pageNumber virt
      · rw [if_pos hpage, hold rfl v hpage]
        simp only [hpage, true_and]
      · simp only [hpage, false_and, if_false]
  | unmap virt =>
    obtain ⟨hb, hpages⟩ := T.kern_unmapPage (Option.some.inj h)
    refine ⟨tag, hb.tables, hpages.aligned ha, fun _ => ?_⟩
    rw [hpages.translate ha]
    cases ok with
    | false => rfl
    | true => rfl

end Tree

/-- After every sequence of calls, each further call does to the translation what it does to a map of pages. -/
theorem translateAddress_refines {m₀ m m' : Memory} {root : Word} {es : List (PageOp × Bool)} {op : PageOp} {ok : Bool}
    (htree : PageTree m₀ root) (hplain : PlainEntries m₀ root) (hrun : Run (pageStep root) (fun _ _ => True) m₀ es m)
    (hflags : ok = true → op.flags &&& pteAddrMask = 0) (hstep : m.pageStep root op = some (m', ok)) :
    m'.translateAddress root = op.onMap ok (m.translateAddress root) := by
  have hinv : ∃ tag, Tables m root tag ∧ Aligned m root tag := by
    refine hrun.invariant (P := fun m => ∃ tag, Tables m root tag ∧ Aligned m root tag) (fun hm _ hs => ?_)
      ⟨_, htree.tables hplain⟩
    obtain ⟨tag, T, ha⟩ := hm
    obtain ⟨tag', T', ha', -⟩ := T.pageStep ha hs
    exact ⟨tag', T', ha'⟩
  obtain ⟨tag, T, ha⟩ := hinv
  obtain ⟨-, -, -, heffect⟩ := T.pageStep ha hstep
  exact heffect hflags

/-! ### A small tree -/

/-- A PML4 at `0x1000`, a PDPT at `0x2000` with the first entry `e3`, and a page directory with the first entry `e2`. -/
def smallTree (e3 e2 : Word) : Memory :=
  { ofRegion (.atOneMb 0x10000 (by decide)) with
    ram := fun frame i =>
      if i ≠ 0 then 0
      else if frame = 0x1000 then 0x2007
      else if frame = 0x2000 then e3
      else if frame = 0x3000 then e2
      else 0 }

section SmallTree

variable {e3 e2 : Word}

private theorem smallTree_links {l : Nat} {f : Word} {i : Fin 512} (hi : i ≠ 0) :
    (smallTree e3 e2).links l f i = .none := by
  unfold links smallTree
  simp only [ne_eq, hi, not_false_eq_true, if_true]
  exact decode_zero l

/-- The tables of the small tree. -/
private theorem smallTree_tableAt (h3 : decode 2 e3 = .table 0x3000) (h2 : decode 1 e2 = .leaf e2) {p : List (Fin 512)}
    {f : Word} (h : TableAt (smallTree e3 e2).links 0x1000 3 p f) :
    (p = [] ∧ f = 0x1000) ∨ (p = [0] ∧ f = 0x2000) ∨ (p = [0, 0] ∧ f = 0x3000) := by
  have hslot : ∀ {l : Nat} {g : Word} {i : Fin 512} {q : List (Fin 512)},
      Lib.TableTree.descend (smallTree e3 e2).links (i :: q) l g = some f →
        i = 0 ∧ ∃ c, (smallTree e3 e2).links l g 0 = .table c ∧
          Lib.TableTree.descend (smallTree e3 e2).links q (l - 1) c = some f := by
    intro l g i q hd
    unfold Lib.TableTree.descend at hd
    by_cases hi : i = 0
    · subst hi
      split at hd
      · rename_i c hc
        exact ⟨rfl, c, hc, hd⟩
      · cases hd
    · rw [smallTree_links hi] at hd
      cases hd
  have hroot : (smallTree e3 e2).links 3 0x1000 0 = .table 0x2000 :=
    decode_upper (by decide : (0x2007 : Word) &&& ptePresent ≠ 0) (by decide)
  have hpdpt : (smallTree e3 e2).links 2 0x2000 0 = .table 0x3000 := h3
  have hpd : (smallTree e3 e2).links 1 0x3000 0 = .leaf e2 := h2
  obtain ⟨-, hd⟩ := h
  cases p with
  | nil => exact Or.inl ⟨rfl, (Option.some.inj hd).symm⟩
  | cons i p =>
    obtain ⟨rfl, c, hc, hd⟩ := hslot hd
    rw [hroot] at hc
    cases hc
    cases p with
    | nil => exact Or.inr (Or.inl ⟨rfl, (Option.some.inj hd).symm⟩)
    | cons i p =>
      obtain ⟨rfl, c, hc, hd⟩ := hslot hd
      rw [hpdpt] at hc
      cases hc
      cases p with
      | nil => exact Or.inr (Or.inr ⟨rfl, (Option.some.inj hd).symm⟩)
      | cons i p =>
        obtain ⟨rfl, c, hc, -⟩ := hslot hd
        rw [hpd] at hc
        cases hc

theorem smallTree_pageTree (h3 : decode 2 e3 = .table 0x3000) (h2 : decode 1 e2 = .leaf e2) :
    PageTree (smallTree e3 e2) 0x1000 := by
  refine ⟨(by decide : (0x1000 : Word) &&& pteAddrMask = 0x1000), fun p q f hp hq => ?_, fun idx hlt _ p hp => ?_, nofun, List.nodup_nil⟩
  · rcases smallTree_tableAt h3 h2 hp with ⟨rfl, rfl⟩ | ⟨rfl, rfl⟩ | ⟨rfl, rfl⟩ <;>
      rcases smallTree_tableAt h3 h2 hq with ⟨rfl, heq⟩ | ⟨rfl, heq⟩ | ⟨rfl, heq⟩ <;>
      first | rfl | exact absurd heq (by decide)
  · -- the region begins above the tables
    have hto := (smallTree e3 e2).toNat_frameAddr hlt
    have hbase : (smallTree e3 e2).region.base = 0x100000 := rfl
    have hf : ((smallTree e3 e2).frameAddr idx).toNat ≤ 0x3000 := by
      rcases smallTree_tableAt h3 h2 hp with ⟨-, heq⟩ | ⟨-, heq⟩ | ⟨-, heq⟩ <;> rw [heq] <;> decide
    omega

private theorem smallTree_plain (h3 : decode 2 e3 = .table 0x3000) (h2 : decode 1 e2 = .leaf e2)
    (hupper : e3 &&& pteHugePage = 0) (haligned : e2 &&& pteSubPageMask = 0) :
    PlainEntries (smallTree e3 e2) 0x1000 := by
  have hentry : ∀ f (j : Fin 512), j ≠ 0 → (smallTree e3 e2).ram f j = 0 := by
    intro f j hj
    unfold smallTree
    simp only [ne_eq, hj, not_false_eq_true, if_true]
  constructor
  · intro p f j hp hlen _
    by_cases hj : j = 0
    · subst hj
      rcases smallTree_tableAt h3 h2 hp with ⟨rfl, rfl⟩ | ⟨rfl, rfl⟩ | ⟨rfl, rfl⟩
      · exact (by decide : (0x2007 : Word) &&& pteHugePage = 0)
      · exact hupper
      · exact absurd hlen (by decide)
    · rw [hentry f j hj]
      decide
  · intro p f j hp hlen _ _
    by_cases hj : j = 0
    · subst hj
      rcases smallTree_tableAt h3 h2 hp with ⟨rfl, rfl⟩ | ⟨rfl, rfl⟩ | ⟨rfl, rfl⟩
      · exact absurd hlen (by decide)
      · exact absurd hlen (by decide)
      · exact haligned
    · rw [hentry f j hj]
      decide

end SmallTree

/-- The first 2 MB are mapped onto themselves; after another page has been mapped, the page 0 is moved to `0x6000`,
which splits the 2 MB page and leaves the rest of it in place. -/
theorem translateAddress_refines_split : ∃ es m m',
    Run (pageStep 0x1000) (fun _ _ => True) (smallTree 0x3007 0x87) es m ∧
      m.pageStep 0x1000 (.map 0 0x6000 3) = some (m', true) ∧
      m'.translateAddress 0x1000 = PageOp.onMap (.map 0 0x6000 3) true (m.translateAddress 0x1000) ∧
      m'.translateAddress 0x1000 0x10 = some 0x6010 ∧ m'.translateAddress 0x1000 0x1010 = some 0x1010 := by
  have h3 : decode 2 0x3007 = .table 0x3000 := decode_upper (by decide : (0x3007 : Word) &&& ptePresent ≠ 0) (by decide)
  have h2 : decode 1 0x87 = .leaf 0x87 := decode_huge (by decide) (by decide)
  have hexec : (exec (pageStep 0x1000) (fun _ _ => True) (smallTree 0x3007 0x87) [.map 0x200000 0x5000 7]).any
      (fun out => (out.1.pageStep 0x1000 (.map 0 0x6000 3)).any fun out' => decide (out'.2 = true ∧
        out'.1.translateAddress 0x1000 0x10 = some 0x6010 ∧ out'.1.translateAddress 0x1000 0x1010 = some 0x1010)) =
        true := by decide +kernel
  obtain ⟨⟨m, es⟩, hrun, hout⟩ := (Option.any_eq_true _ _).1 hexec
  obtain ⟨⟨m', ok⟩, hstep, hout⟩ := (Option.any_eq_true _ _).1 hout
  obtain ⟨hok, hpage, hrest⟩ := of_decide_eq_true hout
  dsimp only at hok hpage hrest hstep
  subst hok
  have hrun := run_of_exec hrun
  exact ⟨es, m, m', hrun, hstep, translateAddress_refines (smallTree_pageTree h3 h2)
    (smallTree_plain h3 h2 (by decide) (by decide)) hrun (fun _ => by decide) hstep, hpage, hrest⟩

/-- Flags with a bit of the address move the page that is mapped; a split moves the pages of a 2 MB page whose entry has
a bit below its address; and behind an entry of a PDPT with the page-size bit, mapping one page changes others. -/
theorem translateAddress_not_refined :
    (∃ m', PageTree (smallTree 0x3007 0x87) 0x1000 ∧
      (smallTree 0x3007 0x87).pageStep 0x1000 (.map 0x200000 0 0x1001) = some (m', true) ∧
      m'.translateAddress 0x1000 0x200000 = some 0x1000) ∧
    (∃ m', PageTree (smallTree 0x3007 0x1087) 0x1000 ∧
      (smallTree 0x3007 0x1087).translateAddress 0x1000 0 = some 0 ∧
      (smallTree 0x3007 0x1087).pageStep 0x1000 (.split 0) = some (m', true) ∧
      m'.translateAddress 0x1000 0 = some 0x1000) ∧
    (∃ m', PageTree (smallTree 0x3087 0x87) 0x1000 ∧
      (smallTree 0x3087 0x87).translateAddress 0x1000 0 = some 0 ∧
      (smallTree 0x3087 0x87).pageStep 0x1000 (.map 0x200000 0x5000 1) = some (m', true) ∧
      m'.translateAddress 0x1000 0 = some 0x5000) := by
  have hupper : decode 2 0x3007 = .table 0x3000 := decode_upper (by decide : (0x3007 : Word) &&& ptePresent ≠ 0) (by decide)
  have hupper' : decode 2 0x3087 = .table 0x3000 := decode_upper (by decide : (0x3087 : Word) &&& ptePresent ≠ 0) (by decide)
  have hhuge : decode 1 0x87 = .leaf 0x87 := decode_huge (by decide) (by decide)
  have hhuge' : decode 1 0x1087 = .leaf 0x1087 := decode_huge (by decide) (by decide)
  have hrun : ∀ (m : Memory) (op : PageOp) (v w : Word), (m.pageStep 0x1000 op).any (fun out =>
      decide (out.2 = true ∧ out.1.translateAddress 0x1000 v = some w)) = true →
        ∃ m', m.pageStep 0x1000 op = some (m', true) ∧ m'.translateAddress 0x1000 v = some w := by
    intro m op v w h
    obtain ⟨⟨m', ok⟩, hstep, hout⟩ := (Option.any_eq_true _ _).1 h
    obtain ⟨rfl, hv⟩ := of_decide_eq_true hout
    exact ⟨m', hstep, hv⟩
  refine ⟨?_, ?_, ?_⟩
  · obtain ⟨m', hstep, hv⟩ := hrun (smallTree 0x3007 0x87) (.map 0x200000 0 0x1001) 0x200000 0x1000
      (by decide +kernel)
    exact ⟨m', smallTree_pageTree hupper hhuge, hstep, hv⟩
  · obtain ⟨m', hstep, hv⟩ := hrun (smallTree 0x3007 0x1087) (.split 0) 0 0x1000 (by decide +kernel)
    exact ⟨m', smallTree_pageTree hupper hhuge', by decide +kernel, hstep, hv⟩
  · obtain ⟨m', hstep, hv⟩ := hrun (smallTree 0x3087 0x87) (.map 0x200000 0x5000 1) 0 0x5000 (by decide +kernel)
    exact ⟨m', smallTree_pageTree hupper' hhuge, by decide +kernel, hstep, hv⟩

end Memory

end Rost
