import Rost.Memory.Widening
import Rost.Memory.Boot
import Rost.Lib.Run

/-!
# Single pages from the bump allocator

`map_page` works on the tables that `identity_map_region` builds, before the global allocators are set up.  It shares the
walk with `map_page_global`, but where that one splits a 2 MB page, `map_page` takes the first frame of the page for a
table (`mapPage_in_hugePage`).  Where no 2 MB page is in the way, it changes the translation of one page and no frame but
the tables (`mapPage_one_iff`).
-/

namespace Rost

open Lib (Run exec run_of_exec Bitmap)
open Lib.TableTree (TableAt resolve Layout)

/-- The two calls that build tables from the bump allocator. -/
inductive EarlyCall where
  | map (virt phys flags : Word)
  | region (physBase size flags : Word)

namespace Memory

/-- The hardware's walk for `virt` ends in a page directory. -/
def inHugePage (m : Memory) (pml4 virt : Word) : Bool := (m.walk pml4 virt).any fun entries => entries.length == 3

/-- One call on the tables of `kern`; `identity_map_region` returns nothing. -/
def earlyStep (kern : Word) (s : Memory × PhysicalAllocator) :
    EarlyCall → Option ((Memory × PhysicalAllocator) × Bool)
  | .map virt phys flags =>
    match s.1.mapPage s.2 kern virt phys flags with
    | (m, alloc, ok) => some ((m, alloc), ok)
  | .region physBase size flags => some (s.1.identityMapRegion s.2 kern physBase size flags, true)

/-- The call does not map a page inside of a 2 MB page. -/
def OutsideHuge (kern : Word) (s : Memory × PhysicalAllocator) : EarlyCall → Prop
  | .map virt _ _ => s.1.inHugePage kern virt = false
  | .region _ _ _ => True

instance (kern : Word) (s : Memory × PhysicalAllocator) (c : EarlyCall) : Decidable (OutsideHuge kern s c) :=
  match c with
  | .map virt _ _ => inferInstanceAs (Decidable (s.1.inHugePage kern virt = false))
  | .region _ _ _ => isTrue trivial

/-- The page of `virt` has come to `phys`, and nothing else has changed: neither another translation nor a frame that
is not a page table. -/
structure MapsOnePage (kern : Word) (m m' : Memory) (virt phys : Word) : Prop where
  page : m'.translateAddress kern virt = some phys
  others : ∀ v, pageNumber v ≠ pageNumber virt → m'.translateAddress kern v = m.translateAddress kern v
  data : ∀ f, (∀ p, ¬ TableAt m'.links kern 3 p f) → ∀ j, m'.ram f j = m.ram f j

/-- It does so if the way leads to a 2 MB page. -/
theorem inHugePage_eq (m : Memory) (pml4 virt : Word) :
    m.inHugePage pml4 virt = (resolve m.links (pathOf virt) pml4).any fun leaf => leaf.1 == 1 := by
  unfold inHugePage walk pathOf
  simp only [resolve, List.length_cons, List.length_nil, Nat.zero_add, Nat.reduceAdd]
  by_cases h4 : m.ram pml4 (pml4Index virt) &&& ptePresent = 0
  · rw [if_pos h4, show m.links 3 pml4 (pml4Index virt) = .none from decode_absent h4 3]
    rfl
  · rw [if_neg h4, show m.links 3 pml4 (pml4Index virt) = .table _ from decode_upper h4 (by decide)]
    simp only
    generalize m.ram pml4 (pml4Index virt) &&& pteAddrMask = pdpt
    by_cases h3 : m.ram pdpt (pdptIndex virt) &&& ptePresent = 0
    · rw [if_pos h3, show m.links 2 pdpt (pdptIndex virt) = .none from decode_absent h3 2]
      rfl
    · rw [if_neg h3, show m.links 2 pdpt (pdptIndex virt) = .table _ from decode_upper h3 (by decide)]
      simp only
      generalize m.ram pdpt (pdptIndex virt) &&& pteAddrMask = pd
      by_cases h2 : m.ram pd (pdIndex virt) &&& ptePresent = 0
      · rw [if_pos h2, show m.links 1 pd (pdIndex virt) = .none from decode_absent h2 1]
        rfl
      · rw [if_neg h2]
        by_cases hplain : m.ram pd (pdIndex virt) &&& pteHugePage = 0
        · rw [if_neg (not_not.2 hplain),
            show m.links 1 pd (pdIndex virt) = .table _ from decode_small h2 hplain (by decide)]
          simp only
          generalize m.ram pd (pdIndex virt) &&& pteAddrMask = pt
          by_cases h1 : m.ram pt (ptIndex virt) &&& ptePresent = 0
          · rw [if_pos h1, show m.links 0 pt (ptIndex virt) = .none from decode_absent h1 0]
            rfl
          · rw [if_neg h1, show m.links 0 pt (ptIndex virt) = .leaf _ from decode_page h1]
            rfl
        · rw [if_pos hplain, show m.links 1 pd (pdIndex virt) = .leaf _ from decode_huge h2 hplain]
          rfl

section MapPage

variable {m m' : Memory} {alloc alloc' : PhysicalAllocator} {kern virt phys flags : Word} {tag : Tags} {ok : Bool}

/-- The page directory of an address that lies in no 2 MB page has no such page there. -/
private theorem plain_of_outside (T : Tables m kern tag) {pd : Word}
    (hpd : tag pd = some (kern, [pml4Index virt, pdptIndex virt])) (hout : m.inHugePage kern virt = false)
    (hpresent : m.ram pd (pdIndex virt) &&& ptePresent ≠ 0) : m.ram pd (pdIndex virt) &&& pteHugePage = 0 := by
  by_contra hhuge
  have hpath : pathOf virt = [pml4Index virt, pdptIndex virt] ++ [pdIndex virt, ptIndex virt] := rfl
  have hres : resolve m.links (pathOf virt) kern = some (1, m.ram pd (pdIndex virt)) := by
    rw [hpath, Lib.TableTree.resolve_of_descend (by simp) (T.layout.descend_of_tag hpd)]
    unfold resolve
    rw [show m.links [ptIndex virt].length pd (pdIndex virt) = .leaf _ from decode_huge hpresent hhuge]
    rfl
  rw [inHugePage_eq, hres] at hout
  cases hout

/-- Outside of the 2 MB pages `map_page` sets one page, and changes no frame but the tables. -/
theorem Booting.mapPage (B : Booting m alloc kern tag) (hout : m.inHugePage kern virt = false)
    (h : m.mapPage alloc kern virt phys flags = (m', alloc', ok)) :
    ∃ tag', Booting m' alloc' kern tag' ∧ KernBuilds kern flags m tag m' tag' ∧
      (ok = true → m'.translateAddress kern = setPage (m.translateAddress kern) virt (pageEntry phys flags) ∧
        ∀ f, tag' f = none → ∀ j, m'.ram f j = m.ram f j) := by
  unfold Memory.mapPage at h
  split at h
  · rename_i m₁ alloc₁ h₁
    cases h
    obtain ⟨tag₁, B₁, hb₁, -⟩ := B.ensureTable flags B.tables.layout.kern_root (by decide) nofun h₁
    exact ⟨tag₁, B₁, hb₁, nofun⟩
  · rename_i m₁ alloc₁ pdpt h₁
    obtain ⟨tag₁, B₁, hb₁, hk₁, -, hpdpt⟩ := B.ensureTable flags B.tables.layout.kern_root (by decide) nofun h₁
    split at h
    · rename_i m₂ alloc₂ h₂
      cases h
      obtain ⟨tag₂, B₂, hb₂, -⟩ := B₁.ensureTable flags (hpdpt pdpt rfl) (by simp) (by simp) h₂
      exact ⟨tag₂, B₂, hb₁.trans hb₂, nofun⟩
    · rename_i m₂ alloc₂ pd h₂
      obtain ⟨tag₂, B₂, hb₂, hk₂, -, hpd⟩ := B₁.ensureTable flags (hpdpt pdpt rfl) (by simp) (by simp) h₂
      have hpd := hpd pd rfl
      have hkeep₂ := hk₁.trans hb₂.grows hk₂
      -- the first two calls may have added tables, but no page
      have hout₂ : m₂.inHugePage kern virt = false := by
        rw [inHugePage_eq, hkeep₂.resolve virt, ← inHugePage_eq]
        exact hout
      have hplain := plain_of_outside B₂.tables hpd hout₂
      split at h
      · rename_i m₃ alloc₃ h₃
        cases h
        obtain ⟨tag₃, B₃, hb₃, -⟩ := B₂.ensureTable flags hpd (by simp) (fun _ => hplain) h₃
        exact ⟨tag₃, B₃, (hb₁.trans hb₂).trans hb₃, nofun⟩
      · rename_i m₃ alloc₃ pt h₃
        cases h
        obtain ⟨tag₃, B₃, hb₃, hk₃, -, hpt⟩ := B₂.ensureTable flags hpd (by simp) (fun _ => hplain) h₃
        have hpt := hpt pt rfl
        have hkeep₃ := hkeep₂.trans hb₃.grows hk₃
        have hwrite : KernBuilds kern flags m₃ tag₃ (m₃.writeEntry pt (ptIndex virt) (pageEntry phys flags)) tag₃ :=
          hb₃.tables.kern_writePage hpt (by simp) fun hflags _ => (pageEntry_user phys flags).trans hflags
        refine ⟨tag₃, B₃.builds hwrite, ((hb₁.trans hb₂).trans hb₃).trans hwrite, fun _ => ⟨?_, fun f hf j => ?_⟩⟩
        · have hsame : m₃.translateAddress kern = m.translateAddress kern := by
            funext v
            rw [translateAddress_eq, hkeep₃.resolve v, ← translateAddress_eq]
          rw [← hsame]
          exact B₃.tables.translateAddress_writePage hpt
        · -- the page table itself is tagged
          have hne : f ≠ pt := by
            rintro rfl
            rw [hpt] at hf
            cases hf
          exact (if_neg fun hhere => hne hhere.1).trans (hkeep₃.data f hf j)

/-- The tables lie below the heap, and all of them are the kernel's. -/
def EarlyTables (kern : Word) (s : Memory × PhysicalAllocator) : Prop :=
  ∃ tag, Booting s.1 s.2 kern tag ∧ KernOnly (fun _ => True) kern s.1 tag

theorem EarlyTables.start (h : BootStart kern m alloc) : EarlyTables kern (m, alloc) :=
  (Mapped.start h).booting

/-- Every call outside of the 2 MB pages keeps the tables. -/
theorem EarlyTables.step {s t : Memory × PhysicalAllocator} {c : EarlyCall} (h : EarlyTables kern s)
    (hout : OutsideHuge kern s c) (hstep : earlyStep kern s c = some (t, ok)) : EarlyTables kern t := by
  obtain ⟨tag, B, hk⟩ := h
  cases c with
  | map virt phys flags =>
    obtain ⟨tag', B', hb, -⟩ := B.mapPage hout (rfl : s.1.mapPage s.2 kern virt phys flags = (_, _, _))
    obtain rfl := congrArg Prod.fst (Option.some.inj hstep)
    exact ⟨tag', B', hk.builds hb (Or.inl trivial)⟩
  | region physBase size flags =>
    obtain ⟨tag', B', hb⟩ := B.identityMapLoop flags _ _
    obtain rfl := congrArg Prod.fst (Option.some.inj hstep)
    exact ⟨tag', B', hk.builds hb (Or.inl trivial)⟩

/-- What is no page table has no tag. -/
private theorem KernOnly.untagged {allowed : Word → Prop} (hk : KernOnly allowed kern m tag) (T : Tables m kern tag)
    {f : Word} (hf : ∀ p, ¬ TableAt m.links kern 3 p f) : tag f = none := by
  cases htag : tag f with
  | none => rfl
  | some t =>
    obtain ⟨o, p⟩ := t
    obtain rfl : o = kern := hk.only htag
    exact absurd ⟨T.layout.depth htag, T.layout.descend_of_tag htag⟩ (hf p)

/-- The first byte of a page lies where the page does. -/
private theorem setPage_aligned {t : Word → Option Word} {e : Word} (hvirt : virt &&& 0xFFF#64 = 0)
    (he : e &&& ptePresent ≠ 0) : setPage t virt e virt = some (e &&& pteAddrMask) := by
  unfold setPage
  rw [if_pos rfl, if_neg he, hvirt]
  exact congrArg some BitVec.or_zero

end MapPage

/-- After any calls that stay outside of the 2 MB pages, a further `map_page` that succeeds outside of them maps the page
and changes nothing else, if and only if the address of the entry is `phys`. -/
theorem mapPage_one_iff {kern virt phys flags : Word} {m m' : Memory} {alloc alloc' : PhysicalAllocator}
    {s : Memory × PhysicalAllocator} {es : List (EarlyCall × Bool)} (hstart : BootStart kern m alloc)
    (hrun : Run (earlyStep kern) (OutsideHuge kern) (m, alloc) es s) (hvirt : virt &&& 0xFFF#64 = 0)
    (hpresent : flags &&& ptePresent ≠ 0) (hout : s.1.inHugePage kern virt = false)
    (hmap : s.1.mapPage s.2 kern virt phys flags = (m', alloc', true)) :
    MapsOnePage kern s.1 m' virt phys ↔ pageEntry phys flags &&& pteAddrMask = phys := by
  have htables : EarlyTables kern s := hrun.invariant (fun h hg hs => h.step hg hs) (.start hstart)
  obtain ⟨tag, B, hk⟩ := htables
  obtain ⟨tag', B', hb, hpage⟩ := B.mapPage hout hmap
  obtain ⟨htrans, hdata⟩ := hpage rfl
  have hk' : KernOnly (fun _ => True) kern m' tag' := hk.builds hb (Or.inl trivial)
  have hself : m'.translateAddress kern virt = some (pageEntry phys flags &&& pteAddrMask) := by
    rw [htrans]
    exact setPage_aligned hvirt (by rw [pageEntry_present]; exact hpresent)
  constructor
  · intro h
    exact Option.some.inj (hself.symm.trans h.page)
  · intro haddr
    refine ⟨?_, fun v hv => ?_, fun f hf => hdata f (hk'.untagged B'.tables hf)⟩
    · rw [hself, haddr]
    · rw [htrans]
      exact if_neg hv

/-- In a 2 MB page `map_page` takes the first frame of the page for a table: it writes into that frame, and reports
success. -/
theorem mapPage_in_hugePage {m : Memory} {alloc : PhysicalAllocator} {kern virt phys flags e4 e3 e2 : Word}
    (h : m.walk kern virt = some [e4, e3, e2]) : m.mapPage alloc kern virt phys flags =
      (m.writeEntry (e2 &&& pteAddrMask) (ptIndex virt) (pageEntry phys flags), alloc, true) := by
  obtain ⟨⟨h4, hp4⟩, ⟨h3, hp3⟩, h2, hp2, -⟩ := walk_entries h
  unfold Memory.mapPage Memory.ensureTable
  rw [h4, if_neg hp4]
  simp only
  rw [h3, if_neg hp3]
  simp only
  rw [h2, if_neg hp2]
  rfl

/-! ### A run from boot -/

/-- The PML4 at `0x10000`, and a heap of 4 MB above the first megabyte. -/
private def early : Memory × PhysicalAllocator :=
  (⟨.atOneMb 0x1000 (by decide), Bitmap.empty, fun _ => .free, [], fun _ _ => 0⟩, ⟨0x100000, 0x400000⟩)

private theorem bootStart_early : BootStart 0x10000 early.1 early.2 :=
  ⟨by unfold IsTableAddr; decide, fun _ => rfl, fun _ => Bitmap.test_empty _, rfl, by decide, by decide, by decide⟩

/-- The first 2 MB are mapped onto themselves; then the page behind them is mapped to `0x6000`. -/
theorem mapPage_one_behind : ∃ es s m' alloc',
    Run (earlyStep 0x10000) (OutsideHuge 0x10000) early es s ∧ s.1.mapPage s.2 0x10000 0x200000 0x6000 3 = (m', alloc', true) ∧
      (MapsOnePage 0x10000 s.1 m' 0x200000 0x6000 ↔ pageEntry 0x6000 3 &&& pteAddrMask = 0x6000) := by
  have hexec : (exec (earlyStep 0x10000) (OutsideHuge 0x10000) early [.region 0 0x200000 3]).any (fun out =>
      decide (out.1.1.inHugePage 0x10000 0x200000 = false ∧
        (out.1.1.mapPage out.1.2 0x10000 0x200000 0x6000 3).2.2 = true)) = true := by decide
  obtain ⟨⟨s, es⟩, hrun, hout⟩ := (Option.any_eq_true _ _).1 hexec
  obtain ⟨hout, hok⟩ := of_decide_eq_true hout
  have hrun := run_of_exec hrun
  have hmap : s.1.mapPage s.2 0x10000 0x200000 0x6000 3 = (_, _, true) := Prod.ext rfl (Prod.ext rfl hok)
  exact ⟨es, s, _, _, hrun, hmap, mapPage_one_iff bootStart_early hrun (by decide) (by decide) hout hmap⟩

/-- Inside of the first 2 MB the call reports success as well, but the page stays where it was. -/
theorem mapPage_lost : ∃ es s m' alloc', BootStart 0x10000 early.1 early.2 ∧
    Run (earlyStep 0x10000) (fun _ _ => True) early es s ∧ s.1.mapPage s.2 0x10000 0x5000 0x6000 3 = (m', alloc', true) ∧
      ¬ MapsOnePage 0x10000 s.1 m' 0x5000 0x6000 := by
  have hexec : (exec (earlyStep 0x10000) (fun _ _ => True) early [.region 0 0x200000 3]).any (fun out =>
      decide ((out.1.1.mapPage out.1.2 0x10000 0x5000 0x6000 3).2.2 = true ∧
        (out.1.1.mapPage out.1.2 0x10000 0x5000 0x6000 3).1.translateAddress 0x10000 0x5000 = some 0x5000)) = true := by
    decide
  obtain ⟨⟨s, es⟩, hrun, hout⟩ := (Option.any_eq_true _ _).1 hexec
  obtain ⟨hok, htrans⟩ := of_decide_eq_true hout
  refine ⟨es, s, _, _, bootStart_early, run_of_exec hrun, Prod.ext rfl (Prod.ext rfl hok), fun h => ?_⟩
  rw [h.page] at htrans
  cases htrans

end Memory

end Rost
