import Rost.Memory.Physical

/-!
# Page tables

The 4-level tables of x86-64: PML4, PDPT, PD and PT, 512 entries each, addressed by the physical address of their
frame.  A PD entry with the page-size bit is a 2 MB leaf.  The functions below are those of the kernel's paging code;
`walk` is the hardware's own walk, which also collects the access rights.
-/

namespace Rost

/-! ### Entries -/

def ptePresent : Word := 0x1
def pteWritable : Word := 0x2
def pteUser : Word := 0x4
def pteHugePage : Word := 0x80
def pteNoExecute : Word := 0x8000000000000000
def pteAddrMask : Word := 0x000FFFFFFFFFF000
def pteHugeAddrMask : Word := 0x000FFFFFFFE00000

/-- The bytes of a 2 MB page. -/
def hugePageSize : Word := 0x200000

def pml4Index (virt : Word) : Fin 512 := low9 (virt >>> 39)
def pdptIndex (virt : Word) : Fin 512 := low9 (virt >>> 30)
def pdIndex (virt : Word) : Fin 512 := low9 (virt >>> 21)
def ptIndex (virt : Word) : Fin 512 := low9 (virt >>> 12)

/-- The physical address of the crash log, mapped at the same virtual address. -/
def crashLogPhys : Word := 0x4000

namespace Memory

/-! ### Boot: tables from the bump allocator -/

def allocTable (m : Memory) (alloc : PhysicalAllocator) : Memory × PhysicalAllocator × Option Word :=
  match alloc.allocate 4096 with
  | (alloc, none) => (m, alloc, none)
  | (alloc, some phys) => (m.zeroFrame (BitVec.ofNat 64 phys), alloc, some (BitVec.ofNat 64 phys))

/-- The table behind entry `i` of `table`, created if it is absent. -/
def ensureTable (m : Memory) (alloc : PhysicalAllocator) (table : Word) (i : Fin 512) :
    Memory × PhysicalAllocator × Option Word :=
  if m.ram table i &&& ptePresent = 0 then
    match m.allocTable alloc with
    | (m, alloc, none) => (m, alloc, none)
    | (m, alloc, some phys) =>
      let entry := phys &&& pteAddrMask ||| ptePresent ||| pteWritable
      (m.writeEntry table i entry, alloc, some (entry &&& pteAddrMask))
  else (m, alloc, some (m.ram table i &&& pteAddrMask))

def mapPage (m : Memory) (alloc : PhysicalAllocator) (pml4 virt phys flags : Word) :
    Memory × PhysicalAllocator × Bool :=
  match m.ensureTable alloc pml4 (pml4Index virt) with
  | (m, alloc, none) => (m, alloc, false)
  | (m, alloc, some pdpt) =>
    match m.ensureTable alloc pdpt (pdptIndex virt) with
    | (m, alloc, none) => (m, alloc, false)
    | (m, alloc, some pd) =>
      match m.ensureTable alloc pd (pdIndex virt) with
      | (m, alloc, none) => (m, alloc, false)
      | (m, alloc, some pt) =>
        (m.writeEntry pt (ptIndex virt) (phys &&& pteAddrMask ||| flags &&& ~~~pteHugePage), alloc, true)

/-- The loop of `identity_map_region`: `count` pages of 2 MB from `addr` on, those already present left alone. -/
def identityMapLoop (pml4 flags : Word) : Nat → Word → Memory × PhysicalAllocator → Memory × PhysicalAllocator
  | 0, _, s => s
  | count + 1, addr, (m, alloc) =>
    match m.ensureTable alloc pml4 (pml4Index addr) with
    | (m, alloc, none) => (m, alloc)
    | (m, alloc, some pdpt) =>
      match m.ensureTable alloc pdpt (pdptIndex addr) with
      | (m, alloc, none) => (m, alloc)
      | (m, alloc, some pd) =>
        let m :=
          if m.ram pd (pdIndex addr) &&& ptePresent = 0 then
            m.writeEntry pd (pdIndex addr) (addr &&& pteHugeAddrMask ||| flags ||| pteHugePage)
          else m
        identityMapLoop pml4 flags count (addr + hugePageSize) (m, alloc)

/-- One round of the loop of `identity_map_region`, and whether the tables could be built. -/
def identityMapPage (pml4 flags addr : Word) :
    Memory × PhysicalAllocator → (Memory × PhysicalAllocator) × Bool
  | (m, alloc) =>
    match m.ensureTable alloc pml4 (pml4Index addr) with
    | (m, alloc, none) => ((m, alloc), false)
    | (m, alloc, some pdpt) =>
      match m.ensureTable alloc pdpt (pdptIndex addr) with
      | (m, alloc, none) => ((m, alloc), false)
      | (m, alloc, some pd) =>
        if m.ram pd (pdIndex addr) &&& ptePresent = 0 then
          ((m.writeEntry pd (pdIndex addr) (addr &&& pteHugeAddrMask ||| flags ||| pteHugePage), alloc), true)
        else ((m, alloc), true)

theorem identityMapLoop_succ (pml4 flags : Word) (count : Nat) (addr : Word) (s : Memory × PhysicalAllocator) :
    identityMapLoop pml4 flags (count + 1) addr s =
      match identityMapPage pml4 flags addr s with
      | (s, false) => s
      | (s, true) => identityMapLoop pml4 flags count (addr + hugePageSize) s := by
  obtain ⟨m, alloc⟩ := s
  conv_lhs => unfold identityMapLoop
  unfold identityMapPage
  simp only
  split
  · rfl
  · split
    · rfl
    · split <;> rfl

/-- Map a region onto itself, both ends rounded to 2 MB. -/
def identityMapRegion (m : Memory) (alloc : PhysicalAllocator) (pml4 physBase size flags : Word) :
    Memory × PhysicalAllocator :=
  let start := physBase &&& ~~~(hugePageSize - 1)
  let stop := (BitVec.ofNat 64 (saturatingAdd physBase.toNat size.toNat) + hugePageSize - 1) &&&
    ~~~(hugePageSize - 1)
  identityMapLoop pml4 flags ((stop.toNat - start.toNat) / hugePageSize.toNat) start (m, alloc)

/-! ### Tables from the global allocators -/

/-- The 512 entries of the page table that stands for the 2 MB page `entry`. -/
def splitEntry (entry : Word) (i : Fin 512) : Word :=
  (entry &&& pteHugeAddrMask) + BitVec.ofNat 64 (i.val * 4096) ||| entry &&& ~~~pteHugeAddrMask &&& ~~~pteHugePage

/-- Zero the frame `pt` and fill it with the pages of the 2 MB page `entry`. -/
def fillSplit (m : Memory) (pt entry : Word) : Memory :=
  { m with ram := fun f j => if f = pt then splitEntry entry j else m.ram f j }

/-- The closure `alloc_fn` of `map_page_global` on entry `i` of `table`: the table behind it, created if it is absent,
split from a 2 MB page, or opened to user mode. -/
def allocFn (m : Memory) (userFlag table : Word) (i : Fin 512) : Memory × Option Word :=
  let entry := m.ram table i
  if entry &&& ptePresent = 0 then
    match m.allocPtFrame with
    | (m, none) => (m, none)
    | (m, some p) =>
      let entry := p &&& pteAddrMask ||| ptePresent ||| pteWritable ||| userFlag
      ((m.zeroFrame p).writeEntry table i entry, some (entry &&& pteAddrMask))
  else if entry &&& pteHugePage ≠ 0 then
    match m.allocPtFrame with
    | (m, none) => (m, none)
    | (m, some p) =>
      let entry' := p &&& pteAddrMask ||| ptePresent ||| pteWritable ||| userFlag
      ((m.fillSplit p entry).writeEntry table i entry', some (entry' &&& pteAddrMask))
  else if userFlag ≠ 0 ∧ entry &&& pteUser = 0 then
    (m.writeEntry table i (entry ||| pteUser), some ((entry ||| pteUser) &&& pteAddrMask))
  else (m, some (entry &&& pteAddrMask))

def mapPageGlobal (m : Memory) (pml4 virt phys flags : Word) : Memory × Bool :=
  let userFlag := flags &&& pteUser
  match m.allocFn userFlag pml4 (pml4Index virt) with
  | (m, none) => (m, false)
  | (m, some pdpt) =>
    match m.allocFn userFlag pdpt (pdptIndex virt) with
    | (m, none) => (m, false)
    | (m, some pd) =>
      match m.allocFn userFlag pd (pdIndex virt) with
      | (m, none) => (m, false)
      | (m, some pt) =>
        (m.writeEntry pt (ptIndex virt) (phys &&& pteAddrMask ||| flags &&& ~~~pteHugePage), true)

/-! ### The kernel's own tables -/

/-- The page directory that covers `virt`, if the two levels above it are present. -/
def pageDirectory (m : Memory) (pml4 virt : Word) : Option Word :=
  let e4 := m.ram pml4 (pml4Index virt)
  if e4 &&& ptePresent = 0 then none
  else
    let e3 := m.ram (e4 &&& pteAddrMask) (pdptIndex virt)
    if e3 &&& ptePresent = 0 then none else some (e3 &&& pteAddrMask)

/-- The page table that covers `virt`, unless a level is absent or `virt` lies in a 2 MB page. -/
def pageTable (m : Memory) (pml4 virt : Word) : Option Word :=
  match m.pageDirectory pml4 virt with
  | none => none
  | some pd =>
    let e2 := m.ram pd (pdIndex virt)
    if e2 &&& ptePresent = 0 then none else if e2 &&& pteHugePage ≠ 0 then none else some (e2 &&& pteAddrMask)

def splitHugePageGlobal (m : Memory) (pml4 virt : Word) : Memory × Bool :=
  match m.pageDirectory pml4 virt with
  | none => (m, false)
  | some pd =>
    let entry := m.ram pd (pdIndex virt)
    if entry &&& ptePresent = 0 then (m, false)
    else if entry &&& pteHugePage = 0 then (m, true)
    else
      match m.allocPtFrame with
      | (m, none) => (m, false)
      | (m, some pt) =>
        ((m.fillSplit pt entry).writeEntry pd (pdIndex virt) (pt &&& pteAddrMask ||| ptePresent ||| pteWritable), true)

def unmapPage (m : Memory) (pml4 virt : Word) : Memory × Bool :=
  match m.pageTable pml4 virt with
  | none => (m, false)
  | some pt => (m.writeEntry pt (ptIndex virt) 0, true)

def remapPageFlags (m : Memory) (pml4 virt newFlags : Word) : Memory × Bool :=
  match m.pageTable pml4 virt with
  | none => (m, false)
  | some pt =>
    let old := m.ram pt (ptIndex virt)
    if old &&& ptePresent = 0 then (m, false)
    else (m.writeEntry pt (ptIndex virt) (old &&& pteAddrMask ||| newFlags &&& ~~~pteHugePage), true)

/-! ### Translation -/

def translateAddress (m : Memory) (pml4 virt : Word) : Option Word :=
  match m.pageDirectory pml4 virt with
  | none => none
  | some pd =>
    let e2 := m.ram pd (pdIndex virt)
    if e2 &&& ptePresent = 0 then none
    else if e2 &&& pteHugePage ≠ 0 then some (e2 &&& pteHugeAddrMask ||| virt &&& 0x1FFFFF#64)
    else
      let e1 := m.ram (e2 &&& pteAddrMask) (ptIndex virt)
      if e1 &&& ptePresent = 0 then none else some (e1 &&& pteAddrMask ||| virt &&& 0xFFF#64)

/-- The entries the hardware reads on its walk for `virt`, from the PML4 down to the leaf; `none` if one is absent. -/
def walk (m : Memory) (pml4 virt : Word) : Option (List Word) :=
  let e4 := m.ram pml4 (pml4Index virt)
  if e4 &&& ptePresent = 0 then none
  else
    let e3 := m.ram (e4 &&& pteAddrMask) (pdptIndex virt)
    if e3 &&& ptePresent = 0 then none
    else
      let e2 := m.ram (e3 &&& pteAddrMask) (pdIndex virt)
      if e2 &&& ptePresent = 0 then none
      else if e2 &&& pteHugePage ≠ 0 then some [e4, e3, e2]
      else
        let e1 := m.ram (e2 &&& pteAddrMask) (ptIndex virt)
        if e1 &&& ptePresent = 0 then none else some [e4, e3, e2, e1]

/-- The page of `virt` is present with the given right on every level. -/
def hasRight (m : Memory) (pml4 virt right : Word) : Bool :=
  (m.walk pml4 virt).any fun entries => entries.all fun e => decide (e &&& right ≠ 0)

/-! ### User address spaces -/

/-- One copy loop of `merge_kernel_into_user_pml4`: the present entries 1..511 of `kern` go to the empty entries of
`user`.  Every index is read and written once, so the loop is one update. -/
def copyEntries (m : Memory) (kern user : Word) : Memory :=
  { m with
    ram := fun f j =>
      if f = user ∧ j ≠ 0 ∧ m.ram kern j &&& ptePresent ≠ 0 ∧ m.ram user j = 0 then m.ram kern j else m.ram f j }

/-- The table behind entry 0 of `table`, created from the bitmap if it is absent. -/
def ensureFirst (m : Memory) (table : Word) : Memory × Option Word :=
  if m.ram table 0 &&& ptePresent = 0 then
    match m.globalAlloc4k with
    | (m, none) => (m, none)
    | (m, some p) =>
      let entry := p ||| ptePresent ||| pteWritable ||| pteUser
      ((m.zeroFrame p).writeEntry table 0 entry, some (entry &&& pteAddrMask))
  else (m, some (m.ram table 0 &&& pteAddrMask))

/-- Copy the kernel's entries into a user PML4 on three levels, except for the first 2 MB. -/
def mergeKernelIntoUserPml4 (m : Memory) (kernelPml4 user : Word) : Memory :=
  if kernelPml4 = 0 then m
  else
    let m := m.copyEntries kernelPml4 user
    if m.ram kernelPml4 0 &&& ptePresent = 0 then m
    else
      let kernPdpt := m.ram kernelPml4 0 &&& pteAddrMask
      match m.ensureFirst user with
      | (m, none) => m
      | (m, some userPdpt) =>
        let m := m.copyEntries kernPdpt userPdpt
        if m.ram kernPdpt 0 &&& ptePresent = 0 then m
        else
          let kernPd := m.ram kernPdpt 0 &&& pteAddrMask
          match m.ensureFirst userPdpt with
          | (m, none) => m
          | (m, some userPd) => m.copyEntries kernPd userPd

def mapCrashLogPage (m : Memory) (user : Word) : Memory :=
  (m.mapPageGlobal user crashLogPhys crashLogPhys (ptePresent ||| pteWritable)).1

/-! ### Building page tables only consumes frames -/

/-- No frame has become free on the way from `m` to `m'`. -/
structure Consumes (m m' : Memory) : Prop where
  region : m'.region = m.region
  isFree : ∀ i, m'.isFree i = true → m.isFree i = true
  ptPool : m'.ptPool <:+ m.ptPool

namespace Consumes

theorem refl (m : Memory) : Consumes m m := ⟨rfl, fun _ h => h, List.suffix_refl _⟩

theorem trans {m₁ m₂ m₃ : Memory} (h : Consumes m₁ m₂) (h' : Consumes m₂ m₃) : Consumes m₁ m₃ :=
  ⟨h'.region.trans h.region, fun i hi => h.isFree i (h'.isFree i hi), h'.ptPool.trans h.ptPool⟩

theorem not_free {m m' : Memory} {idx : Nat} (h : Consumes m m') (hm : m.isFree idx = false) :
    m'.isFree idx = false := by
  cases hc : m'.isFree idx with
  | false => rfl
  | true =>
    have := h.isFree idx hc
    rw [hm] at this
    cases this

theorem writeEntry (m : Memory) (f : Word) (i : Fin 512) (w : Word) : Consumes m (m.writeEntry f i w) :=
  ⟨rfl, fun _ h => h, List.suffix_refl _⟩

theorem zeroFrame (m : Memory) (f : Word) : Consumes m (m.zeroFrame f) := ⟨rfl, fun _ h => h, List.suffix_refl _⟩

theorem fillSplit (m : Memory) (f w : Word) : Consumes m (m.fillSplit f w) := ⟨rfl, fun _ h => h, List.suffix_refl _⟩

theorem copyEntries (m : Memory) (f g : Word) : Consumes m (m.copyEntries f g) := ⟨rfl, fun _ h => h, List.suffix_refl _⟩

theorem frameTag (m : Memory) (p : Word) (k : FrameKind) : Consumes m (m.frameTag p k) := by
  refine ⟨m.frameTag_region p k, fun i h => ?_, ?_⟩
  · rwa [frameTag_isFree] at h
  · exact ⟨[], frameTag_ptPool m p k⟩

theorem globalAlloc4k (m : Memory) : Consumes m m.globalAlloc4k.1 := by
  rcases m.globalAlloc4k_cases with ⟨-, heq⟩ | ⟨idx, -, -, hfree, hpool, hregion, -⟩
  · rw [heq]; exact refl m
  · refine ⟨hregion, fun i h => ?_, ?_⟩
    · rw [hfree i] at h
      exact (Bool.and_eq_true_iff.1 h).1
    · exact ⟨[], hpool⟩

theorem allocPtFrame (m : Memory) : Consumes m m.allocPtFrame.1 := by
  unfold Memory.allocPtFrame poolAllocPt
  cases hpool : m.ptPool with
  | nil => exact globalAlloc4k m
  | cons p rest => exact ⟨rfl, fun _ h => h, by rw [hpool]; exact List.suffix_cons p rest⟩

theorem allocFn (m : Memory) (userFlag table : Word) (i : Fin 512) : Consumes m (m.allocFn userFlag table i).1 := by
  have halloc := allocPtFrame m
  unfold Memory.allocFn
  simp only
  split
  · split
    · rename_i heq; rw [heq] at halloc; exact halloc
    · rename_i heq
      rw [heq] at halloc
      exact (halloc.trans (zeroFrame _ _)).trans (writeEntry _ _ _ _)
  · split
    · split
      · rename_i heq; rw [heq] at halloc; exact halloc
      · rename_i heq
        rw [heq] at halloc
        exact (halloc.trans (fillSplit _ _ _)).trans (writeEntry _ _ _ _)
    · split
      · exact writeEntry _ _ _ _
      · exact refl m

theorem mapPageGlobal (m : Memory) (pml4 virt phys flags : Word) :
    Consumes m (m.mapPageGlobal pml4 virt phys flags).1 := by
  unfold Memory.mapPageGlobal
  simp only
  generalize flags &&& pteUser = userFlag
  have h₁ := allocFn m userFlag pml4 (pml4Index virt)
  split
  · rename_i heq; rw [heq] at h₁; exact h₁
  · rename_i m₁ pdpt heq
    rw [heq] at h₁
    have h₂ := allocFn m₁ userFlag pdpt (pdptIndex virt)
    split
    · rename_i heq₂; rw [heq₂] at h₂; exact h₁.trans h₂
    · rename_i m₂ pd heq₂
      rw [heq₂] at h₂
      have h₃ := allocFn m₂ userFlag pd (pdIndex virt)
      split
      · rename_i heq₃; rw [heq₃] at h₃; exact (h₁.trans h₂).trans h₃
      · rename_i m₃ pt heq₃
        rw [heq₃] at h₃
        exact ((h₁.trans h₂).trans h₃).trans (writeEntry _ _ _ _)

theorem ensureFirst (m : Memory) (table : Word) : Consumes m (m.ensureFirst table).1 := by
  have halloc := globalAlloc4k m
  unfold Memory.ensureFirst
  split
  · split
    · rename_i heq; rw [heq] at halloc; exact halloc
    · rename_i heq
      rw [heq] at halloc
      exact (halloc.trans (zeroFrame _ _)).trans (writeEntry _ _ _ _)
  · exact refl m

theorem mergeKernelIntoUserPml4 (m : Memory) (kernelPml4 user : Word) :
    Consumes m (m.mergeKernelIntoUserPml4 kernelPml4 user) := by
  unfold Memory.mergeKernelIntoUserPml4
  split
  · exact refl m
  · simp only
    have h₁ := copyEntries m kernelPml4 user
    generalize m.copyEntries kernelPml4 user = m₁ at h₁ ⊢
    split
    · exact h₁
    · generalize m₁.ram kernelPml4 0 &&& pteAddrMask = kernPdpt
      have h₂ := h₁.trans (ensureFirst m₁ user)
      split
      · rename_i heq; rw [heq] at h₂; exact h₂
      · rename_i m₂ userPdpt heq
        rw [heq] at h₂
        have h₃ := h₂.trans (copyEntries m₂ kernPdpt userPdpt)
        generalize m₂.copyEntries kernPdpt userPdpt = m₃ at h₃ ⊢
        split
        · exact h₃
        · have h₄ := h₃.trans (ensureFirst m₃ userPdpt)
          split
          · rename_i heq₂; rw [heq₂] at h₄; exact h₄
          · rename_i m₄ userPd heq₂
            rw [heq₂] at h₄
            exact h₄.trans (copyEntries _ _ _)

theorem mapCrashLogPage (m : Memory) (user : Word) : Consumes m (m.mapCrashLogPage user) :=
  mapPageGlobal m _ _ _ _

end Consumes

end Memory

end Rost
