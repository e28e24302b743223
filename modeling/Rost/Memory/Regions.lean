import Rost.Memory.Boot
import Rost.Lib.Run

/-!
# Regions that are mapped onto themselves

The kernel's first tables come from calls of `identity_map_region` alone, so their page directories hold 2 MB pages and
nothing else.  Then one call, unless the allocator runs out, fills the 2 MB pages of its region that are absent
(`Booting.identityMapWhile`) and leaves the others as they are.  Two things can go wrong (`identityMapRegion_iff`): the
sum that rounds the end up overflows for a region near the top of the address space, and a page of the region may
already be there with another address, since a call beyond `2 ^ 48` fills the entries of the address modulo `2 ^ 48`.
-/

namespace Rost

open Lib (Run exec run_of_exec Bitmap)
open Lib.TableTree (resolve Layout)

/-! ### 2 MB pages -/

/-- The number of the 2 MB page of an address: its bits 21 to 47. -/
def hugeNumber (v : Word) : BitVec 27 := v.extractLsb' 21 27

/-- The bits of an address that the walk reads. -/
def lowAddress (v : Word) : Word := v &&& 0xFFFFFFFFFFFF#64

theorem toNat_lowAddress (v : Word) : (lowAddress v).toNat = v.toNat % 2 ^ 48 := by
  unfold lowAddress
  rw [BitVec.toNat_and]
  exact Nat.and_two_pow_sub_one_eq_mod v.toNat 48

private theorem toNat_hugeNumber (v : Word) : (hugeNumber v).toNat = v.toNat / 2 ^ 21 % 2 ^ 27 := by
  unfold hugeNumber
  rw [BitVec.extractLsb'_toNat, Nat.shiftRight_eq_div_pow]

/-- Two addresses take the same way to a page directory and its entry if they lie in the same 2 MB page. -/
theorem pd_path_eq_iff {v w : Word} :
    [pml4Index v, pdptIndex v, pdIndex v] = [pml4Index w, pdptIndex w, pdIndex w] ↔ hugeNumber v = hugeNumber w := by
  unfold pml4Index pdptIndex pdIndex
  simp only [List.cons.injEq, and_true, Fin.ext_iff, toNat_low9, ← BitVec.toNat_inj, toNat_hugeNumber]
  omega

/-- The 2 MB page that starts at `addr`. -/
theorem hugeNumber_eq_iff {addr v : Word} (haligned : addr.toNat % 2 ^ 21 = 0) (hlt : addr.toNat < 2 ^ 48) :
    hugeNumber v = hugeNumber addr ↔
      addr.toNat ≤ (lowAddress v).toNat ∧ (lowAddress v).toNat < addr.toNat + 2 ^ 21 := by
  rw [← BitVec.toNat_inj, toNat_hugeNumber, toNat_hugeNumber, toNat_lowAddress]
  omega

/-- In the 2 MB page that is mapped to itself every address is, up to the bits that the walk does not read. -/
theorem leaf_self {addr v : Word} (hlt : addr.toNat < 2 ^ 48) (h : hugeNumber v = hugeNumber addr) :
    addr &&& pteHugeAddrMask ||| v &&& 0x1FFFFF#64 = lowAddress v := by
  have hhuge : ∀ i : Fin 64, pteHugeAddrMask.getLsbD i = decide (21 ≤ i.val ∧ i.val < 52) := by decide
  have hlow : ∀ i : Fin 64, (0x1FFFFF#64).getLsbD i = decide (i.val < 21) := by decide
  have hread : ∀ i : Fin 64, (0xFFFFFFFFFFFF#64).getLsbD i = decide (i.val < 48) := by decide
  unfold lowAddress
  refine BitVec.eq_of_getLsbD_eq fun i hi => ?_
  rw [BitVec.getLsbD_or, BitVec.getLsbD_and, BitVec.getLsbD_and, BitVec.getLsbD_and, hhuge ⟨i, hi⟩, hlow ⟨i, hi⟩,
    hread ⟨i, hi⟩]
  by_cases h21 : i < 21
  · simp [h21, show i < 48 by omega, show ¬ 21 ≤ i by omega]
  · by_cases h48 : i < 48
    · have hbit : (hugeNumber v).getLsbD (i - 21) = (hugeNumber addr).getLsbD (i - 21) := by rw [h]
      unfold hugeNumber at hbit
      rw [BitVec.getLsbD_extractLsb', BitVec.getLsbD_extractLsb', decide_eq_true (by omega), Bool.true_and,
        Bool.true_and, show 21 + (i - 21) = i by omega] at hbit
      simp [h21, h48, show 21 ≤ i by omega, show i < 52 by omega, hbit]
    · have hzero : addr.getLsbD i = false :=
        Nat.testBit_lt_two_pow (Nat.lt_of_lt_of_le hlt (Nat.pow_le_pow_right (by decide) (by omega)))
      simp [h21, h48, hzero]

/-- The translation after the 2 MB page of `addr` has been mapped to itself, if it was absent. -/
def fillPage (addr : Word) (t : Word → Option Word) : Word → Option Word := fun v =>
  if hugeNumber v = hugeNumber addr then some ((t v).getD (addr &&& pteHugeAddrMask ||| v &&& 0x1FFFFF#64)) else t v

/-- The same for `count` pages from `addr` on. -/
def fillPages : Nat → Word → (Word → Option Word) → Word → Option Word
  | 0, _, t => t
  | count + 1, addr, t => fillPages count (addr + hugePageSize) (fillPage addr t)

theorem toNat_next {addr : Word} {n : Nat} (h : addr.toNat + (n + 1) * 2 ^ 21 < 2 ^ 64) :
    (addr + hugePageSize).toNat = addr.toNat + 2 ^ 21 := by
  rw [BitVec.toNat_add, show hugePageSize.toNat = 2 ^ 21 from rfl]
  omega

/-- Below `2 ^ 48` the pages from `addr` on are mapped to themselves, where they were absent. -/
theorem fillPages_eq {count : Nat} {addr : Word} (haligned : addr.toNat % 2 ^ 21 = 0)
    (hle : addr.toNat + count * 2 ^ 21 ≤ 2 ^ 48) (t : Word → Option Word) (v : Word) :
    fillPages count addr t v =
      if addr.toNat ≤ (lowAddress v).toNat ∧ (lowAddress v).toNat < addr.toNat + count * 2 ^ 21 then
        some ((t v).getD (lowAddress v))
      else t v := by
  induction count generalizing addr t with
  | zero =>
    rw [if_neg (by omega)]
    rfl
  | succ count ih =>
    have hlt : addr.toNat < 2 ^ 48 := by omega
    have hnext : (addr + hugePageSize).toNat = addr.toNat + 2 ^ 21 := toNat_next (n := count) (by omega)
    have hfirst : fillPage addr t v =
        if addr.toNat ≤ (lowAddress v).toNat ∧ (lowAddress v).toNat < addr.toNat + 2 ^ 21 then
          some ((t v).getD (lowAddress v))
        else t v := by
      unfold fillPage
      by_cases hpage : hugeNumber v = hugeNumber addr
      · rw [if_pos hpage, if_pos ((hugeNumber_eq_iff haligned hlt).1 hpage), leaf_self hlt hpage]
      · rw [if_neg hpage, if_neg fun h => hpage ((hugeNumber_eq_iff haligned hlt).2 h)]
    unfold fillPages
    rw [ih (by omega) (by omega), hfirst, hnext]
    by_cases hin : addr.toNat ≤ (lowAddress v).toNat ∧ (lowAddress v).toNat < addr.toNat + 2 ^ 21
    · rw [if_pos hin, if_neg (by omega), if_pos (by omega)]
    · rw [if_neg hin]
      by_cases hrest : addr.toNat + 2 ^ 21 ≤ (lowAddress v).toNat ∧
          (lowAddress v).toNat < addr.toNat + 2 ^ 21 + count * 2 ^ 21
      · rw [if_pos hrest, if_pos (by omega)]
      · rw [if_neg hrest, if_neg (by omega)]

/-! ### The call -/

structure RegionCall where
  physBase : Word
  size : Word
  flags : Word

/-- The flags the function asks for: present, and besides at most writable, open to user mode and not executable. -/
def Flagged (flags : Word) : Prop := flags &&& ~~~(pteWritable ||| pteUser ||| pteNoExecute) = ptePresent

instance (flags : Word) : Decidable (Flagged flags) := inferInstanceAs (Decidable (_ = _))

/-- A mask takes the low bits away. -/
theorem toNat_and_mask {mask : Word} {k : Nat} (hmask : ∀ i : Fin 64, mask.getLsbD i = decide (k ≤ i.val)) (w : Word) :
    (w &&& mask).toNat = w.toNat / 2 ^ k * 2 ^ k := by
  have hshift : w &&& mask = w >>> k <<< k := by
    refine BitVec.eq_of_getLsbD_eq fun i hi => ?_
    rw [BitVec.getLsbD_and, hmask ⟨i, hi⟩, BitVec.getLsbD_shiftLeft, BitVec.getLsbD_ushiftRight]
    by_cases hki : i < k
    · simp [hki]
    · simp [hki, hi, show k ≤ i by omega, show k + (i - k) = i by omega]
  have hlt := w.isLt
  have hle : w.toNat / 2 ^ k * 2 ^ k ≤ w.toNat := Nat.div_mul_le_self _ _
  rw [hshift, BitVec.toNat_shiftLeft, BitVec.toNat_ushiftRight, Nat.shiftRight_eq_div_pow, Nat.shiftLeft_eq,
    Nat.mod_eq_of_lt (by omega)]

theorem toNat_mask (w : Word) : (w &&& ~~~(hugePageSize - 1)).toNat = w.toNat / 2 ^ 21 * 2 ^ 21 :=
  toNat_and_mask (by decide) w

namespace RegionCall

def start (c : RegionCall) : Word := c.physBase &&& ~~~(hugePageSize - 1)

def stop (c : RegionCall) : Word :=
  (BitVec.ofNat 64 (saturatingAdd c.physBase.toNat c.size.toNat) + hugePageSize - 1) &&& ~~~(hugePageSize - 1)

/-- The sum that rounds the end up does not overflow. -/
def Rounds (c : RegionCall) : Prop := saturatingAdd c.physBase.toNat c.size.toNat + hugePageSize.toNat < 2 ^ 64

/-- The region lies in the addresses that the tables can tell apart. -/
def Reachable (c : RegionCall) : Prop := c.physBase.toNat + c.size.toNat ≤ 2 ^ 48

instance (c : RegionCall) : Decidable c.Rounds := inferInstanceAs (Decidable (_ < _))

instance (c : RegionCall) : Decidable c.Reachable := inferInstanceAs (Decidable (_ ≤ _))

variable {c : RegionCall}

theorem toNat_start (c : RegionCall) : c.start.toNat = c.physBase.toNat / 2 ^ 21 * 2 ^ 21 := toNat_mask _

theorem toNat_stop (h : c.Rounds) :
    c.stop.toNat = (c.physBase.toNat + c.size.toNat + (2 ^ 21 - 1)) / 2 ^ 21 * 2 ^ 21 := by
  have hsize : hugePageSize.toNat = 2 ^ 21 := rfl
  unfold Rounds saturatingAdd at h
  rw [hsize] at h
  unfold stop
  rw [toNat_mask, BitVec.toNat_sub, BitVec.toNat_add, BitVec.toNat_ofNat, hsize,
    show BitVec.toNat (1 : Word) = 1 from rfl]
  unfold saturatingAdd
  unfold u64Max at h ⊢
  omega

theorem Reachable.rounds (h : c.Reachable) : c.Rounds := by
  unfold Reachable at h
  unfold Rounds saturatingAdd
  rw [show hugePageSize.toNat = 2 ^ 21 from rfl]
  omega

/-- Without an overflow the rounds of the loop end at `stop`. -/
theorem stop_eq (h : c.Rounds) :
    c.stop.toNat = c.start.toNat + (c.stop.toNat - c.start.toNat) / hugePageSize.toNat * 2 ^ 21 := by
  rw [toNat_start, toNat_stop h, show hugePageSize.toNat = 2 ^ 21 from rfl]
  omega

end RegionCall

namespace Memory

/-- The loop as it is written, for at most `fuel` rounds.  The flag says whether it came to `stop`; it returns early
when the allocator runs out. -/
def identityMapWhile (pml4 flags stop : Word) :
    Nat → Word → Memory × PhysicalAllocator → Option ((Memory × PhysicalAllocator) × Bool)
  | 0, _, _ => none
  | fuel + 1, addr, s =>
    if addr < stop then
      match identityMapPage pml4 flags addr s with
      | (s, false) => some (s, false)
      | (s, true) => identityMapWhile pml4 flags stop fuel (addr + hugePageSize) s
    else some (s, true)

/-- There are no tables below the page directories. -/
def NoPageTables (tag : Tags) : Prop := ∀ f t, tag f = some t → t.2.length ≤ 2

section Loop

variable {m m' : Memory} {alloc alloc' : PhysicalAllocator} {kern flags : Word} {tag : Tags}

theorem flagged_present (h : Flagged flags) (w : Word) : (w ||| flags ||| pteHugePage) &&& ptePresent ≠ 0 := by
  intro hzero
  have hbit : flags.getLsbD 0 = true := by
    have h0 : (flags &&& ~~~(pteWritable ||| pteUser ||| pteNoExecute)).getLsbD 0 = ptePresent.getLsbD 0 := by rw [h]
    rw [BitVec.getLsbD_and] at h0
    exact (Bool.and_eq_true_iff.1 h0).1
  have hzero : ((w ||| flags ||| pteHugePage) &&& ptePresent).getLsbD 0 = (0 : Word).getLsbD 0 := by rw [hzero]
  rw [BitVec.getLsbD_and, BitVec.getLsbD_or, BitVec.getLsbD_or, hbit] at hzero
  simp [ptePresent] at hzero

theorem flagged_addr (h : Flagged flags) : flags &&& pteHugeAddrMask = 0 := by
  have hmask : pteHugeAddrMask = ~~~(pteWritable ||| pteUser ||| pteNoExecute) &&& pteHugeAddrMask := by decide
  rw [hmask, ← BitVec.and_assoc, h]
  rfl

/-- The address on the page that the loop writes. -/
private theorem leafAddress_filled (h : Flagged flags) (addr v : Word) :
    leafAddress v (1, addr &&& pteHugeAddrMask ||| flags ||| pteHugePage) =
      addr &&& pteHugeAddrMask ||| v &&& 0x1FFFFF#64 := by
  have haddr : (addr &&& pteHugeAddrMask ||| flags ||| pteHugePage) &&& pteHugeAddrMask = addr &&& pteHugeAddrMask := by
    rw [or_and, or_and, flagged_addr h, BitVec.and_assoc, BitVec.and_self, show pteHugePage &&& pteHugeAddrMask = 0 from
      by decide]
    exact (BitVec.or_zero).trans BitVec.or_zero
  show _ &&& pteHugeAddrMask ||| _ = _
  rw [haddr]

/-- The way of an address leads to the entry of its page directory. -/
private theorem resolve_at_pd (T : Tables m kern tag) {addr pd v : Word}
    (hpd : tag pd = some (kern, [pml4Index addr, pdptIndex addr])) (hv : hugeNumber v = hugeNumber addr) :
    resolve m.links (pathOf v) kern = resolve m.links [pdIndex addr, ptIndex v] pd := by
  have hpath : pathOf v = [pml4Index addr, pdptIndex addr] ++ [pdIndex addr, ptIndex v] := by
    have heq := pd_path_eq_iff.2 hv
    simp only [List.cons.injEq, and_true] at heq
    unfold pathOf
    rw [heq.1, heq.2.1, heq.2.2]
    rfl
  rw [hpath, Lib.TableTree.resolve_of_descend (by simp) (T.layout.descend_of_tag hpd)]

/-- A present entry of a page directory is a 2 MB page, if there are no page tables. -/
private theorem huge_of_present (T : Tables m kern tag) (htop : NoPageTables tag) {pd : Word} {p : List (Fin 512)}
    {j : Fin 512} (hpd : tag pd = some (kern, p)) (hp : p.length = 2) (hpresent : m.ram pd j &&& ptePresent ≠ 0) :
    m.ram pd j &&& pteHugePage ≠ 0 := by
  intro hplain
  have hchild := T.kern_child (j := j) hpd (decode_small hpresent hplain (by omega))
  have := htop _ _ hchild
  simp only [List.length_append, List.length_singleton] at this
  omega

/-- A 2 MB page in an absent entry is the translation of its addresses. -/
theorem Tables.translateAddress_fill (T : Tables m kern tag) {pd addr e : Word}
    (hpd : tag pd = some (kern, [pml4Index addr, pdptIndex addr]))
    (habsent : m.ram pd (pdIndex addr) &&& ptePresent = 0) (hpresent : e &&& ptePresent ≠ 0)
    (hhuge : e &&& pteHugePage ≠ 0)
    (T' : Tables (m.writeEntry pd (pdIndex addr) e) kern tag) (v : Word) :
    (m.writeEntry pd (pdIndex addr) e).translateAddress kern v =
      if hugeNumber v = hugeNumber addr then some (leafAddress v (1, e)) else m.translateAddress kern v := by
  rw [translateAddress_eq]
  split
  · rename_i hv
    rw [resolve_at_pd T' hpd hv]
    unfold resolve
    rw [show (m.writeEntry pd (pdIndex addr) e).links [ptIndex v].length pd (pdIndex addr) = .leaf e from by
      unfold links
      rw [writeEntry_ram, if_pos ⟨rfl, rfl⟩]
      exact decode_huge hpresent hhuge]
    rfl
  · rename_i hv
    rw [translateAddress_eq]
    refine T.layout.map_resolve_change (leafAddress v) (S := fun f j => f = pd ∧ j = pdIndex addr) ?_ ?_
      T.layout.kern_root rfl rfl
    · intro f o p hf j hhere
      unfold links
      rw [writeEntry_ram, if_neg hhere]
    · rintro f o p j is hf ⟨rfl, rfl⟩ hpath
      rw [hpd] at hf
      cases hf
      -- the way of `v` would lead through the entry
      refine absurd (pd_path_eq_iff.1 ?_) hv
      have htake := congrArg (List.take 3) hpath
      exact htake.symm

/-- The translation of an address in the 2 MB page of `addr`, by the entry of its page directory. -/
private theorem translateAddress_entry (T : Tables m kern tag) (htop : NoPageTables tag) {pd addr v : Word}
    (hpd : tag pd = some (kern, [pml4Index addr, pdptIndex addr])) (hv : hugeNumber v = hugeNumber addr) :
    m.translateAddress kern v = if m.ram pd (pdIndex addr) &&& ptePresent = 0 then none
      else some (leafAddress v (1, m.ram pd (pdIndex addr))) := by
  rw [translateAddress_eq, resolve_at_pd T hpd hv]
  unfold resolve
  by_cases habsent : m.ram pd (pdIndex addr) &&& ptePresent = 0
  · rw [show m.links [ptIndex v].length pd (pdIndex addr) = .none from decode_absent habsent _, if_pos habsent]
    rfl
  · rw [show m.links [ptIndex v].length pd (pdIndex addr) = .leaf _ from
      decode_huge habsent (huge_of_present T htop hpd rfl habsent), if_neg habsent]
    rfl

/-- One round maps the 2 MB page of `addr` to itself, if it was absent. -/
theorem Booting.translate_page (B : Booting m alloc kern tag) (htop : NoPageTables tag) (hflags : Flagged flags)
    {addr : Word} {ok : Bool} (h : Memory.identityMapPage kern flags addr (m, alloc) = ((m', alloc'), ok)) :
    ∃ tag', Booting m' alloc' kern tag' ∧ NoPageTables tag' ∧ m'.translateAddress kern =
      if ok = true then fillPage addr (m.translateAddress kern) else m.translateAddress kern := by
  obtain ⟨m₁, tag', B₁, -, hk, hnew, hcases⟩ := B.identityMapPage flags addr h
  have htop' : NoPageTables tag' := fun g t hg => (hnew g t hg).elim (htop g t) id
  have hsame : m₁.translateAddress kern = m.translateAddress kern := by
    funext v
    rw [translateAddress_eq, hk.resolve v, ← translateAddress_eq]
  rw [← hsame]
  rcases hcases with ⟨rfl, rfl⟩ | ⟨rfl, pd, hpd, ⟨hpresent, rfl⟩ | ⟨habsent, rfl⟩⟩
  · exact ⟨tag', B₁, htop', rfl⟩
  · refine ⟨tag', B₁, htop', funext fun v => ?_⟩
    rw [if_pos rfl]
    unfold fillPage
    split
    · rename_i hv
      rw [translateAddress_entry B₁.tables htop' hpd hv, if_neg hpresent]
      rfl
    · rfl
  · have hfill := B₁.writeHuge flags addr hpd habsent
    refine ⟨tag', B₁.builds hfill, htop', funext fun v => ?_⟩
    rw [if_pos rfl, B₁.tables.translateAddress_fill hpd habsent (flagged_present hflags _) (huge_or _ _) hfill.tables]
    unfold fillPage
    split
    · rename_i hv
      rw [translateAddress_entry B₁.tables htop' hpd hv, if_pos habsent, leafAddress_filled hflags]
      rfl
    · rfl

/-- The rounds that the loop makes before it ends or the allocator runs out. -/
theorem Booting.translate_loop (B : Booting m alloc kern tag) (htop : NoPageTables tag) (hflags : Flagged flags)
    (count : Nat) (addr : Word) :
    ∃ tag' k, Booting (Memory.identityMapLoop kern flags count addr (m, alloc)).1
      (Memory.identityMapLoop kern flags count addr (m, alloc)).2 kern tag' ∧ NoPageTables tag' ∧ k ≤ count ∧
      (Memory.identityMapLoop kern flags count addr (m, alloc)).1.translateAddress kern =
        fillPages k addr (m.translateAddress kern) := by
  induction count generalizing m alloc tag addr with
  | zero => exact ⟨tag, 0, B, htop, Nat.le_refl 0, rfl⟩
  | succ count ih =>
    rw [identityMapLoop_succ]
    rcases hpage : Memory.identityMapPage kern flags addr (m, alloc) with ⟨⟨m₁, alloc₁⟩, ok⟩
    obtain ⟨tag₁, B₁, htop₁, hpages⟩ := B.translate_page htop hflags hpage
    cases ok with
    | false => exact ⟨tag₁, 0, B₁, htop₁, Nat.zero_le _, hpages⟩
    | true =>
      obtain ⟨tag', k, B', htop', hk, hrest⟩ := ih B₁ htop₁ (addr + hugePageSize)
      refine ⟨tag', k + 1, B', htop', by omega, hrest.trans ?_⟩
      rw [hpages, if_pos rfl]
      rfl

/-- The loop as it is written makes `count` rounds at most, if `stop` is `count` pages from `addr`. -/
theorem identityMapWhile_eq (kern flags : Word) {stop addr : Word} {count fuel : Nat}
    (hstop : stop.toNat = addr.toNat + count * 2 ^ 21) (hfuel : count < fuel) (s : Memory × PhysicalAllocator) :
    ∃ ok, identityMapWhile kern flags stop fuel addr s = some (Memory.identityMapLoop kern flags count addr s, ok) := by
  induction count generalizing fuel addr s with
  | zero =>
    obtain ⟨fuel, rfl⟩ : ∃ f, fuel = f + 1 := ⟨fuel - 1, by omega⟩
    refine ⟨true, ?_⟩
    unfold identityMapWhile
    rw [if_neg (by rw [BitVec.lt_def]; omega)]
    rfl
  | succ count ih =>
    obtain ⟨fuel, rfl⟩ : ∃ f, fuel = f + 1 := ⟨fuel - 1, by omega⟩
    have hnext : (addr + hugePageSize).toNat = addr.toNat + 2 ^ 21 := by
      have hlt := stop.isLt
      rw [BitVec.toNat_add, show hugePageSize.toNat = 2 ^ 21 from rfl]
      omega
    unfold identityMapWhile
    rw [if_pos (by rw [BitVec.lt_def]; omega), identityMapLoop_succ]
    rcases identityMapPage kern flags addr s with ⟨s₁, ok⟩
    cases ok with
    | false => exact ⟨false, rfl⟩
    | true => exact ih (by omega) (by omega) s₁

/-- When it comes to `stop`, it has made all of the rounds, and every page has been mapped. -/
theorem Booting.translate_while (B : Booting m alloc kern tag) (htop : NoPageTables tag) (hflags : Flagged flags)
    {stop addr : Word} {count fuel : Nat} (hstop : stop.toNat = addr.toNat + count * 2 ^ 21)
    {t : Memory × PhysicalAllocator} (h : identityMapWhile kern flags stop fuel addr (m, alloc) = some (t, true)) :
    t = Memory.identityMapLoop kern flags count addr (m, alloc) ∧
      t.1.translateAddress kern = fillPages count addr (m.translateAddress kern) := by
  induction count generalizing m alloc tag fuel addr with
  | zero =>
    cases fuel with
    | zero => cases h
    | succ fuel =>
      unfold identityMapWhile at h
      rw [if_neg (by rw [BitVec.lt_def]; omega)] at h
      cases h
      exact ⟨rfl, rfl⟩
  | succ count ih =>
    cases fuel with
    | zero => cases h
    | succ fuel =>
      have hnext : (addr + hugePageSize).toNat = addr.toNat + 2 ^ 21 := by
        have hlt := stop.isLt
        rw [BitVec.toNat_add, show hugePageSize.toNat = 2 ^ 21 from rfl]
        omega
      unfold identityMapWhile at h
      rw [if_pos (by rw [BitVec.lt_def]; omega)] at h
      rcases hpage : Memory.identityMapPage kern flags addr (m, alloc) with ⟨⟨m₁, alloc₁⟩, ok⟩
      obtain ⟨tag₁, B₁, htop₁, hpages⟩ := B.translate_page htop hflags hpage
      rw [hpage] at h
      cases ok with
      | false => cases h
      | true =>
        obtain ⟨rfl, hrest⟩ := ih B₁ htop₁ (by omega) h
        refine ⟨?_, ?_⟩
        · rw [identityMapLoop_succ, hpage]
        · rw [hrest, hpages, if_pos rfl]
          rfl

end Loop

/-! ### Runs of calls -/

def regionStep (kern : Word) (s : Memory × PhysicalAllocator) (c : RegionCall) :
    Option ((Memory × PhysicalAllocator) × Unit) :=
  some (s.1.identityMapRegion s.2 kern c.physBase c.size c.flags, ())

/-- The allocator does not run out in the call. -/
def Suffices (kern : Word) (s : Memory × PhysicalAllocator) (c : RegionCall) : Prop :=
  ∃ fuel t, identityMapWhile kern c.flags c.stop fuel c.start s = some (t, true)

/-- The region of `c` has been mapped to itself on the way from `m` to `m'`, and nothing else has been mapped. -/
structure MapsToItself (kern : Word) (m m' : Memory) (c : RegionCall) : Prop where
  mapped : ∀ v : Word, c.physBase.toNat ≤ v.toNat → v.toNat < c.physBase.toNat + c.size.toNat →
    m'.translateAddress kern v = some v
  kept : ∀ v p, m.translateAddress kern v = some p → m'.translateAddress kern v = some p
  outside : ∀ v, m.translateAddress kern v = none → m'.translateAddress kern v ≠ none →
    c.start.toNat ≤ (lowAddress v).toNat ∧ (lowAddress v).toNat < c.stop.toNat

/-- What the call does in `s` when everything goes well. -/
structure MapsRegion (kern : Word) (s : Memory × PhysicalAllocator) (c : RegionCall) : Prop where
  rounds : c.Rounds
  ends : ∃ fuel ok, identityMapWhile kern c.flags c.stop fuel c.start s =
    some (s.1.identityMapRegion s.2 kern c.physBase c.size c.flags, ok)
  maps : c.Reachable → Suffices kern s c →
    MapsToItself kern s.1 (s.1.identityMapRegion s.2 kern c.physBase c.size c.flags).1 c

/-- No address of the region is mapped to another one. -/
def Unaliased (kern : Word) (s : Memory × PhysicalAllocator) (c : RegionCall) : Prop :=
  ∀ v p : Word, c.physBase.toNat ≤ v.toNat → v.toNat < c.physBase.toNat + c.size.toNat →
    s.1.translateAddress kern v = some p → p = v

/-! ### What the calls do -/

section Calls

variable {kern : Word} {s t : Memory × PhysicalAllocator} {c : RegionCall}

/-- The tables that such calls have built. -/
def RegionTables (kern : Word) (s : Memory × PhysicalAllocator) : Prop :=
  ∃ tag, Booting s.1 s.2 kern tag ∧ NoPageTables tag

/-- Whatever is mapped is mapped to itself. -/
def SelfMapped (kern : Word) (s : Memory × PhysicalAllocator) : Prop :=
  ∀ v p, s.1.translateAddress kern v = some p → p = lowAddress v

theorem RegionTables.start (h : BootStart kern s.1 s.2) : RegionTables kern s := by
  refine ⟨_, h.booting, fun f t hf => ?_⟩
  rw [(bootTag_eq_some hf).2]
  exact Nat.zero_le 2

theorem SelfMapped.start (h : BootStart kern s.1 s.2) : SelfMapped kern s := by
  intro v p hp
  rw [translateAddress_eq] at hp
  unfold pathOf resolve links at hp
  rw [h.zero, decode_zero] at hp
  cases hp

/-- What a call has done to the translations. -/
theorem RegionTables.call (h : RegionTables kern s) (hflags : Flagged c.flags) :
    RegionTables kern (s.1.identityMapRegion s.2 kern c.physBase c.size c.flags) ∧
      ∃ k ≤ (c.stop.toNat - c.start.toNat) / hugePageSize.toNat,
        (s.1.identityMapRegion s.2 kern c.physBase c.size c.flags).1.translateAddress kern =
          fillPages k c.start (s.1.translateAddress kern) := by
  obtain ⟨tag, B, htop⟩ := h
  obtain ⟨tag', k, B', htop', hk, hpages⟩ :=
    B.translate_loop htop hflags ((c.stop.toNat - c.start.toNat) / hugePageSize.toNat) c.start
  exact ⟨⟨tag', B', htop'⟩, k, hk, hpages⟩

theorem RegionTables.step {r : Unit} (h : RegionTables kern s) (hflags : Flagged c.flags)
    (hstep : regionStep kern s c = some (t, r)) : RegionTables kern t := by
  obtain rfl := congrArg Prod.fst (Option.some.inj hstep)
  exact (h.call hflags).1

/-- The pages of a region below `2 ^ 48` lie below `2 ^ 48`. -/
private theorem pages_le (hreach : c.Reachable) {k : Nat}
    (hk : k ≤ (c.stop.toNat - c.start.toNat) / hugePageSize.toNat) : c.start.toNat + k * 2 ^ 21 ≤ 2 ^ 48 := by
  have hstop := RegionCall.toNat_stop hreach.rounds
  have heq := RegionCall.stop_eq hreach.rounds
  unfold RegionCall.Reachable at hreach
  omega

private theorem start_aligned (c : RegionCall) : c.start.toNat % 2 ^ 21 = 0 := by
  rw [c.toNat_start]
  omega

theorem SelfMapped.step {r : Unit} (h : SelfMapped kern s) (htables : RegionTables kern s) (hflags : Flagged c.flags)
    (hreach : c.Reachable) (hstep : regionStep kern s c = some (t, r)) : SelfMapped kern t := by
  obtain ⟨-, k, hk, hpages⟩ := htables.call hflags
  obtain rfl := congrArg Prod.fst (Option.some.inj hstep)
  intro v p hp
  rw [hpages, fillPages_eq (start_aligned c) (pages_le hreach hk)] at hp
  split at hp
  · cases hv : s.1.translateAddress kern v with
    | none =>
      rw [hv] at hp
      exact (Option.some.inj hp).symm
    | some q =>
      rw [hv] at hp
      rw [← Option.some.inj hp]
      exact h v q hv
  · exact h v p hp

private theorem lowAddress_self {v : Word} (h : v.toNat < 2 ^ 48) : lowAddress v = v := by
  apply BitVec.eq_of_toNat_eq
  rw [toNat_lowAddress, Nat.mod_eq_of_lt h]

/-- A call below `2 ^ 48` for which the allocator suffices maps its region exactly if no address of the region was
mapped to another one. -/
theorem RegionTables.maps_iff (h : RegionTables kern s) (hflags : Flagged c.flags) (hreach : c.Reachable)
    (hsuff : Suffices kern s c) :
    MapsToItself kern s.1 (s.1.identityMapRegion s.2 kern c.physBase c.size c.flags).1 c ↔ Unaliased kern s c := by
  have heq := RegionCall.stop_eq hreach.rounds
  have hstop := RegionCall.toNat_stop hreach.rounds
  have hstart := c.toNat_start
  have hpages : (s.1.identityMapRegion s.2 kern c.physBase c.size c.flags).1.translateAddress kern =
      fillPages ((c.stop.toNat - c.start.toNat) / hugePageSize.toNat) c.start (s.1.translateAddress kern) := by
    obtain ⟨tag, B, htop⟩ := h
    obtain ⟨fuel, t, ht⟩ := hsuff
    obtain ⟨rfl, hrest⟩ := B.translate_while htop hflags heq ht
    exact hrest
  have hleft := start_aligned c
  have hright := pages_le hreach (Nat.le_refl _)
  have hlow : c.stop.toNat ≤ 2 ^ 48 := by omega
  unfold RegionCall.Reachable at hreach
  constructor
  · intro hmaps v p hge hlt hp
    have hself := hmaps.mapped v hge hlt
    rw [hmaps.kept v p hp] at hself
    exact Option.some.inj hself
  · intro hun
    refine ⟨fun v hge hlt => ?_, fun v p hp => ?_, fun v hnone hsome => ?_⟩
    · have hself : lowAddress v = v := lowAddress_self (by omega)
      rw [hpages, fillPages_eq hleft hright, hself, if_pos (by omega)]
      cases hv : s.1.translateAddress kern v with
      | none => rfl
      | some p =>
        rw [hun v p hge hlt hv]
        rfl
    · rw [hpages, fillPages_eq hleft hright, hp]
      split <;> rfl
    · rw [hpages, fillPages_eq hleft hright] at hsome
      split at hsome
      · rename_i hin
        omega
      · exact absurd hnone hsome

end Calls

/-- After any calls, a further call does what it should if and only if its end can be rounded up and, where that
matters, no address of its region is mapped to another one; and after calls that stay below `2 ^ 48` none is. -/
theorem identityMapRegion_iff {kern : Word} {s₀ s : Memory × PhysicalAllocator} {es : List (RegionCall × Unit)}
    {c : RegionCall} (hstart : BootStart kern s₀.1 s₀.2)
    (hrun : Run (regionStep kern) (fun _ c => Flagged c.flags) s₀ es s) (hflags : Flagged c.flags) :
    (MapsRegion kern s c ↔ c.Rounds ∧ (c.Reachable → Suffices kern s c → Unaliased kern s c)) ∧
      ((∀ e ∈ es, e.1.Reachable) → c.Reachable → Unaliased kern s c) := by
  have htables : RegionTables kern s := hrun.invariant (fun h hg hs => h.step hg hs) (.start hstart)
  refine ⟨⟨fun h => ⟨h.rounds, fun hreach hsuff => (htables.maps_iff hflags hreach hsuff).1 (h.maps hreach hsuff)⟩,
    fun ⟨hrounds, hun⟩ => ⟨hrounds, ?_, fun hreach hsuff =>
      (htables.maps_iff hflags hreach hsuff).2 (hun hreach hsuff)⟩⟩, fun hall hreach v p hge hlt hp => ?_⟩
  · obtain ⟨ok, hloop⟩ := identityMapWhile_eq kern c.flags (RegionCall.stop_eq hrounds) (Nat.lt_succ_self _) s
    exact ⟨_, ok, hloop⟩
  · have hself : (∀ e ∈ es, e.1.Reachable) → RegionTables kern s ∧ SelfMapped kern s := by
      refine hrun.history (P := fun es t => (∀ e ∈ es, e.1.Reachable) → RegionTables kern t ∧ SelfMapped kern t) ?_
        fun _ => ⟨.start hstart, .start hstart⟩
      intro es t u c' r ih hg hs hall
      obtain ⟨ht, hm⟩ := ih fun e he => hall e (List.mem_append_left _ he)
      exact ⟨ht.step hg hs, hm.step ht hg (hall _ (List.mem_append_right _ (List.mem_singleton_self _))) hs⟩
    unfold RegionCall.Reachable at hreach
    rw [(hself hall).2 v p hp]
    exact lowAddress_self (by omega)

/-! ### Two calls from boot -/

/-- The PML4 at `0x10000`, and a heap of 4 MB above the first megabyte. -/
private def atBoot : Memory × PhysicalAllocator :=
  (⟨.atOneMb 0x3000 (by decide), Bitmap.empty, fun _ => .free, [], fun _ _ => 0⟩, ⟨0x100000, 0x400000⟩)

private theorem bootStart_atBoot : BootStart 0x10000 atBoot.1 atBoot.2 :=
  ⟨by unfold IsTableAddr; decide, fun _ => rfl, fun _ => Bitmap.test_empty _, rfl, by decide, by decide, by decide⟩

/-- The first 2 MB, then a region that starts inside of them and ends in the middle of the next 2 MB. -/
theorem identityMapRegion_twice : ∃ es s,
    Run (regionStep 0x10000) (fun _ c => Flagged c.flags) atBoot es s ∧
      MapsRegion 0x10000 s ⟨0x1FF000, 0x100000, 3⟩ := by
  have hexec : (exec (regionStep 0x10000) (fun _ c => Flagged c.flags) atBoot [⟨0, 0x200000, 3⟩]).any (fun out =>
      decide (∀ e ∈ out.2, e.1.Reachable)) = true := by decide
  obtain ⟨⟨s, es⟩, hrun, hall⟩ := (Option.any_eq_true _ _).1 hexec
  have hrun := run_of_exec hrun
  have hiff := identityMapRegion_iff (c := ⟨0x1FF000, 0x100000, 3⟩) bootStart_atBoot hrun (by decide)
  exact ⟨es, s, hrun, hiff.1.2 ⟨by decide, fun hreach _ => hiff.2 (of_decide_eq_true hall) hreach⟩⟩

/-- A region that ends near the top of the address space cannot be rounded; and after a call for the 2 MB at `2 ^ 48`,
the first 2 MB are mapped there and not to themselves. -/
theorem identityMapRegion_fails : BootStart 0x10000 atBoot.1 atBoot.2 ∧
    ¬ MapsRegion 0x10000 atBoot ⟨0, 0xFFFFFFFFFFFFFFFF, 3⟩ ∧
    ∃ es s, Run (regionStep 0x10000) (fun _ c => Flagged c.flags) atBoot es s ∧
      ¬ MapsRegion 0x10000 s ⟨0, 0x200000, 3⟩ := by
  refine ⟨bootStart_atBoot, fun h => absurd h.rounds (by decide), ?_⟩
  have hexec : (exec (regionStep 0x10000) (fun _ c => Flagged c.flags) atBoot [⟨0x1000000000000, 0x200000, 3⟩]).any
      (fun out => decide (out.1.1.translateAddress 0x10000 0 = some 0x1000000000000) &&
        (identityMapWhile 0x10000 3 0x200000 2 0 out.1).any fun t => t.2) = true := by decide
  obtain ⟨⟨s, es⟩, hrun, hout⟩ := (Option.any_eq_true _ _).1 hexec
  obtain ⟨htrans, hends⟩ := Bool.and_eq_true_iff.1 hout
  obtain ⟨⟨t, ok⟩, hloop, rfl⟩ := (Option.any_eq_true _ _).1 hends
  refine ⟨es, s, run_of_exec hrun, fun h => ?_⟩
  have hself := (h.maps (by decide) ⟨2, t, hloop⟩).mapped 0 (by decide) (by decide)
  rw [(h.maps (by decide) ⟨2, t, hloop⟩).kept 0 _ (of_decide_eq_true htrans)] at hself
  cases hself

end Memory

end Rost
