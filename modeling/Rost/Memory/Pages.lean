import Rost.Memory.Mapping

/-!
# Pages

`translate_address` as a map from pages to frames.  The number of a page decides the way through the tables
(`pathOf_eq_iff`), so writing one entry of the lowest level changes one point of the map (`translateAddress_writePage`);
an empty table behind an absent entry changes nothing, and neither does the table that replaces a 2 MB page, if the
entry of that page has no bits between its flags and its address (`translateAddress_adopt`).
-/

namespace Rost

open Lib (Link)
open Lib.TableTree (resolve Layout)
open Lib.TableTree.Layout (setTag)

/-! ### Pages -/

/-- The number of the page of an address: its bits 12 to 47. -/
def pageNumber (v : Word) : BitVec 36 := v.extractLsb' 12 36

theorem toNat_pageNumber (v : Word) : (pageNumber v).toNat = v.toNat / 4096 % 2 ^ 36 := by
  unfold pageNumber
  rw [BitVec.extractLsb'_toNat, Nat.shiftRight_eq_div_pow]

/-- Two addresses take the same way through the tables if they lie on the same page. -/
theorem pathOf_eq_iff {v w : Word} : pathOf v = pathOf w ↔ pageNumber v = pageNumber w := by
  unfold pathOf pml4Index pdptIndex pdIndex ptIndex
  simp only [List.cons.injEq, and_true, Fin.ext_iff, toNat_low9, ← BitVec.toNat_inj, toNat_pageNumber]
  omega

/-- The place of a byte in its 2 MB page: the page in it, and the byte on that page. -/
private theorem and_mask21 (v : Word) :
    v &&& 0x1FFFFF#64 = BitVec.ofNat 64 ((ptIndex v).val * 4096) ||| v &&& 0xFFF#64 := by
  have hpt : (ptIndex v).val = v.toNat / 4096 % 512 := toNat_low9 v 12
  have h21 : (v &&& 0x1FFFFF#64).toNat = v.toNat % 2 ^ 21 := by
    rw [BitVec.toNat_and]
    exact Nat.and_two_pow_sub_one_eq_mod v.toNat 21
  have h12 : (v &&& 0xFFF#64).toNat = v.toNat % 2 ^ 12 := by
    rw [BitVec.toNat_and]
    exact Nat.and_two_pow_sub_one_eq_mod v.toNat 12
  have hshift : v.toNat / 4096 % 512 * 4096 % 2 ^ 64 = (v.toNat / 4096 % 512) <<< 12 := by
    rw [Nat.shiftLeft_eq]
    omega
  apply BitVec.eq_of_toNat_eq
  rw [BitVec.toNat_or, h21, h12, BitVec.toNat_ofNat, hpt, hshift,
    ← Nat.shiftLeft_add_eq_or_of_lt (Nat.mod_lt _ (by decide)), Nat.shiftLeft_eq]
  omega

/-! ### Splitting a 2 MB page -/

/-- The bits 12 to 20 of an entry: part of the address of a 4 KB page, but not of a 2 MB page. -/
def pteSubPageMask : Word := 0x1FF000

namespace Memory

private theorem isTableAddr_offset (j : Fin 512) : IsTableAddr (BitVec.ofNat 64 (j.val * 4096)) := by
  have hj := j.isLt
  have hto : (BitVec.ofNat 64 (j.val * 4096)).toNat = j.val * 4096 := by
    rw [BitVec.toNat_ofNat]
    omega
  exact isTableAddr_of_toNat (by rw [hto]; omega) (by rw [hto]; omega)

private theorem splitEntry_eq (e : Word) (j : Fin 512) : splitEntry e j =
    e &&& pteHugeAddrMask ||| BitVec.ofNat 64 (j.val * 4096) ||| e &&& ~~~pteHugeAddrMask &&& ~~~pteHugePage := by
  have hmask : ∀ i : Fin 64, pteHugeAddrMask.getLsbD i = true → 21 ≤ i.val := by decide
  have hdisjoint : (e &&& pteHugeAddrMask) &&& BitVec.ofNat 64 (j.val * 4096) = 0#64 := by
    refine BitVec.eq_of_getLsbD_eq fun i hi => ?_
    rw [BitVec.getLsbD_and, BitVec.getLsbD_and, BitVec.getLsbD_zero]
    by_cases hbit : pteHugeAddrMask.getLsbD i = true
    · have h21 := hmask ⟨i, hi⟩ hbit
      have hlt : j.val * 4096 < 2 ^ i :=
        Nat.lt_of_lt_of_le (by have := j.isLt; omega : j.val * 4096 < 2 ^ 21) (Nat.pow_le_pow_right (by decide) h21)
      rw [BitVec.getLsbD_ofNat, Nat.testBit_lt_two_pow hlt, Bool.and_false, Bool.and_false]
    · rw [Bool.eq_false_iff.2 hbit, Bool.and_false, Bool.false_and]
  unfold splitEntry
  rw [BitVec.add_eq_or_of_and_eq_zero _ _ hdisjoint]

/-- The bits outside of the address are those of the 2 MB page. -/
theorem splitEntry_bit {bit : Word} (haddr : pteAddrMask &&& bit = 0)
    (hflag : ~~~pteHugeAddrMask &&& (~~~pteHugePage &&& bit) = bit) (e : Word) (j : Fin 512) :
    splitEntry e j &&& bit = e &&& bit := by
  have hhuge : pteHugeAddrMask &&& bit = 0 := by
    rw [show pteHugeAddrMask = pteHugeAddrMask &&& pteAddrMask from by decide, BitVec.and_assoc, haddr]
    exact BitVec.and_zero
  rw [splitEntry_eq, ← isTableAddr_offset j]
  simp only [or_and, BitVec.and_assoc]
  rw [hhuge, haddr, hflag]
  simp

private theorem splitEntry_present (e : Word) (j : Fin 512) : splitEntry e j &&& ptePresent = e &&& ptePresent :=
  splitEntry_bit (by decide) (by decide) e j

private theorem splitEntry_addr {e : Word} (h : e &&& pteSubPageMask = 0) (j : Fin 512) :
    splitEntry e j &&& pteAddrMask = e &&& pteHugeAddrMask ||| BitVec.ofNat 64 (j.val * 4096) := by
  rw [splitEntry_eq, or_and, or_and, isTableAddr_offset j, BitVec.and_assoc, BitVec.and_assoc, BitVec.and_assoc,
    show pteHugeAddrMask &&& pteAddrMask = pteHugeAddrMask from by decide,
    show ~~~pteHugeAddrMask &&& (~~~pteHugePage &&& pteAddrMask) = pteSubPageMask from by decide, h]
  exact BitVec.or_zero

/-- A page of a split 2 MB page lies where it was. -/
theorem leafAddress_splitEntry {e : Word} (h : e &&& pteSubPageMask = 0) (v : Word) :
    leafAddress v (0, splitEntry e (ptIndex v)) = leafAddress v (1, e) := by
  show splitEntry e (ptIndex v) &&& pteAddrMask ||| v &&& 0xFFF#64 = e &&& pteHugeAddrMask ||| v &&& 0x1FFFFF#64
  rw [splitEntry_addr h, and_mask21, BitVec.or_assoc]

/-- The entries of 2 MB pages in the tree of `kern` have no bits between their flags and their address. -/
def Aligned (m : Memory) (kern : Word) (tag : Tags) : Prop :=
  ∀ f p (j : Fin 512), tag f = some (kern, p) → p.length = 2 → m.ram f j &&& ptePresent ≠ 0 →
    m.ram f j &&& pteHugePage ≠ 0 → m.ram f j &&& pteSubPageMask = 0

/-- The translation after the entry of the page of `virt` has become `e`. -/
def setPage (t : Word → Option Word) (virt e : Word) : Word → Option Word := fun v =>
  if pageNumber v = pageNumber virt then
    if e &&& ptePresent = 0 then none else some (e &&& pteAddrMask ||| v &&& 0xFFF#64)
  else t v

/-- The entry that `map_page_global` writes. -/
def pageEntry (phys flags : Word) : Word := phys &&& pteAddrMask ||| flags &&& ~~~pteHugePage

theorem pageEntry_and {flags : Word} (hflags : flags &&& pteAddrMask = 0) (phys : Word) :
    pageEntry phys flags &&& pteAddrMask = phys &&& pteAddrMask := by
  unfold pageEntry
  rw [or_and, BitVec.and_assoc, BitVec.and_self, BitVec.and_assoc,
    show ~~~pteHugePage &&& pteAddrMask = pteAddrMask from by decide, hflags]
  exact BitVec.or_zero

theorem pageEntry_addr {phys flags : Word} (hphys : IsTableAddr phys) (hflags : flags &&& pteAddrMask = 0) :
    pageEntry phys flags &&& pteAddrMask = phys :=
  (pageEntry_and hflags phys).trans hphys

private theorem pageEntry_bit {bit : Word} (haddr : pteAddrMask &&& bit = 0) (hhuge : ~~~pteHugePage &&& bit = bit)
    (phys flags : Word) : pageEntry phys flags &&& bit = flags &&& bit := by
  unfold pageEntry
  rw [or_and, BitVec.and_assoc, BitVec.and_assoc, haddr, hhuge]
  simp

theorem pageEntry_present (phys flags : Word) : pageEntry phys flags &&& ptePresent = flags &&& ptePresent :=
  pageEntry_bit (by decide) (by decide) phys flags

theorem pageEntry_user (phys flags : Word) : pageEntry phys flags &&& pteUser = flags &&& pteUser :=
  pageEntry_bit (by decide) (by decide) phys flags

/-- The frame `c` gets new contents. -/
def setFrame (m : Memory) (c : Word) (content : Fin 512 → Word) : Memory :=
  { m with ram := fun f j => if f = c then content j else m.ram f j }

section Tree

variable {m m₁ : Memory} {kern f₀ c e : Word} {tag : Tags} {p₀ : List (Fin 512)} {i₀ : Fin 512}

/-- An empty table behind an absent entry changes no way. -/
theorem Tables.resolve_adopt {o : Word} (T : Tables m kern tag) (hf₀ : tag f₀ = some (o, p₀)) (hp₀ : p₀.length < 3)
    (hram : m₁.ram = m.ram) (hc : tag c = none) (habsent : m.ram f₀ i₀ &&& ptePresent = 0) (he : PointsTo e c) {R : Word}
    (hR : tag R = some (R, [])) (v : Word) :
    resolve ((m₁.setFrame c fun _ => 0).writeEntry f₀ i₀ e).links (pathOf v) R = resolve m.links (pathOf v) R := by
  have hne : ∀ {f t}, tag f = some t → f ≠ c := by
    rintro f t hf rfl
    rw [hc] at hf
    cases hf
  refine T.layout.resolve_adopt hf₀ (decode_absent habsent _) (c := c) ?_ (fun j => ?_) (fun f q p hf j hhere => ?_) hR
    (by rw [length_pathOf]; rfl)
  · unfold links
    rw [writeEntry_ram, if_pos ⟨rfl, rfl⟩]
    exact decode_of_pointsTo he (by omega)
  · unfold links
    rw [writeEntry_ram, if_neg fun h => hne hf₀ h.1.symm]
    exact (congrArg (decode _) (if_pos rfl)).trans (decode_zero _)
  · unfold links
    rw [writeEntry_ram, if_neg hhere]
    exact congrArg (decode _) ((if_neg (hne hf)).trans (by rw [hram]))

/-- A new table behind a slot, empty behind an absent entry and split from a 2 MB page, changes no translation. -/
theorem Tables.translateAddress_adopt (T : Tables m kern tag) (hf₀ : tag f₀ = some (kern, p₀)) (hp₀ : p₀.length < 3)
    (hram : m₁.ram = m.ram) (hc : tag c = none) (he : PointsTo e c) {content : Fin 512 → Word}
    (hcontent : (m.ram f₀ i₀ &&& ptePresent = 0 ∧ ∀ j, content j = 0) ∨
      (p₀.length = 2 ∧ m.ram f₀ i₀ &&& ptePresent ≠ 0 ∧ m.ram f₀ i₀ &&& pteHugePage ≠ 0 ∧
        m.ram f₀ i₀ &&& pteSubPageMask = 0 ∧ content = splitEntry (m.ram f₀ i₀))) (v : Word) :
    ((m₁.setFrame c content).writeEntry f₀ i₀ e).translateAddress kern v = m.translateAddress kern v := by
  have hne : ∀ {f t}, tag f = some t → f ≠ c := by
    rintro f t hf rfl
    rw [hc] at hf
    cases hf
  have hlink : ∀ l, l ≠ 0 → ((m₁.setFrame c content).writeEntry f₀ i₀ e).links l f₀ i₀ = .table c := by
    intro l hl
    unfold links
    rw [writeEntry_ram, if_pos ⟨rfl, rfl⟩]
    exact decode_of_pointsTo he hl
  have hnew : ∀ l j, ((m₁.setFrame c content).writeEntry f₀ i₀ e).links l c j = decode l (content j) := by
    intro l j
    unfold links
    rw [writeEntry_ram, if_neg fun h => hne hf₀ h.1.symm]
    exact congrArg (decode l) (if_pos rfl)
  rw [translateAddress_eq, translateAddress_eq]
  refine T.layout.map_resolve_change (leafAddress v) (S := fun f j => f = f₀ ∧ j = i₀) ?_ ?_ T.layout.kern_root rfl rfl
  · intro f o p hf j hhere
    unfold links
    rw [writeEntry_ram, if_neg hhere]
    exact congrArg (fun w => decode _ w) ((if_neg (hne hf)).trans (by rw [hram]))
  · rintro f o p j is hf ⟨rfl, rfl⟩ hpath
    rw [hf₀] at hf
    cases hf
    have hlen := congrArg List.length hpath
    rw [List.length_append, List.length_cons, List.nil_append, length_pathOf] at hlen
    have hlevel : is.length = 3 - p₀.length := by omega
    cases is with
    | nil =>
      rw [List.length_nil] at hlevel
      omega
    | cons i is =>
      unfold resolve
      rw [hlink _ (by simp)]
      simp only
      unfold resolve
      rw [hnew]
      rcases hcontent with ⟨habsent, hzero⟩ | ⟨htwo, hpresent, hhuge, hsub, rfl⟩
      · unfold links
        rw [hzero i, decode_zero, decode_absent habsent]
      · -- the last slot on the way is that of the page
        have hnil : is = [] := by
          rw [List.length_cons] at hlevel
          exact List.eq_nil_of_length_eq_zero (by omega)
        subst hnil
        have hi : i = ptIndex v := by
          have hlast := congrArg List.getLast? hpath
          simpa [pathOf] using hlast
        subst hi
        have hpage : decode 0 (splitEntry (m.ram f j) (ptIndex v)) = .leaf (splitEntry (m.ram f j) (ptIndex v)) :=
          decode_page (by rw [splitEntry_present]; exact hpresent)
        have hold : m.links 1 f j = .leaf (m.ram f j) := decode_huge hpresent hhuge
        simp only [List.length_nil, List.length_singleton, hpage, hold, Option.map_some]
        rw [leafAddress_splitEntry hsub]

/-- An entry of the lowest level is the translation of its page. -/
theorem Tables.translateAddress_writePage (T : Tables m kern tag) {virt : Word}
    (hf₀ : tag f₀ = some (kern, [pml4Index virt, pdptIndex virt, pdIndex virt])) :
    (m.writeEntry f₀ (ptIndex virt) e).translateAddress kern = setPage (m.translateAddress kern) virt e := by
  have hb : Builds (fun _ _ => True) kern kern m tag (m.writeEntry f₀ (ptIndex virt) e) tag := T.writePage hf₀ rfl trivial
  funext v
  unfold setPage
  rw [translateAddress_eq]
  split
  · -- the way leads to the entry that has been written
    rename_i hpage
    have hpath : pathOf v = [pml4Index virt, pdptIndex virt, pdIndex virt] ++ [ptIndex virt] := pathOf_eq_iff.2 hpage
    rw [hpath, Lib.TableTree.resolve_of_descend (by simp) (hb.tables.layout.descend_of_tag hf₀)]
    have hentry : (m.writeEntry f₀ (ptIndex virt) e).links 0 f₀ (ptIndex virt) = decode 0 e := by
      unfold links
      rw [writeEntry_ram, if_pos ⟨rfl, rfl⟩]
    unfold resolve
    by_cases habsent : e &&& ptePresent = 0
    · rw [List.length_nil, hentry, decode_absent habsent, if_pos habsent]
      rfl
    · rw [List.length_nil, hentry, decode_page habsent, if_neg habsent]
      rfl
  · rename_i hpage
    rw [translateAddress_eq]
    refine T.layout.map_resolve_change (leafAddress v) (S := fun f j => f = f₀ ∧ j = ptIndex virt) ?_ ?_
      T.layout.kern_root rfl rfl
    · intro f o p hf j hhere
      unfold links
      rw [writeEntry_ram, if_neg hhere]
    · rintro f o p j is hf ⟨rfl, rfl⟩ hpath
      rw [hf₀] at hf
      cases hf
      exfalso
      have hlen := congrArg List.length hpath
      simp only [List.length_append, List.length_cons, List.length_nil, length_pathOf] at hlen
      have hnil : is = [] := List.eq_nil_of_length_eq_zero (by omega)
      subst hnil
      exact hpage (pathOf_eq_iff.1 hpath.symm)

/-- An entry that is no 2 MB page is written. -/
theorem Aligned.writeEntry (h : Aligned m kern tag) (hf₀ : tag f₀ = some (kern, p₀))
    (he : e &&& pteHugePage = 0 ∨ p₀.length ≠ 2) : Aligned (m.writeEntry f₀ i₀ e) kern tag := by
  intro f p j hf hp hpresent hhuge
  by_cases hhere : f = f₀ ∧ j = i₀
  · obtain ⟨rfl, rfl⟩ := hhere
    rw [hf₀] at hf
    cases hf
    rcases he with hplain | hlevel
    · rw [writeEntry_ram, if_pos ⟨rfl, rfl⟩] at hhuge
      exact absurd hplain hhuge
    · exact absurd hp hlevel
  · rw [writeEntry_ram, if_neg hhere] at hpresent hhuge ⊢
    exact h f p j hf hp hpresent hhuge

/-- A table that is empty, or of the lowest level, is put behind a slot. -/
theorem Aligned.adopt (h : Aligned m kern tag) (hf₀ : tag f₀ = some (kern, p₀)) (hram : m₁.ram = m.ram)
    (hc : tag c = none) (he : PointsTo e c) {content : Fin 512 → Word}
    (hcontent : (∀ j, content j = 0) ∨ p₀.length = 2) :
    Aligned ((m₁.setFrame c content).writeEntry f₀ i₀ e) kern (setTag tag c (kern, p₀ ++ [i₀])) := by
  have hframe : Aligned (m₁.setFrame c content) kern (setTag tag c (kern, p₀ ++ [i₀])) := by
    intro f p j hf hp hpresent hhuge
    rcases Layout.setTag_eq_some hf with ⟨rfl, heq⟩ | ⟨hne, hf⟩
    · cases heq
      rw [List.length_append, List.length_singleton] at hp
      rcases hcontent with hzero | htwo
      · have hentry : (m₁.setFrame f content).ram f j = 0 := (if_pos rfl).trans (hzero j)
        rw [hentry] at hpresent
        exact absurd (by decide) hpresent
      · omega
    · have hsame : (m₁.setFrame c content).ram f j = m.ram f j := (if_neg hne).trans (by rw [hram])
      rw [hsame] at hpresent hhuge ⊢
      exact h f p j hf hp hpresent hhuge
  exact hframe.writeEntry (Layout.setTag_of_tagged _ hc hf₀) (Or.inl he.plain)

end Tree

/-! ### The hardware's walk -/

/-- The entries on a walk that ends in a page directory. -/
theorem walk_entries {m : Memory} {pml4 virt e4 e3 e2 : Word} (h : m.walk pml4 virt = some [e4, e3, e2]) :
    (m.ram pml4 (pml4Index virt) = e4 ∧ e4 &&& ptePresent ≠ 0) ∧
    (m.ram (e4 &&& pteAddrMask) (pdptIndex virt) = e3 ∧ e3 &&& ptePresent ≠ 0) ∧
    (m.ram (e3 &&& pteAddrMask) (pdIndex virt) = e2 ∧ e2 &&& ptePresent ≠ 0 ∧ e2 &&& pteHugePage ≠ 0) := by
  unfold walk at h
  simp only at h
  split at h
  · cases h
  · rename_i h4
    split at h
    · cases h
    · rename_i h3
      split at h
      · cases h
      · rename_i h2
        split at h
        · rename_i hhuge
          cases h
          exact ⟨⟨rfl, h4⟩, ⟨rfl, h3⟩, rfl, h2, hhuge⟩
        · split at h
          · cases h
          · cases h

/-! ### What building does to the pages -/

/-- The pages of the tree of `kern` have changed by `t`. -/
structure KernPages (t : (Word → Option Word) → Word → Option Word) (kern : Word) (m : Memory) (tag : Tags)
    (m' : Memory) (tag' : Tags) : Prop where
  aligned : Aligned m kern tag → Aligned m' kern tag'
  translate : Aligned m kern tag → m'.translateAddress kern = t (m.translateAddress kern)

namespace KernPages

variable {t t' : (Word → Option Word) → Word → Option Word} {kern : Word} {m m₁ m₂ : Memory} {tag tag₁ tag₂ : Tags}

theorem refl (kern : Word) (m : Memory) (tag : Tags) : KernPages id kern m tag m tag := ⟨fun h => h, fun _ => rfl⟩

theorem trans (h : KernPages t kern m tag m₁ tag₁) (h' : KernPages t' kern m₁ tag₁ m₂ tag₂) :
    KernPages (t' ∘ t) kern m tag m₂ tag₂ := by
  refine ⟨fun ha => h'.aligned (h.aligned ha), fun ha => ?_⟩
  rw [h'.translate (h.aligned ha), h.translate ha]
  rfl

end KernPages

end Memory

end Rost
