import Rost.Memory.Rights

/-!
# The entries that decide on pages

In the tables that the kernel builds for itself every entry that points to a table allows writing and execution behind
it, and none is open to user mode (`KernTree`).  So the entry at the end of the walk decides alone what is mapped and
what is allowed there; in a 2 MB page it is the entry that the page gets when the 2 MB are split (`leaf`).  Splitting a
2 MB page changes no leaf, unmapping a page takes its leaf away, and remapping a page gives its leaf other flags.
-/

namespace Rost

open Lib (Link)
open Lib.TableTree (resolve Layout)
open Lib.TableTree.Layout (setTag)

namespace Memory

/-- The entry of the page of `v`, if its walk ends at the entry `e` of level `l`. -/
def leafEntry (v : Word) : Nat × Word → Word
  | (l, e) => if l = 1 then splitEntry e (ptIndex v) else e

/-- The entry that decides on the page of `v`. -/
def leaf (m : Memory) (kern v : Word) : Option Word := (resolve m.links (pathOf v) kern).map (leafEntry v)

/-- The page of `v` can be changed on its own: its page table exists. -/
def Small (m : Memory) (kern v : Word) : Prop := (m.pageTable kern v).isSome = true

instance (m : Memory) (kern v : Word) : Decidable (m.Small kern v) := inferInstanceAs (Decidable (_ = true))

/-- An entry lets the supervisor write and execute behind it, as far as it is concerned. -/
def Unrestricted (e : Word) : Prop := e &&& pteWritable ≠ 0 ∧ e &&& pteNoExecute = 0

/-- The tables of the kernel, with 2 MB pages that can be split, no entry for user mode and only open links. -/
structure KernTree (m : Memory) (kern : Word) (tag : Tags) : Prop where
  tables : Tables m kern tag
  aligned : Aligned m kern tag
  supervisor : Supervisor m kern tag
  opens : ∀ {f p c} (j : Fin 512), tag f = some (kern, p) → m.links (3 - p.length) f j = .table c → Unrestricted (m.ram f j)

/-- The flags of an entry are not in its address. -/
theorem masked_and {mask bit : Word} (h : mask &&& bit = 0) (addr flags more : Word) :
    (addr &&& mask ||| flags ||| more) &&& bit = (flags ||| more) &&& bit := by
  simp only [or_and, BitVec.and_assoc, h]
  simp

/-- The entries that the kernel writes to point to its tables. -/
theorem bootLink_opens (c : Word) : Unrestricted (c &&& pteAddrMask ||| ptePresent ||| pteWritable) ∧
    (c &&& pteAddrMask ||| ptePresent ||| pteWritable) &&& pteUser = 0 := by
  unfold Unrestricted
  rw [masked_and (by decide), masked_and (by decide), masked_and (by decide)]
  decide

/-! ### The page table of a page -/

section PageTable

variable {m m' : Memory} {kern virt pt : Word} {tag tag' : Tags}

/-- The page table of an address is the one with the path of the address. -/
theorem Tables.pageTable_iff (T : Tables m kern tag) : m.pageTable kern virt = some pt ↔
    tag pt = some (kern, [pml4Index virt, pdptIndex virt, pdIndex virt]) := by
  refine ⟨T.kern_pageTable, fun hpt => ?_⟩
  have hparent : ∀ {f : Word} {p : List (Fin 512)} {j : Fin 512}, tag f = some (kern, p ++ [j]) →
      ∃ g, tag g = some (kern, p) ∧ m.links (3 - p.length) g j = .table f := fun hf => T.layout.parent hf
  obtain ⟨pd, hpd, hlink₁⟩ := hparent (p := [pml4Index virt, pdptIndex virt]) hpt
  obtain ⟨pdpt, hpdpt, hlink₂⟩ := hparent (p := [pml4Index virt]) hpd
  obtain ⟨root, hroot, hlink₃⟩ := hparent (p := []) hpdpt
  obtain rfl := T.layout.root hroot
  obtain ⟨h₃, -, rfl⟩ := decode_eq_table hlink₃
  obtain ⟨h₂, -, rfl⟩ := decode_eq_table hlink₂
  obtain ⟨h₁, hplain, rfl⟩ := decode_eq_table hlink₁
  have hsmall : ¬ m.ram (m.ram (m.ram root (pml4Index virt) &&& pteAddrMask) (pdptIndex virt) &&& pteAddrMask)
      (pdIndex virt) &&& pteHugePage ≠ 0 := fun h => hplain (Or.inr ⟨rfl, h⟩)
  unfold pageTable pageDirectory
  simp only [if_neg h₃, if_neg h₂, if_neg h₁, if_neg hsmall]

/-- Trees with the same tables can be changed in the same pages. -/
theorem Tables.small_iff (T : Tables m kern tag) (T' : Tables m' kern tag) : m'.Small kern virt ↔ m.Small kern virt := by
  unfold Small
  simp only [Option.isSome_iff_exists, T.pageTable_iff, T'.pageTable_iff]

/-- Page tables stay where they are. -/
theorem Small.grows (h : m.Small kern virt) (T : Tables m kern tag) (T' : Tables m' kern tag')
    (hg : Grows kern tag tag') : m'.Small kern virt := by
  obtain ⟨pt, hpt⟩ := Option.isSome_iff_exists.1 h
  exact Option.isSome_iff_exists.2 ⟨pt, T'.pageTable_iff.2 (hg.keeps (T.pageTable_iff.1 hpt))⟩

end PageTable

/-! ### What a walk finds -/

section Walk

variable {m : Memory} {kern v : Word} {tag : Tags}

theorem splitEntry_flag {bit : Word} (hbit : bit = ptePresent ∨ bit = pteUser ∨ bit = pteWritable ∨ bit = pteNoExecute)
    (e : Word) (j : Fin 512) : splitEntry e j &&& bit = e &&& bit := by
  rcases hbit with rfl | rfl | rfl | rfl <;> exact splitEntry_bit (by decide) (by decide) e j

/-- One step on a path. -/
theorem resolve_table {f g : Word} {i : Fin 512} {is : List (Fin 512)} (h : m.links is.length f i = .table g) :
    resolve m.links (i :: is) f = resolve m.links is g := by
  rw [resolve, h]

theorem resolve_leaf {f e : Word} {i : Fin 512} {is : List (Fin 512)} (h : m.links is.length f i = .leaf e) :
    resolve m.links (i :: is) f = some (is.length, e) := by
  rw [resolve, h]

theorem resolve_none {f : Word} {i : Fin 512} {is : List (Fin 512)} (h : m.links is.length f i = .none) :
    resolve m.links (i :: is) f = none := by
  rw [resolve, h]

/-- The entry stands in a table of the kernel. -/
def InTables (m : Memory) (kern : Word) (tag : Tags) (e : Word) : Prop :=
  ∃ f p j, tag f = some (kern, p) ∧ m.ram f j = e

/-- The walk in such a tree: it ends at an absent entry, at a 2 MB page or in a page table. -/
inductive Walk (m : Memory) (kern : Word) (tag : Tags) (v : Word) : Prop
  | absent (hwalk : m.walk kern v = none) (hresolve : resolve m.links (pathOf v) kern = none)
  | huge (e4 e3 e2 : Word) (hwalk : m.walk kern v = some [e4, e3, e2])
      (hresolve : resolve m.links (pathOf v) kern = some (1, e2)) (hopens : Unrestricted e4 ∧ Unrestricted e3)
      (hsub : e2 &&& pteSubPageMask = 0) (hin : InTables m kern tag e2) (hpresent : e2 &&& ptePresent ≠ 0)
  | page (e4 e3 e2 e1 : Word) (hwalk : m.walk kern v = some [e4, e3, e2, e1])
      (hresolve : resolve m.links (pathOf v) kern = some (0, e1)) (hopens : Unrestricted e4 ∧ Unrestricted e3 ∧ Unrestricted e2)
      (hin : InTables m kern tag e1) (hpresent : e1 &&& ptePresent ≠ 0) (hsmall : m.Small kern v)

theorem KernTree.user_of_inTables {e : Word} (K : KernTree m kern tag) (h : InTables m kern tag e) :
    e &&& pteUser = 0 := by
  obtain ⟨f, p, j, hf, rfl⟩ := h
  exact K.supervisor j hf

theorem KernTree.walk (K : KernTree m kern tag) (v : Word) : Walk m kern tag v := by
  let pdpt := m.ram kern (pml4Index v) &&& pteAddrMask
  let pd := m.ram pdpt (pdptIndex v) &&& pteAddrMask
  let pt := m.ram pd (pdIndex v) &&& pteAddrMask
  have T := K.tables
  have hroot := T.layout.kern_root
  by_cases h4 : m.ram kern (pml4Index v) &&& ptePresent = 0
  · exact .absent (if_pos h4) (resolve_none (decode_absent h4 3))
  have hlink4 : m.links 3 kern (pml4Index v) = .table pdpt := decode_upper h4 (by decide)
  have hopen4 := K.opens _ hroot hlink4
  have hpdpt := T.kern_child hroot hlink4
  by_cases h3 : m.ram pdpt (pdptIndex v) &&& ptePresent = 0
  · exact .absent ((if_neg h4).trans (if_pos h3)) ((resolve_table hlink4).trans (resolve_none (decode_absent h3 2)))
  have hlink3 : m.links 2 pdpt (pdptIndex v) = .table pd := decode_upper h3 (by decide)
  have hopen3 := K.opens _ hpdpt hlink3
  have hpd : tag pd = some (kern, [pml4Index v, pdptIndex v]) := T.kern_child hpdpt hlink3
  have hto3 : resolve m.links (pathOf v) kern = resolve m.links [pdIndex v, ptIndex v] pd :=
    (resolve_table hlink4).trans (resolve_table hlink3)
  by_cases h2 : m.ram pd (pdIndex v) &&& ptePresent = 0
  · exact .absent ((if_neg h4).trans ((if_neg h3).trans (if_pos h2))) (hto3.trans (resolve_none (decode_absent h2 1)))
  by_cases hhuge : m.ram pd (pdIndex v) &&& pteHugePage = 0
  · have hlink2 : m.links 1 pd (pdIndex v) = .table pt := decode_small h2 hhuge (by decide)
    have hopen2 := K.opens _ hpd hlink2
    have hpt := T.kern_child hpd hlink2
    have hto2 : resolve m.links (pathOf v) kern = resolve m.links [ptIndex v] pt := hto3.trans (resolve_table hlink2)
    have hdown : ∀ {r}, (if m.ram pt (ptIndex v) &&& ptePresent = 0 then none else some [_, _, _, m.ram pt (ptIndex v)]) = r →
        m.walk kern v = r := fun h => (if_neg h4).trans ((if_neg h3).trans ((if_neg h2).trans ((if_neg (not_not.2 hhuge)).trans h)))
    by_cases h1 : m.ram pt (ptIndex v) &&& ptePresent = 0
    · exact .absent (hdown (if_pos h1)) (hto2.trans (resolve_none (decode_absent h1 0)))
    · exact .page _ _ _ _ (hdown (if_neg h1)) (hto2.trans (resolve_leaf (decode_page h1))) ⟨hopen4, hopen3, hopen2⟩
        ⟨pt, _, _, hpt, rfl⟩ h1 (Option.isSome_iff_exists.2 ⟨pt, T.pageTable_iff.2 hpt⟩)
  · exact .huge _ _ _ ((if_neg h4).trans ((if_neg h3).trans ((if_neg h2).trans (if_pos hhuge))))
      (hto3.trans (resolve_leaf (decode_huge h2 hhuge))) ⟨hopen4, hopen3⟩ (K.aligned _ _ _ hpd rfl h2 hhuge)
      ⟨pd, _, _, hpd, rfl⟩ h2

/-- What the hardware allows the supervisor on a page with this leaf. -/
def leafRights (e : Word) : Rights :=
  ⟨false, decide (e &&& pteWritable ≠ 0), decide (e &&& pteNoExecute ≠ 0)⟩

theorem KernTree.translateAddress (K : KernTree m kern tag) (v : Word) :
    m.translateAddress kern v = (m.leaf kern v).map fun e => e &&& pteAddrMask ||| v &&& 0xFFF#64 := by
  rw [translateAddress_eq]
  unfold leaf
  cases K.walk v with
  | absent _ hresolve => rw [hresolve]; rfl
  | huge _ _ e2 _ hresolve _ hsub _ _ =>
    rw [hresolve]
    exact congrArg some (leafAddress_splitEntry hsub v).symm
  | page _ _ _ e1 _ hresolve _ _ _ _ => rw [hresolve]; rfl

theorem KernTree.rights (K : KernTree m kern tag) (v : Word) : m.rights kern v = (m.leaf kern v).map leafRights := by
  have hopen : ∀ {e : Word}, Unrestricted e → decide (e &&& pteWritable ≠ 0) = true ∧ decide (e &&& pteNoExecute ≠ 0) = false :=
    fun h => ⟨decide_eq_true h.1, decide_eq_false fun hne => hne h.2⟩
  unfold Memory.rights leaf
  cases K.walk v with
  | absent hwalk hresolve => rw [hwalk, hresolve]; rfl
  | huge e4 e3 e2 hwalk hresolve hopens _ hin _ =>
    rw [hwalk, hresolve]
    have huser := K.user_of_inTables hin
    have hleaf : leafEntry v (1, e2) = splitEntry e2 (ptIndex v) := rfl
    simp only [Option.map_some, hleaf, leafRights, Rights.ofWalk, List.all_cons, List.any_cons, List.all_nil, List.any_nil,
      (hopen hopens.1).1, (hopen hopens.1).2, (hopen hopens.2).1, (hopen hopens.2).2,
      splitEntry_flag (Or.inr (Or.inr (Or.inl rfl))), splitEntry_flag (Or.inr (Or.inr (Or.inr rfl))), huser]
    simp
  | page e4 e3 e2 e1 hwalk hresolve hopens hin _ _ =>
    rw [hwalk, hresolve]
    have huser := K.user_of_inTables hin
    have hleaf : leafEntry v (0, e1) = e1 := rfl
    simp only [Option.map_some, hleaf, leafRights, Rights.ofWalk, List.all_cons, List.any_cons, List.all_nil, List.any_nil,
      (hopen hopens.1).1, (hopen hopens.1).2, (hopen hopens.2.1).1, (hopen hopens.2.1).2, (hopen hopens.2.2).1,
      (hopen hopens.2.2).2, huser]
    simp

/-- A leaf is an entry of the tables, or the part of one that is a 2 MB page. -/
theorem KernTree.leaf_inTables {e : Word} (K : KernTree m kern tag) (h : m.leaf kern v = some e) :
    ∃ e', InTables m kern tag e' ∧ e' &&& ptePresent ≠ 0 ∧ (e = e' ∨ ∃ j, e = splitEntry e' j) := by
  unfold leaf at h
  cases K.walk v with
  | absent _ hresolve =>
    rw [hresolve] at h
    cases h
  | huge _ _ e2 _ hresolve _ _ hin hpresent =>
    rw [hresolve] at h
    cases h
    exact ⟨e2, hin, hpresent, Or.inr ⟨ptIndex v, rfl⟩⟩
  | page _ _ _ e1 _ hresolve _ hin hpresent _ =>
    rw [hresolve] at h
    cases h
    exact ⟨e1, hin, hpresent, Or.inl rfl⟩

end Walk

/-! ### A page is changed -/

section Change

variable {m m' : Memory} {kern f₀ virt e v : Word} {tag : Tags}

theorem Tables.resolve_writePage (T : Tables m kern tag)
    (hf₀ : tag f₀ = some (kern, [pml4Index virt, pdptIndex virt, pdIndex virt])) (e v : Word) :
    resolve (m.writeEntry f₀ (ptIndex virt) e).links (pathOf v) kern =
      if pageNumber v = pageNumber virt then if e &&& ptePresent = 0 then none else some (0, e)
      else resolve m.links (pathOf v) kern := by
  have hb : Builds (fun _ _ => True) kern kern m tag (m.writeEntry f₀ (ptIndex virt) e) tag := T.writePage hf₀ rfl trivial
  split
  · rename_i hpage
    have hpath : pathOf v = [pml4Index virt, pdptIndex virt, pdIndex virt] ++ [ptIndex virt] := pathOf_eq_iff.2 hpage
    have hentry : (m.writeEntry f₀ (ptIndex virt) e).links 0 f₀ (ptIndex virt) = decode 0 e := by
      unfold links
      rw [writeEntry_ram, if_pos ⟨rfl, rfl⟩]
    rw [hpath, Lib.TableTree.resolve_of_descend (by simp) (hb.tables.layout.descend_of_tag hf₀)]
    unfold resolve
    by_cases habsent : e &&& ptePresent = 0
    · rw [List.length_nil, hentry, decode_absent habsent, if_pos habsent]
    · rw [List.length_nil, hentry, decode_page habsent, if_neg habsent]
  · rename_i hpage
    refine T.layout.resolve_change (S := fun f j => f = f₀ ∧ j = ptIndex virt) ?_ ?_ T.layout.kern_root rfl rfl
    · intro f o p hf j hhere
      unfold links
      rw [writeEntry_ram, if_neg hhere]
    · rintro f o p j is hf ⟨rfl, rfl⟩ hpath
      rw [hf₀] at hf
      cases hf
      exfalso
      have hlen := congrArg List.length hpath
      simp only [List.length_append, List.length_cons, List.length_nil, length_pathOf] at hlen
      have hnil : is = [] := List.eq_nil_of_length_eq_zero (by omega)
      subst hnil
      exact hpage (pathOf_eq_iff.1 hpath.symm)

/-- The leaf of a page is written. -/
theorem Tables.leaf_writePage (T : Tables m kern tag)
    (hf₀ : tag f₀ = some (kern, [pml4Index virt, pdptIndex virt, pdIndex virt])) (e v : Word) :
    (m.writeEntry f₀ (ptIndex virt) e).leaf kern v =
      if pageNumber v = pageNumber virt then if e &&& ptePresent = 0 then none else some e else m.leaf kern v := by
  unfold leaf
  rw [T.resolve_writePage hf₀]
  split
  · split <;> rfl
  · rfl

/-- An entry of a page table is written that is not open to user mode. -/
theorem KernTree.writePage (K : KernTree m kern tag)
    (hf₀ : tag f₀ = some (kern, [pml4Index virt, pdptIndex virt, pdIndex virt])) (huser : e &&& pteUser = 0) :
    KernTree (m.writeEntry f₀ (ptIndex virt) e) kern tag := by
  have hb : KernBuilds kern 0 m tag (m.writeEntry f₀ (ptIndex virt) e) tag :=
    K.tables.kern_writePage hf₀ rfl fun _ _ => huser
  refine ⟨hb.tables, K.aligned.writeEntry hf₀ (Or.inr (by simp)), hb.supervisor (by decide) K.supervisor,
    fun {f p c} j hf hlink => ?_⟩
  by_cases hhere : f = f₀ ∧ j = ptIndex virt
  · -- the lowest level has no links
    obtain ⟨rfl, rfl⟩ := hhere
    rw [hf₀] at hf
    cases hf
    exact absurd hlink (decode_zero_ne_table _ c)
  · unfold links at hlink
    rw [writeEntry_ram, if_neg hhere] at hlink ⊢
    exact K.opens j hf hlink

/-- The pages of the tree have become what `t` makes of their leaves; the page tables stay. -/
structure KernLeaves (t : (Word → Option Word) → Word → Option Word) (kern : Word) (m m' : Memory) (tag tag' : Tags) :
    Prop where
  tree : KernTree m' kern tag'
  grows : Grows kern tag tag'
  consumes : Consumes m m'
  leaf : m'.leaf kern = t (m.leaf kern)

theorem KernLeaves.refl (K : KernTree m kern tag) : KernLeaves id kern m m tag tag :=
  ⟨K, .refl kern tag, .refl m, rfl⟩

theorem KernLeaves.trans {t t' : (Word → Option Word) → Word → Option Word} {m₁ m₂ : Memory} {tag₁ tag₂ : Tags}
    (h : KernLeaves t kern m m₁ tag tag₁) (h' : KernLeaves t' kern m₁ m₂ tag₁ tag₂) :
    KernLeaves (t' ∘ t) kern m m₂ tag tag₂ := by
  refine ⟨h'.tree, h.grows.trans h'.grows, h.consumes.trans h'.consumes, ?_⟩
  rw [h'.leaf, h.leaf]
  rfl

/-- The same leaves, said in another way. -/
theorem KernLeaves.congr {t t' : (Word → Option Word) → Word → Option Word} {tag' : Tags}
    (h : KernLeaves t kern m m' tag tag') (ht : ∀ v, t (m.leaf kern) v = t' (m.leaf kern) v) :
    KernLeaves t' kern m m' tag tag' :=
  ⟨h.tree, h.grows, h.consumes, h.leaf.trans (funext ht)⟩

/-- Small pages stay small. -/
theorem KernLeaves.small {t : (Word → Option Word) → Word → Option Word} {tag' : Tags}
    (h : KernLeaves t kern m m' tag tag') (K : KernTree m kern tag) (hv : m.Small kern v) : m'.Small kern v :=
  hv.grows K.tables h.tree.tables h.grows

/-- A page is taken away. -/
def without (virt : Word) (t : Word → Option Word) : Word → Option Word := fun v =>
  if pageNumber v = pageNumber virt then none else t v

/-- A page, if it is there, gets other flags. -/
def reflagged (virt flags : Word) (t : Word → Option Word) : Word → Option Word := fun v =>
  if pageNumber v = pageNumber virt then (t v).map fun e => pageEntry e flags else t v

theorem KernTree.unmapPage (K : KernTree m kern tag) (hsmall : m.Small kern virt) :
    (m.unmapPage kern virt).2 = true ∧ KernLeaves (without virt) kern m (m.unmapPage kern virt).1 tag tag := by
  obtain ⟨pt, hpt⟩ := Option.isSome_iff_exists.1 hsmall
  have hf₀ := K.tables.pageTable_iff.1 hpt
  have heq : m.unmapPage kern virt = (m.writeEntry pt (ptIndex virt) 0, true) := by
    unfold Memory.unmapPage
    rw [hpt]
  rw [heq]
  refine ⟨rfl, K.writePage hf₀ (by decide), .refl kern tag, .writeEntry _ _ _ _, funext fun v => ?_⟩
  rw [K.tables.leaf_writePage hf₀]
  rfl

/-- A page that can be changed gets its flags, which have to mark it as present for the supervisor. -/
theorem KernTree.remapPageFlags (K : KernTree m kern tag) {flags : Word} (hpresent : flags &&& ptePresent ≠ 0)
    (huser : flags &&& pteUser = 0) (hsmall : m.Small kern virt) :
    KernLeaves (reflagged virt flags) kern m (m.remapPageFlags kern virt flags).1 tag tag := by
  obtain ⟨pt, hpt⟩ := Option.isSome_iff_exists.1 hsmall
  have hf₀ := K.tables.pageTable_iff.1 hpt
  have hself := fun v => K.tables.leaf_writePage hf₀ (m.ram pt (ptIndex virt)) v
  simp only [writeEntry_self] at hself
  unfold Memory.remapPageFlags
  rw [hpt]
  simp only
  split
  · rename_i habsent
    refine (KernLeaves.refl K).congr fun v => ?_
    unfold reflagged
    rw [id_eq, hself v]
    by_cases hpage : pageNumber v = pageNumber virt
    · rw [if_pos hpage, if_pos hpage, if_pos habsent]
      rfl
    · rw [if_neg hpage, if_neg hpage]
  · rename_i hold
    refine ⟨K.writePage hf₀ ((pageEntry_user _ flags).trans huser), .refl kern tag, .writeEntry _ _ _ _,
      funext fun v => ?_⟩
    have hnew : pageEntry (m.ram pt (ptIndex virt)) flags &&& ptePresent ≠ 0 := by
      rw [pageEntry_present]
      exact hpresent
    show (m.writeEntry pt (ptIndex virt) (pageEntry (m.ram pt (ptIndex virt)) flags)).leaf kern v = _
    rw [K.tables.leaf_writePage hf₀]
    unfold reflagged
    by_cases hpage : pageNumber v = pageNumber virt
    · rw [if_pos hpage, if_pos hpage, if_neg hnew, hself v, if_pos hpage, if_neg hold]
      rfl
    · rw [if_neg hpage, if_neg hpage]

theorem KernTree.remapPageFlags_large {flags : Word} (hlarge : ¬ m.Small kern virt) :
    m.remapPageFlags kern virt flags = (m, false) := by
  have hnone : m.pageTable kern virt = none := Option.not_isSome_iff_eq_none.1 hlarge
  unfold Memory.remapPageFlags
  rw [hnone]

end Change

/-! ### A 2 MB page is split -/

section Split

variable {m m₁ m' : Memory} {kern virt pd c e v : Word} {tag : Tags}

/-- The page tables of a 2 MB area are the same. -/
theorem SameHuge.small (h : SameHuge v virt) : m.Small kern v ↔ m.Small kern virt := by
  obtain ⟨h4, h3, h2⟩ := h
  unfold Small Memory.pageTable pageDirectory
  rw [h4, h3, h2]

theorem KernTree.leaf_eq_none (K : KernTree m kern tag) (h : m.translateAddress kern v = none) :
    m.leaf kern v = none := by
  rw [K.translateAddress] at h
  exact Option.map_eq_none_iff.1 h

/-- The page table that replaces a 2 MB page has its leaves. -/
private theorem leaf_split (T : Tables m kern tag) (hpd : tag pd = some (kern, [pml4Index virt, pdptIndex virt]))
    (hpresent : m.ram pd (pdIndex virt) &&& ptePresent ≠ 0) (hhuge : m.ram pd (pdIndex virt) &&& pteHugePage ≠ 0)
    (hram : m₁.ram = m.ram) (hc : tag c = none) (he : PointsTo e c) (v : Word) :
    ((m₁.setFrame c (splitEntry (m.ram pd (pdIndex virt)))).writeEntry pd (pdIndex virt) e).leaf kern v =
      m.leaf kern v := by
  have hne : ∀ {f t}, tag f = some t → f ≠ c := by
    rintro f t hf rfl
    rw [hc] at hf
    cases hf
  unfold leaf
  refine T.layout.map_resolve_change (leafEntry v) (S := fun f j => f = pd ∧ j = pdIndex virt) ?_ ?_ T.layout.kern_root
    rfl rfl
  · intro f o p hf j hhere
    unfold links
    rw [writeEntry_ram, if_neg hhere]
    exact congrArg (fun w => decode _ w) ((if_neg (hne hf)).trans (by rw [hram]))
  · rintro f o p j is hf ⟨rfl, rfl⟩ hpath
    rw [hpd] at hf
    cases hf
    -- the way of `v` leads through the 2 MB page, and the last slot on it is that of the page
    have hlen := congrArg List.length hpath
    simp only [List.length_append, List.length_cons, List.length_nil, length_pathOf] at hlen
    obtain ⟨i, rfl⟩ := List.length_eq_one_iff.1 (by omega : is.length = 1)
    have hi : i = ptIndex v := by
      have hlast := congrArg List.getLast? hpath
      simpa [pathOf] using hlast
    subst hi
    have hlink : ((m₁.setFrame c (splitEntry (m.ram f (pdIndex virt)))).writeEntry f (pdIndex virt) e).links 1 f
        (pdIndex virt) = .table c := by
      unfold links
      rw [writeEntry_ram, if_pos ⟨rfl, rfl⟩]
      exact decode_of_pointsTo he (by decide)
    have hnew : ((m₁.setFrame c (splitEntry (m.ram f (pdIndex virt)))).writeEntry f (pdIndex virt) e).links 0 c
        (ptIndex v) = .leaf (splitEntry (m.ram f (pdIndex virt)) (ptIndex v)) := by
      unfold links
      rw [writeEntry_ram, if_neg fun h => hne hpd h.1.symm]
      refine (congrArg (decode 0) (if_pos rfl)).trans (decode_page ?_)
      rw [splitEntry_flag (Or.inl rfl)]
      exact hpresent
    have hold : m.links 1 f (pdIndex virt) = .leaf (m.ram f (pdIndex virt)) := decode_huge hpresent hhuge
    simp only [resolve, List.length_singleton, List.length_nil, hlink, hnew, hold, Option.map_some]
    rfl

/-- A new page table takes the place of a 2 MB page. -/
private theorem kernLeaves_split (K : KernTree m kern tag)
    (hpd : tag pd = some (kern, [pml4Index virt, pdptIndex virt]))
    (hpresent : m.ram pd (pdIndex virt) &&& ptePresent ≠ 0) (hhuge : m.ram pd (pdIndex virt) &&& pteHugePage ≠ 0)
    (halloc : m.allocPtFrame = (m₁, some c)) :
    KernLeaves id kern m ((m₁.setFrame c (splitEntry (m.ram pd (pdIndex virt)))).writeEntry pd (pdIndex virt)
        (c &&& pteAddrMask ||| ptePresent ||| pteWritable)) tag
      (setTag tag c (kern, [pml4Index virt, pdptIndex virt, pdIndex virt])) := by
  have hcons := Consumes.allocPtFrame m
  rw [halloc] at hcons
  obtain ⟨T₁, hfresh, hram⟩ := K.tables.allocPtFrame halloc
  have hlink := pointsTo_boot hfresh.reserved.addr
  have hne : ∀ {f t}, tag f = some t → f ≠ c := by
    rintro f t hf rfl
    rw [hfresh.untagged] at hf
    cases hf
  obtain ⟨m₂, hm₂⟩ : ∃ m₂, m₂ = (m₁.setFrame c (splitEntry (m.ram pd (pdIndex virt)))).writeEntry pd (pdIndex virt)
    (c &&& pteAddrMask ||| ptePresent ||| pteWritable) := ⟨_, rfl⟩
  have hcons₂ : Consumes m₁ m₂ := by
    rw [hm₂]
    exact ⟨rfl, fun _ h => h, List.suffix_refl _⟩
  -- the entry that points to the new table, the entries of the new table, and the others
  have hnew : m₂.ram pd (pdIndex virt) = c &&& pteAddrMask ||| ptePresent ||| pteWritable := by
    rw [hm₂, writeEntry_ram, if_pos ⟨rfl, rfl⟩]
  have hcontent : ∀ j, m₂.ram c j = splitEntry (m.ram pd (pdIndex virt)) j := by
    intro j
    rw [hm₂, writeEntry_ram, if_neg fun h => hne hpd h.1.symm]
    exact if_pos rfl
  have hrest : ∀ {f t}, tag f = some t → ∀ j, ¬ (f = pd ∧ j = pdIndex virt) → m₂.ram f j = m.ram f j := by
    intro f t hf j hhere
    rw [hm₂, writeEntry_ram, if_neg hhere, ← hram]
    exact if_neg (hne hf)
  have hslot : ∀ d, m₁.links (3 - [pml4Index virt, pdptIndex virt].length) pd (pdIndex virt) ≠ .table d := by
    intro d
    unfold links
    rw [hram]
    exact fun h => by cases (decode_huge hpresent hhuge).symm.trans h
  rw [← hm₂]
  refine ⟨⟨T₁.adopt hpd (by simp) hfresh hslot hlink hcons₂ (fun f t hf j hhere => by rw [hrest hf j hhere, hram]) hnew
    (Or.inr rfl), ?_, ?_, ?_⟩, .setTag _ hfresh.untagged, hcons.trans hcons₂, ?_⟩
  · rw [hm₂]
    exact K.aligned.adopt hpd hram hfresh.untagged hlink (Or.inr rfl)
  · intro f p j hf
    rcases Layout.setTag_eq_some hf with ⟨rfl, -⟩ | ⟨-, hf⟩
    · rw [hcontent j, splitEntry_flag (Or.inr (Or.inl rfl))]
      exact K.supervisor _ hpd
    · by_cases hhere : f = pd ∧ j = pdIndex virt
      · rw [hhere.1, hhere.2, hnew]
        exact (bootLink_opens c).2
      · rw [hrest hf j hhere]
        exact K.supervisor j hf
  · intro f p d j hf hd
    rcases Layout.setTag_eq_some hf with ⟨rfl, heq⟩ | ⟨-, hf⟩
    · cases heq
      exact absurd hd (decode_zero_ne_table _ d)
    · by_cases hhere : f = pd ∧ j = pdIndex virt
      · rw [hhere.1, hhere.2, hnew]
        exact (bootLink_opens c).1
      · unfold links at hd
        rw [hrest hf j hhere] at hd ⊢
        exact K.opens j hf hd
  · rw [hm₂]
    exact funext fun v => leaf_split K.tables hpd hpresent hhuge hram hfresh.untagged hlink v

/-- Splitting changes no leaf.  Afterwards the pages of the 2 MB can be changed one by one, unless nothing was mapped
there, or there was no frame for the page table. -/
theorem KernTree.splitHugePageGlobal (K : KernTree m kern tag) (virt : Word) :
    ∃ tag', KernLeaves id kern m (m.splitHugePageGlobal kern virt).1 tag tag' ∧
      ((m.splitHugePageGlobal kern virt).2 = true → (m.splitHugePageGlobal kern virt).1.Small kern virt) ∧
      ((m.splitHugePageGlobal kern virt).2 = false →
        (∀ v, SameHuge virt v → m.leaf kern v = none) ∨ m.allocPtFrame.2 = none) := by
  have T := K.tables
  have hsame : ∀ {v}, SameHuge virt v → m.pageDirectory kern v = m.pageDirectory kern virt := by
    intro v hv
    unfold pageDirectory
    rw [hv.1, hv.2.1]
  unfold Memory.splitHugePageGlobal
  split
  · rename_i hnone
    refine ⟨tag, .refl K, nofun, fun _ => Or.inl fun v hv => K.leaf_eq_none ?_⟩
    unfold Memory.translateAddress
    rw [hsame hv, hnone]
  · rename_i pd hdir
    have hpd := T.kern_pageDirectory hdir
    simp only
    split
    · rename_i habsent
      refine ⟨tag, .refl K, nofun, fun _ => Or.inl fun v hv => K.leaf_eq_none ?_⟩
      unfold Memory.translateAddress
      simp only [hsame hv, hdir, hv.2.2, if_pos habsent]
    · rename_i hpresent
      split
      · rename_i hplain
        refine ⟨tag, .refl K, fun _ => ?_, nofun⟩
        unfold Small Memory.pageTable
        simp only [hdir, if_neg hpresent, if_neg (not_not.2 hplain)]
        rfl
      · rename_i hhuge
        split
        · rename_i m₁ halloc
          rw [allocPtFrame_eq_none halloc]
          exact ⟨tag, .refl K, nofun, fun _ => Or.inr (by rw [halloc])⟩
        · rename_i m₁ pt halloc
          have hleaves := kernLeaves_split K hpd hpresent hhuge halloc
          refine ⟨_, hleaves, fun _ => ?_, nofun⟩
          exact Option.isSome_iff_exists.2 ⟨pt, hleaves.tree.tables.pageTable_iff.2 (Layout.setTag_self _ _ _)⟩

end Split

end Memory

end Rost
