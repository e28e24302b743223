import Rost.Memory.Pages

/-!
# The kernel's page tables

The boot code builds the kernel's PML4 in two phases.  First `identity_map_region` maps the memory in pages of 2 MB,
with tables from the bump allocator; then the global allocators are set up on the rest of the heap, and single pages
are split, mapped, unmapped and given other flags (`Booted`).  The result is a layout of tables of the kernel alone
(`Booted.tables`), in which no entry is open to user mode if none of the flags is (`Supervisor`).
-/

namespace Rost

open Lib (Link Bitmap)
open Lib.TableTree (resolve Layout)
open Lib.TableTree.Layout (setTag)

namespace Memory

/-- No entry of the kernel's tables is open to user mode. -/
def Supervisor (m : Memory) (kern : Word) (tag : Tags) : Prop :=
  ∀ {f p} (j : Fin 512), tag f = some (kern, p) → m.ram f j &&& pteUser = 0

/-- Page tables have been built for the kernel, with the given flags. -/
structure KernBuilds (kern flags : Word) (m : Memory) (tag : Tags) (m' : Memory) (tag' : Tags) : Prop where
  tables : Tables m' kern tag'
  consumes : Consumes m m'
  grows : Grows kern tag tag'
  supervisor : flags &&& pteUser = 0 → Supervisor m kern tag → Supervisor m' kern tag'

namespace KernBuilds

variable {kern flags : Word} {m m₁ m₂ : Memory} {tag tag₁ tag₂ : Tags}

theorem refl (T : Tables m kern tag) : KernBuilds kern flags m tag m tag := ⟨T, .refl m, .refl kern tag, fun _ h => h⟩

theorem trans (h : KernBuilds kern flags m tag m₁ tag₁) (h' : KernBuilds kern flags m₁ tag₁ m₂ tag₂) :
    KernBuilds kern flags m tag m₂ tag₂ :=
  ⟨h'.tables, h.consumes.trans h'.consumes, h.grows.trans h'.grows,
    fun hflags hs => h'.supervisor hflags (h.supervisor hflags hs)⟩

/-- First frames have been handed out, which changes nothing in memory. -/
theorem after_alloc (h : KernBuilds kern flags m₁ tag m₂ tag₂) (hcons : Consumes m m₁) (hram : m₁.ram = m.ram) :
    KernBuilds kern flags m tag m₂ tag₂ := by
  refine ⟨h.tables, hcons.trans h.consumes, h.grows, fun hflags hs => h.supervisor hflags fun j hf => ?_⟩
  rw [hram]
  exact hs j hf

end KernBuilds

/-! ### Entries that are not open to user mode -/

private theorem and_or_user {a b : Word} (ha : a &&& pteUser = 0) (hb : b &&& pteUser = 0) :
    (a ||| b) &&& pteUser = 0 := by
  rw [BitVec.and_comm, BitVec.and_or_distrib_left, BitVec.and_comm pteUser a, BitVec.and_comm pteUser b, ha, hb]
  rfl

private theorem and_and_user {a b : Word} (hb : b &&& pteUser = 0) : (a &&& b) &&& pteUser = 0 := by
  rw [BitVec.and_assoc, hb]
  exact BitVec.and_zero

private theorem left_and_user {a b : Word} (ha : a &&& pteUser = 0) : (a &&& b) &&& pteUser = 0 := by
  rw [BitVec.and_comm a b]
  exact and_and_user ha

private theorem linkEntry_user {c flags : Word} (h : flags &&& pteUser = 0) :
    linkEntry c (flags &&& pteUser) &&& pteUser = 0 := by
  unfold linkEntry
  refine and_or_user (and_or_user (and_or_user (and_and_user (by decide)) (by decide)) (by decide)) ?_
  rw [h]
  rfl

/-- A multiple of the page size has no flags. -/
private theorem and_user_of_aligned {w : Word} (h : w.toNat % 4096 = 0) : w &&& pteUser = 0 := by
  have hbit : w.getLsbD 2 = false := by
    have hmod : (w.toNat % 2 ^ 12).testBit 2 = w.toNat.testBit 2 := by
      rw [Nat.testBit_mod_two_pow]
      simp
    rw [show w.toNat % 2 ^ 12 = 0 from h, Nat.zero_testBit] at hmod
    exact hmod.symm
  have huser : ∀ i : Fin 64, pteUser.getLsbD i = decide (i.val = 2) := by decide
  refine BitVec.eq_of_getLsbD_eq fun i hi => ?_
  rw [BitVec.getLsbD_and, huser ⟨i, hi⟩]
  by_cases h2 : i = 2
  · subst h2
    rw [hbit]
    rfl
  · simp [h2]

private theorem splitEntry_user {e : Word} (h : e &&& pteUser = 0) (j : Fin 512) : splitEntry e j &&& pteUser = 0 := by
  have haligned : (e &&& pteHugeAddrMask).toNat % 4096 = 0 := by
    have hmask : ∀ i : Fin 64, i.val < 12 → pteHugeAddrMask.getLsbD i = false := by decide
    refine Nat.eq_of_testBit_eq fun i => ?_
    rw [show (4096 : Nat) = 2 ^ 12 from rfl, Nat.testBit_mod_two_pow, Nat.zero_testBit]
    by_cases hi : i < 12
    · have := hmask ⟨i, by omega⟩ hi
      have hand : (e &&& pteHugeAddrMask).getLsbD i = false := by
        rw [BitVec.getLsbD_and, this, Bool.and_false]
      rw [show (e &&& pteHugeAddrMask).toNat.testBit i = (e &&& pteHugeAddrMask).getLsbD i from rfl, hand, Bool.and_false]
    · simp [hi]
  unfold splitEntry
  refine and_or_user (and_user_of_aligned ?_) (left_and_user (left_and_user h))
  rw [BitVec.toNat_add, BitVec.toNat_ofNat]
  have := j.isLt
  omega

/-! ### Changes of the kernel's tables -/

section Kern

variable {m m' : Memory} {kern flags f₀ : Word} {tag : Tags} {p₀ : List (Fin 512)} {i₀ : Fin 512}

/-- A new table behind a slot that holds no table. -/
private theorem kernBuilds_adopt (T : Tables m kern tag) (hf₀ : tag f₀ = some (kern, p₀)) (hp₀ : p₀.length < 3)
    {c e : Word} {content : Fin 512 → Word} (hfresh : m.Fresh tag c)
    (hslot : ∀ d, m.links (3 - p₀.length) f₀ i₀ ≠ .table d) (he : PointsTo e c)
    (hcontent : (∀ j, content j = 0) ∨ p₀.length = 2)
    (huser : flags &&& pteUser = 0 → Supervisor m kern tag → e &&& pteUser = 0 ∧ ∀ j, content j &&& pteUser = 0) :
    KernBuilds kern flags m tag ((m.setFrame c content).writeEntry f₀ i₀ e) (setTag tag c (kern, p₀ ++ [i₀])) := by
  have hne : ∀ {f t}, tag f = some t → f ≠ c := by
    rintro f t hf rfl
    rw [hfresh.untagged] at hf
    cases hf
  have hcons : Consumes m ((m.setFrame c content).writeEntry f₀ i₀ e) := ⟨rfl, fun _ h => h, List.suffix_refl _⟩
  have hsame : ∀ f t, tag f = some t → ∀ j, ¬ (f = f₀ ∧ j = i₀) →
      ((m.setFrame c content).writeEntry f₀ i₀ e).ram f j = m.ram f j := by
    intro f t hf j hhere
    rw [writeEntry_ram, if_neg hhere]
    exact if_neg (hne hf)
  have hentry : ((m.setFrame c content).writeEntry f₀ i₀ e).ram f₀ i₀ = e := by
    rw [writeEntry_ram, if_pos ⟨rfl, rfl⟩]
  have hnew : ∀ j, ((m.setFrame c content).writeEntry f₀ i₀ e).ram c j = content j := by
    intro j
    rw [writeEntry_ram, if_neg (fun h => hne hf₀ h.1.symm)]
    exact if_pos rfl
  refine ⟨T.adopt hf₀ hp₀ hfresh hslot he hcons hsame hentry ?_, hcons, .setTag _ hfresh.untagged, ?_⟩
  · exact hcontent.imp_left fun h j => by rw [hnew j, h j]
  · intro hflags hs f p j hf
    obtain ⟨heuser, hcuser⟩ := huser hflags hs
    rcases Layout.setTag_eq_some hf with ⟨rfl, -⟩ | ⟨-, hf⟩
    · rw [hnew j]
      exact hcuser j
    · by_cases hhere : f = f₀ ∧ j = i₀
      · rw [hhere.1, hhere.2, hentry]
        exact heuser
      · rw [hsame f _ hf j hhere]
        exact hs j hf

/-- What the entry that is written means for `Supervisor`. -/
private theorem supervisor_write {e : Word} (he : flags &&& pteUser = 0 → Supervisor m kern tag → e &&& pteUser = 0)
    (hflags : flags &&& pteUser = 0) (hs : Supervisor m kern tag) : Supervisor (m.writeEntry f₀ i₀ e) kern tag := by
  intro f p j hf
  rw [writeEntry_ram]
  split
  · exact he hflags hs
  · exact hs j hf

/-- An entry of the lowest level is written. -/
theorem Tables.kern_writePage (T : Tables m kern tag) (hf₀ : tag f₀ = some (kern, p₀)) (hp₀ : p₀.length = 3) {e : Word}
    (he : flags &&& pteUser = 0 → Supervisor m kern tag → e &&& pteUser = 0) :
    KernBuilds kern flags m tag (m.writeEntry f₀ i₀ e) tag := by
  have hb : Builds (fun _ _ => True) kern kern m tag (m.writeEntry f₀ i₀ e) tag := T.writePage hf₀ hp₀ trivial
  exact ⟨hb.tables, hb.consumes, hb.grows, supervisor_write he⟩

/-- So changes the page of the entry. -/
theorem Tables.kern_pageWritten (T : Tables m kern tag) {virt e : Word}
    (hf₀ : tag f₀ = some (kern, [pml4Index virt, pdptIndex virt, pdIndex virt])) :
    KernPages (fun t => setPage t virt e) kern m tag (m.writeEntry f₀ (ptIndex virt) e) tag :=
  ⟨fun ha => ha.writeEntry hf₀ (Or.inr (by simp)), fun _ => T.translateAddress_writePage hf₀⟩

/-- On a slot of the kernel `alloc_fn` builds the next table, splits a 2 MB page, or finds the table. -/
theorem Tables.kern_allocFn (T : Tables m kern tag) (hf₀ : tag f₀ = some (kern, p₀)) (hp₀ : p₀.length < 3)
    {r : Option Word} (h : m.allocFn (flags &&& pteUser) f₀ i₀ = (m', r)) :
    ∃ tag', KernBuilds kern flags m tag m' tag' ∧ KernPages id kern m tag m' tag' ∧
      ∀ c, r = some c → tag' c = some (kern, p₀ ++ [i₀]) := by
  have hcons := Consumes.allocPtFrame m
  rcases m.allocFn_cases (flags &&& pteUser) f₀ i₀ with hfail | ⟨habsent, m₁, c, halloc, heq⟩ |
    ⟨hpresent, hhuge, m₁, c, halloc, heq⟩ | ⟨hpresent, hplain, e, he, heq⟩
  · rw [hfail] at h
    cases h
    exact ⟨tag, .refl T, .refl kern _ tag, fun c hc => by cases hc⟩
  · rw [heq] at h
    cases h
    rw [halloc] at hcons
    obtain ⟨T₁, hfresh, hram⟩ := T.allocPtFrame halloc
    have hlink : PointsTo (linkEntry c (flags &&& pteUser)) c := pointsTo_allocFn hfresh.reserved.addr
    have hslot : ∀ d, m₁.links (3 - p₀.length) f₀ i₀ ≠ .table d := by
      intro d
      unfold links
      rw [hram, decode_absent habsent]
      exact fun h => by cases h
    have hb : KernBuilds kern flags m₁ tag ((m₁.setFrame c fun _ => 0).writeEntry f₀ i₀ _) _ :=
      kernBuilds_adopt T₁ hf₀ hp₀ hfresh hslot hlink (Or.inl fun _ => rfl)
        fun hflags _ => ⟨linkEntry_user hflags, fun _ => by decide⟩
    have hpages : KernPages id kern m tag ((m₁.setFrame c fun _ => 0).writeEntry f₀ i₀ _) _ :=
      ⟨fun ha => ha.adopt hf₀ hram hfresh.untagged hlink (Or.inl fun _ => rfl), fun _ => funext fun v =>
        T.translateAddress_adopt hf₀ hp₀ hram hfresh.untagged hlink (Or.inl ⟨habsent, fun _ => rfl⟩) v⟩
    refine ⟨_, hb.after_alloc hcons hram, hpages, fun d hd => ?_⟩
    cases hd
    rw [hlink.addr]
    exact Layout.setTag_self _ _ _
  · rw [heq] at h
    cases h
    rw [halloc] at hcons
    obtain ⟨T₁, hfresh, hram⟩ := T.allocPtFrame halloc
    have hlink : PointsTo (linkEntry c (flags &&& pteUser)) c := pointsTo_allocFn hfresh.reserved.addr
    have htwo := T.length_of_huge hf₀ hp₀ hpresent hhuge
    have hslot : ∀ d, m₁.links (3 - p₀.length) f₀ i₀ ≠ .table d := by
      intro d
      unfold links
      rw [hram, htwo, decode_huge hpresent hhuge]
      exact fun h => by cases h
    have hb : KernBuilds kern flags m₁ tag ((m₁.setFrame c (splitEntry (m.ram f₀ i₀))).writeEntry f₀ i₀ _) _ :=
      kernBuilds_adopt T₁ hf₀ hp₀ hfresh hslot hlink (Or.inr htwo)
        fun hflags hs => ⟨linkEntry_user hflags, splitEntry_user (by rw [← hram]; exact hs i₀ hf₀)⟩
    have hpages : KernPages id kern m tag ((m₁.setFrame c (splitEntry (m.ram f₀ i₀))).writeEntry f₀ i₀ _) _ :=
      ⟨fun ha => ha.adopt hf₀ hram hfresh.untagged hlink (Or.inr htwo), fun ha => funext fun v =>
        T.translateAddress_adopt hf₀ hp₀ hram hfresh.untagged hlink
          (Or.inr ⟨htwo, hpresent, hhuge, ha f₀ p₀ i₀ hf₀ htwo hpresent hhuge, rfl⟩) v⟩
    refine ⟨_, hb.after_alloc hcons hram, hpages, fun d hd => ?_⟩
    cases hd
    rw [hlink.addr]
    exact Layout.setTag_self _ _ _
  · rw [heq] at h
    cases h
    have hlink : m.links (3 - p₀.length) f₀ i₀ = .table (m.ram f₀ i₀ &&& pteAddrMask) :=
      decode_small hpresent hplain (by omega)
    have hchild := T.kern_child hf₀ hlink
    have hb : Builds (fun _ _ => False) kern kern m tag (m.writeEntry f₀ i₀ e) tag :=
      builds_open T hf₀ hplain hlink hchild (he.imp_right And.right)
    have hplain' : e &&& pteHugePage = 0 := by
      rcases he with rfl | ⟨-, rfl⟩
      · exact hplain
      · rw [or_pteUser_and (by decide)]
        exact hplain
    have hpages : KernPages id kern m tag (m.writeEntry f₀ i₀ e) tag := by
      refine ⟨fun ha => ha.writeEntry hf₀ (Or.inl hplain'), fun _ => funext fun v => ?_⟩
      rw [translateAddress_eq, hb.resolves T.layout.kern_root rfl fun _ _ _ h => h, ← translateAddress_eq]
      rfl
    refine ⟨tag, ⟨hb.tables, hb.consumes, hb.grows, supervisor_write fun hflags hs => ?_⟩, hpages, fun d hd => ?_⟩
    · rcases he with rfl | ⟨hne, -⟩
      · exact hs i₀ hf₀
      · exact absurd hflags hne
    · cases hd
      have haddr : e &&& pteAddrMask = m.ram f₀ i₀ &&& pteAddrMask := by
        rcases he with rfl | ⟨-, rfl⟩
        · rfl
        · exact or_pteUser_and (by decide)
      rw [haddr]
      exact hchild

theorem Tables.kern_mapPageGlobal (T : Tables m kern tag) {virt phys : Word} {ok : Bool}
    (h : m.mapPageGlobal kern virt phys flags = (m', ok)) :
    ∃ tag', KernBuilds kern flags m tag m' tag' ∧ KernPages (fun t => if ok = true then
      setPage t virt (phys &&& pteAddrMask ||| flags &&& ~~~pteHugePage) else t) kern m tag m' tag' := by
  unfold Memory.mapPageGlobal at h
  simp only at h
  split at h
  · rename_i m₁ h₁
    cases h
    obtain ⟨tag₁, hb₁, hp₁, -⟩ := T.kern_allocFn T.layout.kern_root (by decide) h₁
    exact ⟨tag₁, hb₁, hp₁⟩
  · rename_i m₁ pdpt h₁
    obtain ⟨tag₁, hb₁, hp₁, hpdpt⟩ := T.kern_allocFn T.layout.kern_root (by decide) h₁
    split at h
    · rename_i m₂ h₂
      cases h
      obtain ⟨tag₂, hb₂, hp₂, -⟩ := hb₁.tables.kern_allocFn (hpdpt pdpt rfl) (by simp) h₂
      exact ⟨tag₂, hb₁.trans hb₂, hp₁.trans hp₂⟩
    · rename_i m₂ pd h₂
      obtain ⟨tag₂, hb₂, hp₂, hpd⟩ := hb₁.tables.kern_allocFn (hpdpt pdpt rfl) (by simp) h₂
      split at h
      · rename_i m₃ h₃
        cases h
        obtain ⟨tag₃, hb₃, hp₃, -⟩ := hb₂.tables.kern_allocFn (hpd pd rfl) (by simp) h₃
        exact ⟨tag₃, (hb₁.trans hb₂).trans hb₃, (hp₁.trans hp₂).trans hp₃⟩
      · rename_i m₃ pt h₃
        cases h
        obtain ⟨tag₃, hb₃, hp₃, hpt⟩ := hb₂.tables.kern_allocFn (hpd pd rfl) (by simp) h₃
        have hbuild : KernBuilds kern flags m₃ tag₃
            (m₃.writeEntry pt (ptIndex virt) (phys &&& pteAddrMask ||| flags &&& ~~~pteHugePage)) tag₃ :=
          hb₃.tables.kern_writePage (hpt pt rfl) (by simp)
            fun hflags _ => (pageEntry_user phys flags).trans hflags
        have hpage : KernPages (fun t => setPage t virt (phys &&& pteAddrMask ||| flags &&& ~~~pteHugePage)) kern m₃ tag₃
            _ tag₃ := hb₃.tables.kern_pageWritten (hpt pt rfl)
        exact ⟨tag₃, ((hb₁.trans hb₂).trans hb₃).trans hbuild, ((hp₁.trans hp₂).trans hp₃).trans hpage⟩

/-! ### The software walk over the kernel's tables -/

theorem Tables.kern_pageDirectory (T : Tables m kern tag) {virt pd : Word} (h : m.pageDirectory kern virt = some pd) :
    tag pd = some (kern, [pml4Index virt, pdptIndex virt]) := by
  unfold pageDirectory at h
  simp only at h
  split at h
  · cases h
  · rename_i h4
    have hpdpt := T.kern_child T.layout.kern_root (decode_upper (l := 3) h4 (by decide))
    split at h
    · cases h
    · rename_i h3
      cases h
      exact T.kern_child hpdpt (decode_upper (l := 2) h3 (by decide))

theorem Tables.kern_pageTable (T : Tables m kern tag) {virt pt : Word} (h : m.pageTable kern virt = some pt) :
    tag pt = some (kern, [pml4Index virt, pdptIndex virt, pdIndex virt]) := by
  unfold pageTable at h
  split at h
  · cases h
  · rename_i pd hpd
    simp only at h
    split at h
    · cases h
    · rename_i h2
      split at h
      · cases h
      · rename_i hplain
        cases h
        exact T.kern_child (T.kern_pageDirectory hpd) (decode_small (l := 1) h2 (not_not.1 hplain) (by decide))

theorem Tables.kern_splitHugePageGlobal (T : Tables m kern tag) (virt : Word) :
    ∃ tag', KernBuilds kern 0 m tag (m.splitHugePageGlobal kern virt).1 tag' ∧
      KernPages id kern m tag (m.splitHugePageGlobal kern virt).1 tag' := by
  have hcons := Consumes.allocPtFrame m
  unfold Memory.splitHugePageGlobal
  split
  · exact ⟨tag, .refl T, .refl kern m tag⟩
  · rename_i pd hpd
    have hpd := T.kern_pageDirectory hpd
    simp only
    split
    · exact ⟨tag, .refl T, .refl kern m tag⟩
    · rename_i hpresent
      split
      · exact ⟨tag, .refl T, .refl kern m tag⟩
      · rename_i hhuge
        split
        · rename_i m₁ halloc
          rw [allocPtFrame_eq_none halloc]
          exact ⟨tag, .refl T, .refl kern m tag⟩
        · rename_i m₁ pt halloc
          rw [halloc] at hcons
          obtain ⟨T₁, hfresh, hram⟩ := T.allocPtFrame halloc
          have hslot : ∀ d, m₁.links (3 - [pml4Index virt, pdptIndex virt].length) pd (pdIndex virt) ≠ .table d := by
            intro d
            unfold links
            rw [hram]
            exact fun h => by cases (decode_huge hpresent hhuge).symm.trans h
          have hlink := pointsTo_boot hfresh.reserved.addr
          have hb : KernBuilds kern 0 m₁ tag
              ((m₁.setFrame pt (splitEntry (m.ram pd (pdIndex virt)))).writeEntry pd (pdIndex virt) _) _ :=
            kernBuilds_adopt T₁ hpd (by simp) hfresh hslot hlink (Or.inr rfl)
              fun _ hs => ⟨and_or_user (and_or_user (and_and_user (by decide)) (by decide)) (by decide),
                splitEntry_user (by rw [← hram]; exact hs _ hpd)⟩
          have hpages : KernPages id kern m tag
              ((m₁.setFrame pt (splitEntry (m.ram pd (pdIndex virt)))).writeEntry pd (pdIndex virt) _) _ :=
            ⟨fun ha => ha.adopt hpd hram hfresh.untagged hlink (Or.inr rfl), fun ha => funext fun v =>
              T.translateAddress_adopt hpd (by simp) hram hfresh.untagged hlink
                (Or.inr ⟨rfl, hpresent, hhuge, ha _ _ _ hpd rfl hpresent hhuge, rfl⟩) v⟩
          exact ⟨_, hb.after_alloc hcons hram, hpages⟩

theorem Tables.kern_unmapPage (T : Tables m kern tag) {virt : Word} {ok : Bool} (h : m.unmapPage kern virt = (m', ok)) :
    KernBuilds kern 0 m tag m' tag ∧
      KernPages (fun t => if ok = true then setPage t virt 0 else t) kern m tag m' tag := by
  unfold unmapPage at h
  split at h
  · cases h
    exact ⟨.refl T, .refl kern m tag⟩
  · rename_i pt hpt
    cases h
    have hpt := T.kern_pageTable hpt
    exact ⟨T.kern_writePage hpt rfl fun _ _ => by decide, T.kern_pageWritten hpt⟩

theorem Tables.kern_remapPageFlags (T : Tables m kern tag) {virt newFlags : Word} {ok : Bool}
    (h : m.remapPageFlags kern virt newFlags = (m', ok)) :
    KernBuilds kern newFlags m tag m' tag ∧ ∃ old,
      KernPages (fun t => if ok = true then setPage t virt (old &&& pteAddrMask ||| newFlags &&& ~~~pteHugePage) else t)
        kern m tag m' tag ∧
      (ok = true → ∀ v, pageNumber v = pageNumber virt →
        m.translateAddress kern v = some (old &&& pteAddrMask ||| v &&& 0xFFF#64)) := by
  unfold remapPageFlags at h
  split at h
  · cases h
    exact ⟨.refl T, 0, .refl kern m tag, nofun⟩
  · rename_i pt hpt
    simp only at h
    split at h
    · cases h
      exact ⟨.refl T, 0, .refl kern m tag, nofun⟩
    · rename_i hpresent
      cases h
      have hpt := T.kern_pageTable hpt
      refine ⟨T.kern_writePage hpt rfl fun hflags _ => (pageEntry_user _ newFlags).trans hflags,
        m.ram pt (ptIndex virt), T.kern_pageWritten hpt, fun _ v hv => ?_⟩
      have hself := T.translateAddress_writePage (e := m.ram pt (ptIndex virt)) hpt
      rw [writeEntry_self] at hself
      rw [hself, setPage, if_pos hv, if_neg hpresent]

/-- An absent entry of a page directory gets a 2 MB page. -/
theorem Tables.kern_fill (T : Tables m kern tag) (hf₀ : tag f₀ = some (kern, p₀)) (htwo : p₀.length = 2) {e : Word}
    (habsent : m.ram f₀ i₀ &&& ptePresent = 0) (hhuge : e &&& pteHugePage ≠ 0)
    (he : flags &&& pteUser = 0 → e &&& pteUser = 0) : KernBuilds kern flags m tag (m.writeEntry f₀ i₀ e) tag := by
  have hsame : ∀ f j, ¬ (f = f₀ ∧ j = i₀) → (m.writeEntry f₀ i₀ e).ram f j = m.ram f j := by
    intro f j hhere
    rw [writeEntry_ram, if_neg hhere]
  have hnot : ∀ c, (m.writeEntry f₀ i₀ e).links (3 - p₀.length) f₀ i₀ ≠ .table c := by
    intro c hc
    unfold links at hc
    rw [writeEntry_ram, if_pos ⟨rfl, rfl⟩, htwo] at hc
    exact (decode_eq_table hc).2.1 (Or.inr ⟨rfl, hhuge⟩)
  refine ⟨⟨T.layout.fill hf₀ (decode_absent habsent _) hnot fun f o p _ j hhere => ?_, T.addr, ?_, T.free,
    fun hq => ⟨(T.pool hq).1, (T.pool hq).2.consumes (.writeEntry _ _ _ _)⟩, T.pool_nodup⟩, .writeEntry _ _ _ _,
    .refl kern tag, supervisor_write fun hflags _ => he hflags⟩
  · unfold links
    rw [hsame f j hhere]
  · intro f o p j hf hp hpresent
    have hhere : ¬ (f = f₀ ∧ j = i₀) := by
      rintro ⟨rfl, -⟩
      rw [hf₀] at hf
      cases hf
      omega
    rw [hsame f j hhere] at hpresent ⊢
    exact T.plain j hf hp hpresent

end Kern

/-! ### The first phase: tables from the bump allocator -/

/-- Before the global allocators are set up: the tables lie below the heap, except for the kernel's PML4, which is a
static outside of it. -/
structure Booting (m : Memory) (alloc : PhysicalAllocator) (kern : Word) (tag : Tags) : Prop where
  tables : Tables m kern tag
  no_free : ∀ idx, m.isFree idx = false
  no_pool : m.ptPool = []
  below : ∀ {f t}, tag f = some t → f = kern ∨ f.toNat < alloc.heapStart
  outside : alloc.heapStart ≤ kern.toNat → alloc.heapStart + alloc.heapRemaining ≤ kern.toNat
  aligned : alloc.heapStart % 4096 = 0
  end_le : alloc.heapStart + alloc.heapRemaining ≤ 2 ^ 52

section Booting

variable {m m' : Memory} {alloc alloc' : PhysicalAllocator} {kern flags : Word} {tag tag' : Tags}

/-- The tables change, the allocator does not. -/
theorem Booting.builds (B : Booting m alloc kern tag) (hb : KernBuilds kern flags m tag m' tag) :
    Booting m' alloc kern tag where
  tables := hb.tables
  no_free idx := hb.consumes.not_free (B.no_free idx)
  no_pool := by
    have := hb.consumes.ptPool
    rw [B.no_pool] at this
    exact List.suffix_nil.1 this
  below := B.below
  outside := B.outside
  aligned := B.aligned
  end_le := B.end_le

/-- Empty tables have been added: every way of the kernel leads where it led, and what is no table is as it was. -/
structure KernKeeps (kern : Word) (m m' : Memory) (tag' : Tags) : Prop where
  resolve : ∀ v, resolve m'.links (pathOf v) kern = resolve m.links (pathOf v) kern
  data : ∀ f, tag' f = none → ∀ j, m'.ram f j = m.ram f j

theorem KernKeeps.refl (kern : Word) (m : Memory) (tag : Tags) : KernKeeps kern m m tag := ⟨fun _ => rfl, fun _ _ _ => rfl⟩

theorem KernKeeps.trans {m₁ m₂ : Memory} {tag₁ tag₂ : Tags} (h : KernKeeps kern m m₁ tag₁) (hg : Grows kern tag₁ tag₂)
    (h' : KernKeeps kern m₁ m₂ tag₂) : KernKeeps kern m m₂ tag₂ := by
  refine ⟨fun v => (h'.resolve v).trans (h.resolve v), fun f hf j => (h'.data f hf j).trans (h.data f ?_ j)⟩
  cases hf₁ : tag₁ f with
  | none => rfl
  | some t =>
    rw [hg.keeps hf₁] at hf
    cases hf

/-- An empty table behind an absent entry. -/
private theorem kernKeeps_adopt (T : Tables m kern tag) {f₀ c e : Word} {p₀ : List (Fin 512)} {i₀ : Fin 512}
    (hf₀ : tag f₀ = some (kern, p₀)) (hp₀ : p₀.length < 3) (hc : tag c = none) (habsent : m.ram f₀ i₀ &&& ptePresent = 0)
    (he : PointsTo e c) :
    KernKeeps kern m ((m.setFrame c fun _ => 0).writeEntry f₀ i₀ e) (setTag tag c (kern, p₀ ++ [i₀])) := by
  refine ⟨T.resolve_adopt hf₀ hp₀ rfl hc habsent he T.layout.kern_root, fun f hf j => ?_⟩
  have hfc : f ≠ c := by
    rintro rfl
    rw [Layout.setTag_self] at hf
    cases hf
  have hff₀ : f ≠ f₀ := by
    rintro rfl
    rw [Layout.setTag_of_ne _ hfc, hf₀] at hf
    cases hf
  rw [writeEntry_ram, if_neg fun h => hff₀ h.1]
  exact if_neg hfc

/-- The table behind a slot that is no 2 MB page, built or found. -/
theorem Booting.ensureTable (B : Booting m alloc kern tag) (flags : Word) {f : Word} {p : List (Fin 512)} {i : Fin 512}
    (hf : tag f = some (kern, p)) (hp : p.length < 3)
    (hplain : p.length = 2 → m.ram f i &&& ptePresent ≠ 0 → m.ram f i &&& pteHugePage = 0) {r : Option Word}
    (h : m.ensureTable alloc f i = (m', alloc', r)) :
    ∃ tag', Booting m' alloc' kern tag' ∧ KernBuilds kern flags m tag m' tag' ∧ KernKeeps kern m m' tag' ∧
      (∀ g t, tag' g = some t → tag g = some t ∨ t = (kern, p ++ [i])) ∧
      ∀ c, r = some c → tag' c = some (kern, p ++ [i]) := by
  unfold Memory.ensureTable allocTable PhysicalAllocator.allocate at h
  simp only at h
  by_cases habsent : m.ram f i &&& ptePresent = 0
  · rw [if_pos habsent] at h
    by_cases hfull : alloc.heapRemaining < (4096 + 4095) / 4096 * 4096
    · rw [if_pos hfull] at h
      cases h
      exact ⟨tag, B, .refl B.tables, .refl kern _ tag, fun _ _ hg => Or.inl hg, fun c hc => by cases hc⟩
    · rw [if_neg hfull] at h
      simp only [Prod.mk.injEq] at h
      obtain ⟨rfl, rfl, rfl⟩ := h
      have hend := B.end_le
      have haligned := B.aligned
      have hroom : 4096 ≤ alloc.heapRemaining := by omega
      have hto : (BitVec.ofNat 64 alloc.heapStart).toNat = alloc.heapStart := by
        rw [BitVec.toNat_ofNat]
        omega
      have hfresh : m.Fresh tag (BitVec.ofNat 64 alloc.heapStart) := by
        refine ⟨?_, ⟨isTableAddr_of_toNat ?_ ?_, fun idx _ _ => B.no_free idx⟩, ?_⟩
        · cases htag : tag (BitVec.ofNat 64 alloc.heapStart) with
          | none => rfl
          | some t =>
            exfalso
            rcases B.below htag with heq | hlt
            · have hout := B.outside
              rw [← heq, hto] at hout
              have := hout (Nat.le_refl _)
              omega
            · rw [hto] at hlt
              exact Nat.lt_irrefl _ hlt
        · rw [hto]
          exact haligned
        · rw [hto]
          omega
        · rw [B.no_pool]
          exact List.not_mem_nil
      have hslot : ∀ d, m.links (3 - p.length) f i ≠ .table d := by
        intro d
        unfold links
        rw [decode_absent habsent]
        exact fun h => by cases h
      have hlink := pointsTo_boot hfresh.reserved.addr
      have hb : KernBuilds kern flags m tag ((m.setFrame (BitVec.ofNat 64 alloc.heapStart) fun _ => 0).writeEntry f i _) _ :=
        kernBuilds_adopt B.tables hf (by omega) hfresh hslot hlink (Or.inl fun _ => rfl)
          fun _ _ => ⟨and_or_user (and_or_user (and_and_user (by decide)) (by decide)) (by decide), fun _ => by decide⟩
      refine ⟨_, ⟨hb.tables, fun idx => hb.consumes.not_free (B.no_free idx), B.no_pool, ?_, ?_, ?_, ?_⟩, hb,
        kernKeeps_adopt B.tables hf hp hfresh.untagged habsent hlink, ?_, ?_⟩
      · intro g t hg
        simp only
        rcases Layout.setTag_eq_some hg with ⟨rfl, -⟩ | ⟨-, hg⟩
        · rw [hto]
          exact Or.inr (by omega)
        · rcases B.below hg with heq | hlt
          · exact Or.inl heq
          · exact Or.inr (by omega)
      · have hout := B.outside
        simp only
        omega
      · simp only
        omega
      · simp only
        omega
      · intro g t hg
        rcases Layout.setTag_eq_some hg with ⟨-, rfl⟩ | ⟨-, hg⟩
        · exact Or.inr rfl
        · exact Or.inl hg
      · intro c hc
        cases hc
        rw [hlink.addr]
        exact Layout.setTag_self _ _ _
  · rw [if_neg habsent] at h
    cases h
    refine ⟨tag, B, .refl B.tables, .refl kern _ tag, fun _ _ hg => Or.inl hg, fun c hc => ?_⟩
    cases hc
    refine B.tables.kern_child hf ?_
    by_cases htwo : p.length = 2
    · exact decode_small habsent (hplain htwo habsent) (by omega)
    · exact decode_upper habsent (by omega)

theorem huge_or (w flags : Word) : (w ||| flags ||| pteHugePage) &&& pteHugePage ≠ 0 := by
  intro h
  have hbit : ((w ||| flags ||| pteHugePage) &&& pteHugePage).getLsbD 7 = true := by
    rw [BitVec.getLsbD_and, BitVec.getLsbD_or, show pteHugePage.getLsbD 7 = true from by decide, Bool.or_true]
    rfl
  rw [h] at hbit
  cases hbit

/-- What one round of the loop does: first it adds empty tables, then the entry of the page directory, if it is absent,
gets its 2 MB page. -/
theorem Booting.identityMapPage (B : Booting m alloc kern tag) (flags addr : Word) {ok : Bool}
    (h : Memory.identityMapPage kern flags addr (m, alloc) = ((m', alloc'), ok)) :
    ∃ m₁ tag', Booting m₁ alloc' kern tag' ∧ KernBuilds kern flags m tag m₁ tag' ∧ KernKeeps kern m m₁ tag' ∧
      (∀ g t, tag' g = some t → tag g = some t ∨ t.2.length ≤ 2) ∧
      (ok = false ∧ m' = m₁ ∨ ok = true ∧ ∃ pd, tag' pd = some (kern, [pml4Index addr, pdptIndex addr]) ∧
        (m₁.ram pd (pdIndex addr) &&& ptePresent ≠ 0 ∧ m' = m₁ ∨ m₁.ram pd (pdIndex addr) &&& ptePresent = 0 ∧
          m' = m₁.writeEntry pd (pdIndex addr) (addr &&& pteHugeAddrMask ||| flags ||| pteHugePage))) := by
  unfold Memory.identityMapPage at h
  simp only at h
  split at h
  · rename_i m₁ alloc₁ h₁
    cases h
    obtain ⟨tag₁, B₁, hb₁, hk₁, hnew₁, -⟩ := B.ensureTable flags B.tables.layout.kern_root (by decide) nofun h₁
    exact ⟨_, tag₁, B₁, hb₁, hk₁, fun g t hg => (hnew₁ g t hg).imp_right fun ht => by simp [ht], Or.inl ⟨rfl, rfl⟩⟩
  · rename_i m₁ alloc₁ pdpt h₁
    obtain ⟨tag₁, B₁, hb₁, hk₁, hnew₁, hpdpt⟩ := B.ensureTable flags B.tables.layout.kern_root (by decide) nofun h₁
    split at h
    · rename_i m₂ alloc₂ h₂
      cases h
      obtain ⟨tag₂, B₂, hb₂, hk₂, hnew₂, -⟩ := B₁.ensureTable flags (hpdpt pdpt rfl) (by simp) (by simp) h₂
      refine ⟨_, tag₂, B₂, hb₁.trans hb₂, hk₁.trans hb₂.grows hk₂, fun g t hg => ?_, Or.inl ⟨rfl, rfl⟩⟩
      rcases hnew₂ g t hg with hg₁ | rfl
      · exact (hnew₁ g t hg₁).imp_right fun ht => by simp [ht]
      · exact Or.inr (by simp)
    · rename_i m₂ alloc₂ pd h₂
      obtain ⟨tag₂, B₂, hb₂, hk₂, hnew₂, hpd⟩ := B₁.ensureTable flags (hpdpt pdpt rfl) (by simp) (by simp) h₂
      refine ⟨m₂, tag₂, ?_⟩
      have hnew : ∀ g t, tag₂ g = some t → tag g = some t ∨ t.2.length ≤ 2 := by
        intro g t hg
        rcases hnew₂ g t hg with hg₁ | rfl
        · exact (hnew₁ g t hg₁).imp_right fun ht => by simp [ht]
        · exact Or.inr (by simp)
      split at h
      · rename_i habsent
        cases h
        exact ⟨B₂, hb₁.trans hb₂, hk₁.trans hb₂.grows hk₂, hnew, Or.inr ⟨rfl, pd, hpd pd rfl, Or.inr ⟨habsent, rfl⟩⟩⟩
      · rename_i hpresent
        cases h
        exact ⟨B₂, hb₁.trans hb₂, hk₁.trans hb₂.grows hk₂, hnew, Or.inr ⟨rfl, pd, hpd pd rfl, Or.inl ⟨hpresent, rfl⟩⟩⟩

/-- The 2 MB page that the loop writes. -/
theorem Booting.writeHuge (B : Booting m alloc kern tag) (flags addr : Word) {pd : Word}
    (hpd : tag pd = some (kern, [pml4Index addr, pdptIndex addr])) (habsent : m.ram pd (pdIndex addr) &&& ptePresent = 0) :
    KernBuilds kern flags m tag
      (m.writeEntry pd (pdIndex addr) (addr &&& pteHugeAddrMask ||| flags ||| pteHugePage)) tag :=
  B.tables.kern_fill hpd (by simp) habsent (huge_or _ _)
    fun hflags => and_or_user (and_or_user (and_and_user (by decide)) hflags) (by decide)

/-- One round keeps the tables. -/
theorem Booting.after_page (B : Booting m alloc kern tag) (flags addr : Word) {ok : Bool}
    (h : Memory.identityMapPage kern flags addr (m, alloc) = ((m', alloc'), ok)) :
    ∃ tag', Booting m' alloc' kern tag' ∧ KernBuilds kern flags m tag m' tag' := by
  obtain ⟨m₁, tag', B₁, hb₁, -, -, hcases⟩ := B.identityMapPage flags addr h
  rcases hcases with ⟨-, rfl⟩ | ⟨-, pd, hpd, ⟨-, rfl⟩ | ⟨habsent, rfl⟩⟩
  · exact ⟨tag', B₁, hb₁⟩
  · exact ⟨tag', B₁, hb₁⟩
  · have hfill := B₁.writeHuge flags addr hpd habsent
    exact ⟨tag', B₁.builds hfill, hb₁.trans hfill⟩

theorem Booting.identityMapLoop (B : Booting m alloc kern tag) (flags : Word) (count : Nat) (addr : Word) :
    ∃ tag', Booting (Memory.identityMapLoop kern flags count addr (m, alloc)).1
      (Memory.identityMapLoop kern flags count addr (m, alloc)).2 kern tag' ∧
      KernBuilds kern flags m tag (Memory.identityMapLoop kern flags count addr (m, alloc)).1 tag' := by
  induction count generalizing m alloc tag addr with
  | zero => exact ⟨tag, B, .refl B.tables⟩
  | succ count ih =>
    rw [identityMapLoop_succ]
    rcases hpage : Memory.identityMapPage kern flags addr (m, alloc) with ⟨⟨m₁, alloc₁⟩, ok⟩
    obtain ⟨tag₁, B₁, hb₁⟩ := B.after_page flags addr hpage
    cases ok with
    | false => exact ⟨tag₁, B₁, hb₁⟩
    | true =>
      obtain ⟨tag', B', hb'⟩ := ih B₁ (addr + hugePageSize)
      exact ⟨tag', B', hb₁.trans hb'⟩

end Booting

/-! ### The second phase: the global allocators -/

section Init

variable {m m' : Memory} {kern : Word} {tag : Tags}

theorem initGlobalAllocator_isFree_of_lt {region : AllocRegion} {idx : Nat} (h : idx < region.size / pageSize)
    (hlt : idx < maxTrackedFrames) : (m.initGlobalAllocator region).isFree idx = true :=
  (Bitmap.test_foldl_set Bitmap.empty _ idx).2 (Or.inr (List.mem_range.2 (Nat.lt_min.2 ⟨h, hlt⟩)))

theorem initGlobalAllocator_isFree {region : AllocRegion} {idx : Nat}
    (h : (m.initGlobalAllocator region).isFree idx = true) : idx < region.size / pageSize := by
  have hmem := (Bitmap.test_foldl_set Bitmap.empty _ idx).1 h
  rw [Bitmap.test_empty] at hmem
  rcases hmem with hempty | hmem
  · cases hempty
  · exact Nat.lt_of_lt_of_le (List.mem_range.1 hmem) (Nat.min_le_left _ _)

/-- The heap above the kernel's tables is handed to the bitmap. -/
theorem Booting.initGlobalAllocator {alloc : PhysicalAllocator} (B : Booting m alloc kern tag) {region : AllocRegion}
    (hbase : region.base = alloc.currentBase) (hsize : region.size ≤ alloc.heapRemaining) :
    Tables (m.initGlobalAllocator region) kern tag where
  layout := B.tables.layout
  addr := B.tables.addr
  plain := B.tables.plain
  free {idx} hlt hfree := by
    have hidx := initGlobalAllocator_isFree hfree
    have hto := (m.initGlobalAllocator region).toNat_frameAddr hlt
    have hto' : ((m.initGlobalAllocator region).frameAddr idx).toNat = alloc.heapStart + idx * 4096 := by
      rw [hto, show (m.initGlobalAllocator region).region.base = alloc.heapStart from hbase]
      rfl
    have hroom : idx * 4096 < alloc.heapRemaining := by
      unfold pageSize at hidx
      omega
    cases htag : tag ((m.initGlobalAllocator region).frameAddr idx) with
    | none => rfl
    | some t =>
      exfalso
      rcases B.below htag with heq | hbelow
      · have hout := B.outside
        rw [← heq, hto'] at hout
        omega
      · omega
  pool hmem := by
    rw [show (m.initGlobalAllocator region).ptPool = m.ptPool from rfl, B.no_pool] at hmem
    cases hmem
  pool_nodup := by
    rw [show (m.initGlobalAllocator region).ptPool = m.ptPool from rfl, B.no_pool]
    exact List.nodup_nil

theorem poolFill_consumes (count : Nat) (m : Memory) (filled : List Word) :
    Consumes m (Memory.poolFill count m filled).1 ∧ (Memory.poolFill count m filled).1.ram = m.ram := by
  induction count generalizing m filled with
  | zero => exact ⟨.refl m, rfl⟩
  | succ count ih =>
    have hcons := Consumes.globalAlloc4k m
    unfold Memory.poolFill
    split
    · rename_i m₁ halloc
      rw [globalAlloc4k_eq_none halloc]
      exact ⟨.refl m, rfl⟩
    · rename_i m₁ p halloc
      rw [halloc] at hcons
      obtain ⟨hcons', hram'⟩ := ih m₁ (p :: filled)
      exact ⟨hcons.trans hcons', hram'.trans (globalAlloc4k_ram halloc)⟩

/-- The loop of `pool_init` collects frames that have been handed out, each once. -/
theorem Tables.poolFill (T : Tables m kern tag) (hpool : m.ptPool = []) (count : Nat) {filled : List Word}
    (hfilled : ∀ p ∈ filled, m.Fresh tag p) (hnodup : filled.Nodup) :
    Tables (Memory.poolFill count m filled).1 kern tag ∧
      (∀ p ∈ (Memory.poolFill count m filled).2, (Memory.poolFill count m filled).1.Fresh tag p) ∧
      (Memory.poolFill count m filled).2.Nodup := by
  induction count generalizing m filled with
  | zero => exact ⟨T, hfilled, hnodup⟩
  | succ count ih =>
    have hcons := Consumes.globalAlloc4k m
    unfold Memory.poolFill
    split
    · rename_i m₁ halloc
      rw [globalAlloc4k_eq_none halloc]
      exact ⟨T, hfilled, hnodup⟩
    · rename_i m₁ p halloc
      rw [halloc] at hcons
      obtain ⟨T₁, hfresh, -⟩ := T.globalAlloc4k halloc
      have hpool₁ : m₁.ptPool = [] := by
        have := hcons.ptPool
        rw [hpool] at this
        exact List.suffix_nil.1 this
      have hnew : p ∉ filled := fun hmem => not_reserved_of_globalAlloc4k halloc (hfilled p hmem).reserved
      have hfilled₁ : ∀ q ∈ p :: filled, m₁.Fresh tag q := by
        intro q hq
        rcases List.mem_cons.1 hq with rfl | hq
        · exact hfresh
        · exact (hfilled q hq).consumes hcons
      exact ih T₁ hpool₁ hfilled₁ (List.nodup_cons.2 ⟨hnew, hnodup⟩)

/-- The allocator is first fit: of a run of free frames it takes the first at most. -/
private theorem globalAlloc4k_isFree {a b : Nat} (hfree : ∀ i, a ≤ i → i < b → m.isFree i = true) {i : Nat}
    (hi : a < i) (hb : i < b) : m.globalAlloc4k.1.isFree i = true := by
  unfold Memory.globalAlloc4k
  cases hfind : m.freeBitmap.findFirst (maxTrackedFrames / 64) with
  | none => exact hfree i (by omega) hb
  | some idx =>
    obtain ⟨-, -, hleast⟩ := Bitmap.findFirst_eq_some hfind
    simp only
    split
    · exact hfree i (by omega) hb
    · have hidx : ¬ a < idx := by
        intro hlt
        have hnot := hleast a hlt
        rw [show m.freeBitmap.test a = m.isFree a from rfl, hfree a (Nat.le_refl _) (by omega)] at hnot
        cases hnot
      rw [frameTag_isFree, show ∀ t, ({ m with freeBitmap := m.freeBitmap.clear idx } : Memory).isFree t =
        (m.freeBitmap.clear idx).test t from fun _ => rfl, Bitmap.test_clear,
        show m.freeBitmap.test i = m.isFree i from rfl, hfree i (by omega) hb, decide_eq_false (by omega)]
      rfl

/-- The pool takes the first frames of a run. -/
theorem poolFill_isFree {count a b : Nat} {filled : List Word} (hfree : ∀ i, a ≤ i → i < b → m.isFree i = true)
    {i : Nat} (hi : a + count ≤ i) (hb : i < b) : (Memory.poolFill count m filled).1.isFree i = true := by
  induction count generalizing m a filled with
  | zero => exact hfree i hi hb
  | succ count ih =>
    have hnext : ∀ j, a + 1 ≤ j → j < b → m.globalAlloc4k.1.isFree j = true :=
      fun j hj hjb => globalAlloc4k_isFree hfree hj hjb
    unfold Memory.poolFill
    split
    · rename_i m₁ halloc
      rw [globalAlloc4k_eq_none halloc]
      exact hfree i (by omega) hb
    · rename_i m₁ p halloc
      rw [halloc] at hnext
      exact ih hnext (by omega)

/-- Filling the pool takes frames out of the bitmap. -/
theorem poolInit_bitmap (m : Memory) (count : Nat) :
    (m.poolInit count).1.region = m.region ∧ (m.poolInit count).1.ram = m.ram ∧
      ∀ {a b}, (∀ i, a ≤ i → i < b → m.isFree i = true) → ∀ {i}, a + min count ptPoolCap ≤ i → i < b →
        (m.poolInit count).1.isFree i = true := by
  obtain ⟨hcons, hram⟩ := poolFill_consumes (min count ptPoolCap) m []
  exact ⟨hcons.region, hram, fun hfree _ hi hb => poolFill_isFree hfree hi hb⟩

theorem Tables.poolInit (T : Tables m kern tag) (hpool : m.ptPool = []) (count : Nat) :
    Tables (m.poolInit count).1 kern tag ∧ (m.poolInit count).1.ram = m.ram := by
  obtain ⟨T', hfresh, hnodup⟩ := T.poolFill hpool (min count ptPoolCap)
    (fun p (hp : p ∈ []) => by cases hp) List.nodup_nil
  have hram := (m.poolInit_bitmap count).2.1
  refine ⟨⟨T'.layout, T'.addr, T'.plain, T'.free, fun hp => ?_, hnodup⟩, hram⟩
  exact ⟨(hfresh _ hp).untagged, (hfresh _ hp).reserved.addr, (hfresh _ hp).reserved.not_free⟩

end Init

/-! ### Boot -/

/-- The state in which the kernel starts to build its page tables: a zeroed PML4 outside the heap, and allocators that
have not been set up. -/
structure BootStart (kern : Word) (m : Memory) (alloc : PhysicalAllocator) : Prop where
  addr : IsTableAddr kern
  zero : ∀ j, m.ram kern j = 0
  no_free : ∀ idx, m.isFree idx = false
  no_pool : m.ptPool = []
  aligned : alloc.heapStart % 4096 = 0
  end_le : alloc.heapStart + alloc.heapRemaining ≤ 2 ^ 52
  outside : alloc.heapStart ≤ kern.toNat → alloc.heapStart + alloc.heapRemaining ≤ kern.toNat

/-- The loop over the memory map, with flags that are `allowed`. -/
inductive Mapped (allowed : Word → Prop) (kern : Word) : Memory → PhysicalAllocator → Prop
  | start {m : Memory} {alloc : PhysicalAllocator} (h : BootStart kern m alloc) : Mapped allowed kern m alloc
  | region {m : Memory} {alloc : PhysicalAllocator} (h : Mapped allowed kern m alloc) (physBase size flags : Word)
      (hflags : allowed flags) : Mapped allowed kern (m.identityMapRegion alloc kern physBase size flags).1
        (m.identityMapRegion alloc kern physBase size flags).2

/-- The memory of a booted kernel: all but the last megabyte of the heap goes to the global allocators, then the
kernel's pages are changed one by one. -/
inductive Booted (allowed : Word → Prop) (kern : Word) : Memory → Prop
  | init {m : Memory} {alloc : PhysicalAllocator} {region : AllocRegion} (h : Mapped allowed kern m alloc)
      (hbase : region.base = alloc.currentBase) (hsize : region.size = alloc.heapRemaining - 0x100000) :
      Booted allowed kern ((m.initGlobalAllocator region).poolInit ptPoolCap).1
  | split {m : Memory} (h : Booted allowed kern m) (virt : Word) : Booted allowed kern (m.splitHugePageGlobal kern virt).1
  | map {m : Memory} (h : Booted allowed kern m) (virt phys flags : Word) (hflags : allowed flags) :
      Booted allowed kern (m.mapPageGlobal kern virt phys flags).1
  | unmap {m : Memory} (h : Booted allowed kern m) (virt : Word) : Booted allowed kern (m.unmapPage kern virt).1
  | remap {m : Memory} (h : Booted allowed kern m) (virt flags : Word) (hflags : allowed flags) :
      Booted allowed kern (m.remapPageFlags kern virt flags).1

section Boot

variable {allowed : Word → Prop} {kern : Word} {m : Memory} {alloc : PhysicalAllocator}

/-- The tag of the kernel's PML4, and no other. -/
def bootTag (kern : Word) : Tags := setTag (fun _ => none) kern (kern, [])

theorem bootTag_eq_some {f : Word} {t : Word × List (Fin 512)} (h : bootTag kern f = some t) :
    f = kern ∧ t = (kern, []) := by
  rcases Layout.setTag_eq_some h with heq | ⟨-, hf⟩
  · exact heq
  · cases hf

theorem BootStart.booting (h : BootStart kern m alloc) : Booting m alloc kern (bootTag kern) := by
  have hnone : ∀ j, m.links 3 kern j = .none := by
    intro j
    unfold links
    rw [h.zero j, decode_zero]
  refine ⟨⟨⟨Layout.setTag_self _ _ _, ?_, ?_, ?_, ?_, ?_⟩, ?_, ?_, ?_, ?_, ?_⟩, h.no_free, h.no_pool, ?_, h.outside,
    h.aligned, h.end_le⟩
  · intro f o hf
    obtain ⟨rfl, heq⟩ := bootTag_eq_some hf
    exact (Prod.mk.inj heq).1.symm
  · intro f o p hf
    obtain ⟨-, heq⟩ := bootTag_eq_some hf
    rw [(Prod.mk.inj heq).2]
    exact Nat.zero_le _
  · intro f o p j hf
    obtain ⟨-, heq⟩ := bootTag_eq_some hf
    simp at heq
  · intro f o p j c hf hc
    obtain ⟨rfl, heq⟩ := bootTag_eq_some hf
    cases heq
    rw [List.length_nil, Nat.sub_zero, hnone j] at hc
    cases hc
  · intro f o p j v hf ho
    obtain ⟨-, heq⟩ := bootTag_eq_some hf
    exact absurd (Prod.mk.inj heq).1 ho
  · intro f t hf
    rw [(bootTag_eq_some hf).1]
    exact h.addr
  · intro f o p j hf _ hpresent
    rw [(bootTag_eq_some hf).1, h.zero j] at hpresent
    exact absurd (by decide) hpresent
  · intro idx _ hfree
    rw [h.no_free idx] at hfree
    cases hfree
  · intro p hp
    rw [h.no_pool] at hp
    cases hp
  · rw [h.no_pool]
    exact List.nodup_nil
  · intro f t hf
    exact Or.inl (bootTag_eq_some hf).1

/-- The tables belong to the kernel, and are closed to user mode if all the flags are. -/
structure KernOnly (allowed : Word → Prop) (kern : Word) (m : Memory) (tag : Tags) : Prop where
  only : ∀ {f t}, tag f = some t → t.1 = kern
  supervisor : (∀ flags, allowed flags → flags &&& pteUser = 0) → Supervisor m kern tag

theorem KernOnly.builds {m' : Memory} {tag tag' : Tags} {flags : Word} (h : KernOnly allowed kern m tag)
    (hb : KernBuilds kern flags m tag m' tag') (hflags : allowed flags ∨ flags = 0) :
    KernOnly allowed kern m' tag' := by
  refine ⟨fun hf => ?_, fun hall => hb.supervisor ?_ (h.supervisor hall)⟩
  · rcases hb.grows.new hf with hold | hnew
    · exact h.only hold
    · exact hnew
  · rcases hflags with hok | rfl
    · exact hall flags hok
    · decide

theorem Mapped.booting (h : Mapped allowed kern m alloc) :
    ∃ tag, Booting m alloc kern tag ∧ KernOnly allowed kern m tag := by
  induction h with
  | start h =>
    refine ⟨_, h.booting, fun hf => by rw [(bootTag_eq_some hf).2], fun _ f p j hf => ?_⟩
    rw [(bootTag_eq_some hf).1, h.zero j]
    decide
  | region h physBase size flags hflags ih =>
    obtain ⟨tag, B, hk⟩ := ih
    obtain ⟨tag', B', hb⟩ := B.identityMapLoop flags _ _
    exact ⟨tag', B', hk.builds hb (Or.inl hflags)⟩

/-- The page tables of a booted kernel form a layout of its own tables. -/
theorem Booted.tables (h : Booted allowed kern m) : ∃ tag, Tables m kern tag ∧ KernOnly allowed kern m tag := by
  induction h with
  | init h hbase hsize =>
    obtain ⟨tag, B, hk⟩ := h.booting
    obtain ⟨T, hram⟩ := (B.initGlobalAllocator hbase (by omega)).poolInit B.no_pool ptPoolCap
    refine ⟨tag, T, hk.only, fun hall f p j hf => ?_⟩
    rw [hram]
    exact hk.supervisor hall j hf
  | split h virt ih =>
    obtain ⟨tag, T, hk⟩ := ih
    obtain ⟨tag', hb, -⟩ := T.kern_splitHugePageGlobal virt
    exact ⟨tag', hb.tables, hk.builds hb (Or.inr rfl)⟩
  | map h virt phys flags hflags ih =>
    obtain ⟨tag, T, hk⟩ := ih
    obtain ⟨tag', hb, -⟩ := T.kern_mapPageGlobal (rfl : Memory.mapPageGlobal _ kern virt phys flags = (_, _))
    exact ⟨tag', hb.tables, hk.builds hb (Or.inl hflags)⟩
  | unmap h virt ih =>
    obtain ⟨tag, T, hk⟩ := ih
    obtain ⟨hb, -⟩ := T.kern_unmapPage (rfl : Memory.unmapPage _ kern virt = (_, _))
    exact ⟨tag, hb.tables, hk.builds hb (Or.inr rfl)⟩
  | remap h virt flags hflags ih =>
    obtain ⟨tag, T, hk⟩ := ih
    obtain ⟨hb, -⟩ := T.kern_remapPageFlags (rfl : Memory.remapPageFlags _ kern virt flags = (_, _))
    exact ⟨tag, hb.tables, hk.builds hb (Or.inl hflags)⟩

end Boot

end Memory

end Rost
