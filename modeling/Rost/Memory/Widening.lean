import Rost.Memory.Pages

/-!
# Mapping at any address

Nothing keeps the way of `map_page_global` from leading into tables that a PML4 shares with the kernel.  `Widens` is what
holds wherever the way leads: the layout is kept, tables stay where they are, and frames in use do not become tables.  The
function fails for want of a frame only, and then every PML4 translates as before; else the page is mapped
(`Tables.mapPageGlobal_any`).
-/

namespace Rost

open Lib (Link)
open Lib.TableTree (resolve descend Layout)
open Lib.TableTree.Layout (setTag)

namespace Memory

/-- Page tables have been built, for whatever owner. -/
structure Widens (kern : Word) (m : Memory) (tag : Tags) (m' : Memory) (tag' : Tags) : Prop where
  tables : Tables m' kern tag'
  consumes : Consumes m m'
  keeps : ∀ {f t}, tag f = some t → tag' f = some t
  spares : ∀ {f}, m.Fresh tag f → tag' f = none
  links : ∀ {f o p} j {c}, tag f = some (o, p) → m.links (3 - p.length) f j = .table c →
    m'.links (3 - p.length) f j = .table c

/-- What all ways of building page tables keep: tables stay tables, and frames in use do not become tables. -/
structure Extends (kern : Word) (m : Memory) (tag : Tags) (m' : Memory) (tag' : Tags) : Prop where
  tables : Tables m' kern tag'
  consumes : Consumes m m'
  keeps : ∀ {f t}, tag f = some t → tag' f = some t
  spares : ∀ {f}, m.Fresh tag f → tag' f = none

theorem Extends.fresh {kern : Word} {m m' : Memory} {tag tag' : Tags} (h : Extends kern m tag m' tag') {f : Word}
    (hf : m.Fresh tag f) : m'.Fresh tag' f :=
  ⟨h.spares hf, hf.reserved.consumes h.consumes, (hf.consumes h.consumes).not_pooled⟩

theorem Builds.extend {W : List (Fin 512) → Word → Prop} {kern o : Word} {m m' : Memory} {tag tag' : Tags}
    (h : Builds W kern o m tag m' tag') : Extends kern m tag m' tag' :=
  ⟨h.tables, h.consumes, h.grows.keeps, h.spares⟩

theorem Widens.extend {kern : Word} {m m' : Memory} {tag tag' : Tags} (h : Widens kern m tag m' tag') :
    Extends kern m tag m' tag' :=
  ⟨h.tables, h.consumes, h.keeps, h.spares⟩

/-- Every PML4 translates as before. -/
def SameMap (m : Memory) (tag : Tags) (m' : Memory) : Prop :=
  ∀ R, tag R = some (R, []) → ∀ v, m'.translateAddress R v = m.translateAddress R v

namespace Widens

variable {kern : Word} {m m₁ m₂ : Memory} {tag tag₁ tag₂ : Tags}

theorem refl (T : Tables m kern tag) : Widens kern m tag m tag := ⟨T, .refl m, fun h => h, Fresh.untagged, fun _ _ _ h => h⟩

theorem fresh (h : Widens kern m tag m₁ tag₁) {f : Word} (hf : m.Fresh tag f) : m₁.Fresh tag₁ f :=
  ⟨h.spares hf, hf.reserved.consumes h.consumes, (hf.consumes h.consumes).not_pooled⟩

theorem trans (h : Widens kern m tag m₁ tag₁) (h' : Widens kern m₁ tag₁ m₂ tag₂) : Widens kern m tag m₂ tag₂ where
  tables := h'.tables
  consumes := h.consumes.trans h'.consumes
  keeps hf := h'.keeps (h.keeps hf)
  spares hf := h'.spares (h.fresh hf)
  links j _ hf hc := h'.links j (h.keeps hf) (h.links j hf hc)

/-- Frames have been handed out, and the contents of frames that are no page tables have changed. -/
theorem of_data (T : Tables m kern tag) (hcons : Consumes m m₁)
    (hram : ∀ f t, tag f = some t → ∀ j, m₁.ram f j = m.ram f j) : Widens kern m tag m₁ tag := by
  refine ⟨T.consume hcons hram, hcons, fun h => h, Fresh.untagged, fun j c hf hc => ?_⟩
  unfold Memory.links at hc ⊢
  rw [hram _ _ hf j]
  exact hc

end Widens

namespace SameMap

variable {kern : Word} {m m₁ m₂ : Memory} {tag tag₁ : Tags}

theorem refl (m : Memory) (tag : Tags) : SameMap m tag m := fun _ _ _ => rfl

theorem trans (h : SameMap m tag m₁) (hw : Widens kern m tag m₁ tag₁) (h' : SameMap m₁ tag₁ m₂) : SameMap m tag m₂ :=
  fun R hR v => (h' R (hw.keeps hR) v).trans (h R hR v)

/-- The tables hold what they held. -/
theorem of_links (L : Layout m.links kern Shareable 3 tag)
    (hlinks : ∀ f o p, tag f = some (o, p) → ∀ j, m₁.links (3 - p.length) f j = m.links (3 - p.length) f j) :
    SameMap m tag m₁ := by
  intro R hR v
  rw [translateAddress_eq, translateAddress_eq,
    L.resolve_congr (R := R) (fun f o p hf _ j => hlinks f o p hf j) hR (Or.inl rfl) (by rw [length_pathOf]; rfl)]

end SameMap

/-! ### One level down -/

section AllocFn

variable {m m₁ m' : Memory} {kern o f₀ c e : Word} {tag : Tags} {p₀ : List (Fin 512)} {i₀ : Fin 512}

/-- A frame is handed out, filled and put behind a slot that holds no table. -/
private theorem widens_adopt (T : Tables m₁ kern tag) (hf₀ : tag f₀ = some (o, p₀)) (hp₀ : p₀.length < 3)
    (hcons : Consumes m m₁) (hram : m₁.ram = m.ram) (hfresh : m₁.Fresh tag c) (hnew : ¬ m.Fresh tag c)
    (hslot : ∀ d, m.links (3 - p₀.length) f₀ i₀ ≠ .table d) (he : PointsTo e c) {content : Fin 512 → Word}
    (hcontent : (∀ j, content j = 0) ∨ p₀.length = 2) :
    Widens kern m tag ((m₁.setFrame c content).writeEntry f₀ i₀ e) (setTag tag c (o, p₀ ++ [i₀])) := by
  have hne : ∀ {f t}, tag f = some t → f ≠ c := by
    rintro f t hf rfl
    rw [hfresh.untagged] at hf
    cases hf
  have hcons₁ : Consumes m₁ ((m₁.setFrame c content).writeEntry f₀ i₀ e) := ⟨rfl, fun _ h => h, List.suffix_refl _⟩
  have hsame : ∀ f t, tag f = some t → ∀ j, ¬ (f = f₀ ∧ j = i₀) →
      ((m₁.setFrame c content).writeEntry f₀ i₀ e).ram f j = m₁.ram f j := by
    intro f t hf j hhere
    rw [writeEntry_ram, if_neg hhere]
    exact if_neg (hne hf)
  have hentry : ((m₁.setFrame c content).writeEntry f₀ i₀ e).ram f₀ i₀ = e := by
    rw [writeEntry_ram, if_pos ⟨rfl, rfl⟩]
  have hfilled : ∀ j, ((m₁.setFrame c content).writeEntry f₀ i₀ e).ram c j = content j := by
    intro j
    rw [writeEntry_ram, if_neg (fun h => hne hf₀ h.1.symm)]
    exact if_pos rfl
  have hlinks : m₁.links = m.links := by
    unfold Memory.links
    rw [hram]
  refine ⟨T.adopt hf₀ hp₀ hfresh (by rw [hlinks]; exact hslot) he hcons₁ hsame hentry ?_, hcons.trans hcons₁,
    Layout.setTag_of_tagged _ hfresh.untagged, fun hf => ?_, fun {f o' p} j d hf hd => ?_⟩
  · exact hcontent.imp_left fun h j => by rw [hfilled j, h j]
  · rw [Layout.setTag_of_ne, hf.untagged]
    rintro rfl
    exact hnew hf
  · have hhere : ¬ (f = f₀ ∧ j = i₀) := by
      rintro ⟨rfl, rfl⟩
      rw [hf₀] at hf
      cases hf
      exact hslot d hd
    rw [← hlinks] at hd
    unfold Memory.links at hd ⊢
    rw [hsame f _ hf j hhere]
    exact hd

/-- An empty table behind an absent entry changes no translation. -/
private theorem sameMap_adopt (T : Tables m kern tag) (hf₀ : tag f₀ = some (o, p₀)) (hp₀ : p₀.length < 3)
    (hram : m₁.ram = m.ram) (hc : tag c = none) (habsent : m.ram f₀ i₀ &&& ptePresent = 0) (he : PointsTo e c) :
    SameMap m tag ((m₁.setFrame c fun _ => 0).writeEntry f₀ i₀ e) := by
  intro R hR v
  rw [translateAddress_eq, translateAddress_eq, T.resolve_adopt hf₀ hp₀ hram hc habsent he hR v]

/-- `alloc_fn` fails for want of a frame only. -/
theorem allocFn_eq_none {flag : Word} (h : m.allocFn flag f₀ i₀ = (m', none)) : m' = m ∧ m.allocPtFrame.2 = none := by
  unfold Memory.allocFn at h
  simp only at h
  split at h
  · split at h
    · rename_i m₁ halloc
      cases h
      exact ⟨allocPtFrame_eq_none halloc, by rw [halloc]⟩
    · cases h
  · split at h
    · split at h
      · rename_i m₁ halloc
        cases h
        exact ⟨allocPtFrame_eq_none halloc, by rw [halloc]⟩
      · cases h
    · split at h
      · cases h
      · cases h

/-- On any slot `alloc_fn` builds the next table, splits a 2 MB page, or finds a table. -/
theorem Tables.allocFn_any (T : Tables m kern tag) (hf₀ : tag f₀ = some (o, p₀)) (hp₀ : p₀.length < 3) {flags : Word}
    {r : Option Word} (h : m.allocFn (flags &&& pteUser) f₀ i₀ = (m', r)) :
    ∃ tag', Widens kern m tag m' tag' ∧ (p₀.length < 2 → SameMap m tag m') ∧
      ∀ c, r = some c → m'.links (3 - p₀.length) f₀ i₀ = .table c ∧ ∃ q, tag' c = some (q, p₀ ++ [i₀]) := by
  have hcons := Consumes.allocPtFrame m
  rcases m.allocFn_cases (flags &&& pteUser) f₀ i₀ with hfail | ⟨habsent, m₁, c, halloc, heq⟩ |
    ⟨hpresent, hhuge, m₁, c, halloc, heq⟩ | ⟨hpresent, hplain, e, he, heq⟩
  · rw [hfail] at h
    cases h
    exact ⟨tag, .refl T, fun _ => .refl _ tag, fun c hc => by cases hc⟩
  · rw [heq] at h
    cases h
    rw [halloc] at hcons
    obtain ⟨T₁, hfresh, hram⟩ := T.allocPtFrame halloc
    have hlink : PointsTo (linkEntry c (flags &&& pteUser)) c := pointsTo_allocFn hfresh.reserved.addr
    have hslot : ∀ d, m.links (3 - p₀.length) f₀ i₀ ≠ .table d := by
      intro d
      unfold Memory.links
      rw [decode_absent habsent]
      exact nofun
    have hw : Widens kern m tag ((m₁.setFrame c fun _ => 0).writeEntry f₀ i₀ (linkEntry c (flags &&& pteUser))) _ :=
      widens_adopt T₁ hf₀ hp₀ hcons hram hfresh (not_fresh_of_allocPtFrame halloc) hslot hlink (Or.inl fun _ => rfl)
    refine ⟨_, hw, fun _ => sameMap_adopt T hf₀ hp₀ hram hfresh.untagged habsent hlink, fun d hd => ?_⟩
    cases hd
    rw [hlink.addr]
    refine ⟨?_, o, Layout.setTag_self _ _ _⟩
    unfold Memory.links
    rw [writeEntry_ram, if_pos ⟨rfl, rfl⟩]
    exact decode_of_pointsTo hlink (by omega)
  · rw [heq] at h
    cases h
    rw [halloc] at hcons
    obtain ⟨T₁, hfresh, hram⟩ := T.allocPtFrame halloc
    have hlink : PointsTo (linkEntry c (flags &&& pteUser)) c := pointsTo_allocFn hfresh.reserved.addr
    have htwo := T.length_of_huge hf₀ hp₀ hpresent hhuge
    have hslot : ∀ d, m.links (3 - p₀.length) f₀ i₀ ≠ .table d := by
      intro d
      unfold Memory.links
      rw [htwo, decode_huge hpresent hhuge]
      exact nofun
    have hw : Widens kern m tag ((m₁.setFrame c (splitEntry (m.ram f₀ i₀))).writeEntry f₀ i₀
        (linkEntry c (flags &&& pteUser))) _ :=
      widens_adopt T₁ hf₀ hp₀ hcons hram hfresh (not_fresh_of_allocPtFrame halloc) hslot hlink (Or.inr htwo)
    refine ⟨_, hw, fun hlt => absurd htwo (Nat.ne_of_lt hlt), fun d hd => ?_⟩
    cases hd
    rw [hlink.addr]
    refine ⟨?_, o, Layout.setTag_self _ _ _⟩
    unfold Memory.links
    rw [writeEntry_ram, if_pos ⟨rfl, rfl⟩]
    exact decode_of_pointsTo hlink (by omega)
  · rw [heq] at h
    cases h
    have hlink : m.links (3 - p₀.length) f₀ i₀ = .table (m.ram f₀ i₀ &&& pteAddrMask) :=
      decode_small hpresent hplain (by omega)
    have hopen : e = m.ram f₀ i₀ ∨ e = m.ram f₀ i₀ ||| pteUser := he.imp_right And.right
    have hlinks := fun {f q p} (hf : tag f = some (q, p)) j => links_open hf₀ hlink hopen hf j
    have haddr : e &&& pteAddrMask = m.ram f₀ i₀ &&& pteAddrMask := by
      rcases hopen with rfl | rfl
      · rfl
      · exact or_pteUser_and (by decide)
    refine ⟨tag, ⟨T.openEntry hf₀ hplain hlink hopen, .writeEntry _ _ _ _, fun h => h, Fresh.untagged,
      fun j d hf hd => (hlinks hf j).trans hd⟩, fun _ => .of_links T.layout fun f q p hf j => hlinks hf j, fun d hd => ?_⟩
    cases hd
    rw [haddr]
    refine ⟨(hlinks hf₀ i₀).trans hlink, ?_⟩
    rcases T.layout.child hf₀ hlink with hown | ⟨-, -, hkern⟩
    · exact ⟨o, hown⟩
    · exact ⟨kern, hkern⟩

end AllocFn

/-! ### The whole way -/

section MapPage

variable {m m' : Memory} {kern o : Word} {tag : Tags}

/-- The entry of a page is written. -/
private theorem widens_writePage (T : Tables m kern tag) {f₀ q e : Word} {p₀ : List (Fin 512)} {i₀ : Fin 512}
    (hf₀ : tag f₀ = some (q, p₀)) (hp₀ : p₀.length = 3) : Widens kern m tag (m.writeEntry f₀ i₀ e) tag := by
  have hb : Builds (fun _ _ => True) kern q m tag (m.writeEntry f₀ i₀ e) tag := T.writePage hf₀ hp₀ trivial
  refine ⟨hb.tables, hb.consumes, fun h => h, Fresh.untagged, fun {f _ p} j c hf hc => ?_⟩
  have hhere : ¬ (f = f₀ ∧ j = i₀) := by
    rintro ⟨rfl, rfl⟩
    rw [hf₀] at hf
    cases hf
    exact T.layout.not_table hf₀ hp₀ hc
  unfold Memory.links at hc ⊢
  rw [writeEntry_ram, if_neg hhere]
  exact hc

/-- A page table found on the way down holds the translation of its pages. -/
private theorem translateAddress_of_links {virt pdpt pd pt : Word} (h4 : m.links 3 o (pml4Index virt) = .table pdpt)
    (h3 : m.links 2 pdpt (pdptIndex virt) = .table pd) (h2 : m.links 1 pd (pdIndex virt) = .table pt)
    (h1 : m.ram pt (ptIndex virt) &&& ptePresent ≠ 0) :
    m.translateAddress o virt = some (m.ram pt (ptIndex virt) &&& pteAddrMask ||| virt &&& 0xFFF#64) := by
  have hpage : m.links 0 pt (ptIndex virt) = .leaf (m.ram pt (ptIndex virt)) := decode_page h1
  rw [translateAddress_eq]
  unfold pathOf
  simp only [resolve, List.length_cons, List.length_nil, Nat.zero_add, Nat.reduceAdd, h4, h3, h2, hpage]
  rfl

/-- `map_page_global` at any address: it fails for want of a frame, and changes no translation; or it maps the page. -/
theorem Tables.mapPageGlobal_any (T : Tables m kern tag) (hroot : tag o = some (o, [])) {virt phys flags : Word}
    {ok : Bool} (h : m.mapPageGlobal o virt phys flags = (m', ok)) :
    ∃ tag', Widens kern m tag m' tag' ∧ (ok = false → SameMap m tag m' ∧ m'.allocPtFrame.2 = none) ∧
      (ok = true → pageEntry phys flags &&& ptePresent ≠ 0 →
        m'.translateAddress o virt = some (pageEntry phys flags &&& pteAddrMask ||| virt &&& 0xFFF#64)) := by
  unfold Memory.mapPageGlobal at h
  simp only at h
  split at h
  · rename_i m₁ h₁
    cases h
    obtain ⟨tag₁, hw₁, hsame₁, -⟩ := T.allocFn_any hroot (by decide) h₁
    obtain ⟨rfl, hnone⟩ := allocFn_eq_none h₁
    exact ⟨tag₁, hw₁, fun _ => ⟨hsame₁ (by decide), hnone⟩, nofun⟩
  · rename_i m₁ pdpt h₁
    obtain ⟨tag₁, hw₁, hsame₁, hfound₁⟩ := T.allocFn_any hroot (by decide) h₁
    obtain ⟨hlink₁, q₁, hpdpt⟩ := hfound₁ pdpt rfl
    split at h
    · rename_i m₂ h₂
      cases h
      obtain ⟨tag₂, hw₂, hsame₂, -⟩ := hw₁.tables.allocFn_any hpdpt (by simp) h₂
      obtain ⟨rfl, hnone⟩ := allocFn_eq_none h₂
      exact ⟨tag₂, hw₁.trans hw₂, fun _ => ⟨(hsame₁ (by decide)).trans hw₁ (hsame₂ (by simp)), hnone⟩, nofun⟩
    · rename_i m₂ pd h₂
      obtain ⟨tag₂, hw₂, hsame₂, hfound₂⟩ := hw₁.tables.allocFn_any hpdpt (by simp) h₂
      obtain ⟨hlink₂, q₂, hpd⟩ := hfound₂ pd rfl
      have hw₁₂ := hw₁.trans hw₂
      split at h
      · rename_i m₃ h₃
        cases h
        obtain ⟨tag₃, hw₃, -⟩ := hw₂.tables.allocFn_any hpd (by simp) h₃
        obtain ⟨rfl, hnone⟩ := allocFn_eq_none h₃
        exact ⟨tag₃, hw₁₂.trans hw₃, fun _ => ⟨(hsame₁ (by decide)).trans hw₁ (hsame₂ (by simp)), hnone⟩, nofun⟩
      · rename_i m₃ pt h₃
        cases h
        obtain ⟨tag₃, hw₃, -, hfound₃⟩ := hw₂.tables.allocFn_any hpd (by simp) h₃
        obtain ⟨hlink₃, q₃, hpt⟩ := hfound₃ pt rfl
        have hw₄ : Widens kern m₃ tag₃ (m₃.writeEntry pt (ptIndex virt) (pageEntry phys flags)) tag₃ :=
          widens_writePage hw₃.tables hpt (by simp)
        refine ⟨tag₃, (hw₁₂.trans hw₃).trans hw₄, nofun, fun _ hpresent => ?_⟩
        have hentry : (m₃.writeEntry pt (ptIndex virt) (pageEntry phys flags)).ram pt (ptIndex virt) =
            pageEntry phys flags := by
          rw [writeEntry_ram, if_pos ⟨rfl, rfl⟩]
        -- the links of the way down are kept by the steps after them
        have h4 := ((hw₂.trans hw₃).trans hw₄).links _ (hw₁.keeps hroot) hlink₁
        have h3 := (hw₃.trans hw₄).links _ (hw₂.keeps hpdpt) hlink₂
        have h2 := hw₄.links _ (hw₃.keeps hpd) hlink₃
        have htranslate := translateAddress_of_links h4 h3 h2 (by rw [hentry]; exact hpresent)
        rw [hentry] at htranslate
        exact htranslate

end MapPage

end Memory

end Rost
