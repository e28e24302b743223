import Rost.Memory.Layout

/-!
# Mapping pages

What the functions that build page tables do to the layout.  `Builds` says it once for all of them: new tables belong
to one owner, the tables of the others are untouched, and the owner reaches the same pages as before, except for those
that have been written.  It holds for `map_page_global` on a user PML4 if the way down does not lead into a table of
the kernel (`Tables.mapPageGlobal`).
-/

namespace Rost

open Lib (Link)
open Lib.TableTree (resolve Layout)
open Lib.TableTree.Layout (setTag)

namespace Memory

/-! ### The closure `alloc_fn` -/

/-- The entry that `alloc_fn` writes for a new table. -/
def linkEntry (p flag : Word) : Word := p &&& pteAddrMask ||| ptePresent ||| pteWritable ||| flag

theorem writeEntry_self (m : Memory) (f : Word) (i : Fin 512) : m.writeEntry f i (m.ram f i) = m := by
  have hram : (m.writeEntry f i (m.ram f i)).ram = m.ram := by
    funext g j
    rw [writeEntry_ram]
    split
    · rename_i h
      rw [h.1, h.2]
    · rfl
  unfold writeEntry at hram ⊢
  exact congrArg (fun r => { m with ram := r }) hram

/-- The ways of `alloc_fn`: it fails for want of a frame, fills an absent entry, splits a 2 MB page, or finds a table,
whose entry it may open to user mode. -/
theorem allocFn_cases (m : Memory) (flag table : Word) (i : Fin 512) :
    m.allocFn flag table i = (m, none) ∨
    (m.ram table i &&& ptePresent = 0 ∧ ∃ m₁ p, m.allocPtFrame = (m₁, some p) ∧ m.allocFn flag table i =
      ((m₁.zeroFrame p).writeEntry table i (linkEntry p flag), some (linkEntry p flag &&& pteAddrMask))) ∨
    (m.ram table i &&& ptePresent ≠ 0 ∧ m.ram table i &&& pteHugePage ≠ 0 ∧ ∃ m₁ p, m.allocPtFrame = (m₁, some p) ∧
      m.allocFn flag table i = ((m₁.fillSplit p (m.ram table i)).writeEntry table i (linkEntry p flag),
        some (linkEntry p flag &&& pteAddrMask))) ∨
    (m.ram table i &&& ptePresent ≠ 0 ∧ m.ram table i &&& pteHugePage = 0 ∧
      ∃ e, (e = m.ram table i ∨ (flag ≠ 0 ∧ e = m.ram table i ||| pteUser)) ∧
        m.allocFn flag table i = (m.writeEntry table i e, some (e &&& pteAddrMask))) := by
  unfold Memory.allocFn
  simp only
  by_cases hpresent : m.ram table i &&& ptePresent = 0
  · rw [if_pos hpresent]
    cases halloc : m.allocPtFrame with
    | mk m₁ r =>
      cases r with
      | none =>
        rw [allocPtFrame_eq_none halloc]
        exact Or.inl rfl
      | some p => exact Or.inr (Or.inl ⟨hpresent, m₁, p, rfl, rfl⟩)
  · rw [if_neg hpresent]
    by_cases hhuge : m.ram table i &&& pteHugePage = 0
    · rw [if_neg (not_not_intro hhuge)]
      refine Or.inr (Or.inr (Or.inr ⟨hpresent, hhuge, ?_⟩))
      split
      · rename_i hopen
        exact ⟨_, Or.inr ⟨hopen.1, rfl⟩, rfl⟩
      · exact ⟨_, Or.inl rfl, by rw [writeEntry_self]⟩
    · rw [if_pos hhuge]
      cases halloc : m.allocPtFrame with
      | mk m₁ r =>
        cases r with
        | none =>
          rw [allocPtFrame_eq_none halloc]
          exact Or.inl rfl
        | some p => exact Or.inr (Or.inr (Or.inl ⟨hpresent, hhuge, m₁, p, rfl, rfl⟩))

/-! ### What building does -/

/-- The tags have grown by tables of `o`. -/
structure Grows (o : Word) (tag tag' : Tags) : Prop where
  keeps : ∀ {f t}, tag f = some t → tag' f = some t
  new : ∀ {f t}, tag' f = some t → tag f = some t ∨ t.1 = o

namespace Grows

theorem refl (o : Word) (tag : Tags) : Grows o tag tag := ⟨fun h => h, Or.inl⟩

theorem trans {o : Word} {tag₁ tag₂ tag₃ : Tags} (h : Grows o tag₁ tag₂) (h' : Grows o tag₂ tag₃) : Grows o tag₁ tag₃ := by
  refine ⟨fun hf => h'.keeps (h.keeps hf), fun hf => ?_⟩
  rcases h'.new hf with hf | ho
  · exact h.new hf
  · exact Or.inr ho

theorem setTag {tag : Tags} {c o : Word} (p : List (Fin 512)) (hc : tag c = none) :
    Grows o tag (Layout.setTag tag c (o, p)) := by
  refine ⟨fun hf => Layout.setTag_of_tagged _ hc hf, fun hf => ?_⟩
  rcases Layout.setTag_eq_some hf with ⟨-, heq⟩ | ⟨-, hf⟩
  · exact Or.inr (by rw [heq])
  · exact Or.inl hf

end Grows

/-- The slot `j` of the table that `o` has on path `p` holds nothing, or a table of `o` itself. -/
def Owned (m : Memory) (tag : Tags) (o : Word) (p : List (Fin 512)) (j : Fin 512) : Prop :=
  ∀ f, tag f = some (o, p) → m.links (3 - p.length) f j = .none ∨
    ∃ c, m.links (3 - p.length) f j = .table c ∧ tag c = some (o, p ++ [j])

/-- Page tables have been built for the owner `o`; where something else than a link to an own table has been written,
`W` holds of the path and of the entry. -/
structure Builds (W : List (Fin 512) → Word → Prop) (kern o : Word) (m : Memory) (tag : Tags) (m' : Memory)
    (tag' : Tags) : Prop where
  tables : Tables m' kern tag'
  consumes : Consumes m m'
  grows : Grows o tag tag'
  spares : ∀ {f}, m.Fresh tag f → tag' f = none
  others : ∀ {f q p}, tag f = some (q, p) → q ≠ o → ∀ j, m'.ram f j = m.ram f j
  slots : ∀ {f p} j, tag' f = some (o, p) → (tag f = some (o, p) ∧ m'.ram f j = m.ram f j) ∨
    m'.links (3 - p.length) f j = .none ∨
    (∃ c, m'.links (3 - p.length) f j = .table c ∧ tag' c = some (o, p ++ [j])) ∨ W (p ++ [j]) (m'.ram f j)
  resolves : ∀ {f p is}, tag f = some (o, p) → p.length + is.length = 4 → (∀ q e, q <+: p ++ is → ¬ W q e) →
    resolve m'.links is f = resolve m.links is f

namespace Builds

variable {W W₁ W₂ : List (Fin 512) → Word → Prop} {kern o : Word} {m m₁ m₂ m₃ : Memory} {tag tag₁ tag₂ tag₃ : Tags}

/-- Frames have been handed out, and the contents of frames that are no page tables have changed. -/
theorem of_data (T : Tables m kern tag) (hcons : Consumes m m₁)
    (hram : ∀ f t, tag f = some t → ∀ j, m₁.ram f j = m.ram f j) : Builds W kern o m tag m₁ tag where
  tables := T.consume hcons hram
  consumes := hcons
  grows := .refl o tag
  spares := Fresh.untagged
  others hf _ j := hram _ _ hf j
  slots j hf := Or.inl ⟨hf, hram _ _ hf j⟩
  resolves hf hlen _ := by
    refine T.layout.resolve_congr (R := o) (fun g q p hg _ j => ?_) hf (Or.inl rfl) hlen
    unfold links
    rw [hram g _ hg j]

theorem refl (T : Tables m kern tag) : Builds W kern o m tag m tag := of_data T (.refl m) fun _ _ _ _ => rfl

/-- A frame that is in use, and no page table, does not become one. -/
theorem fresh (h : Builds W kern o m tag m₁ tag₁) {f : Word} (hf : m.Fresh tag f) : m₁.Fresh tag₁ f :=
  ⟨h.spares hf, hf.reserved.consumes h.consumes, (hf.consumes h.consumes).not_pooled⟩

theorem trans (h : Builds W kern o m₁ tag₁ m₂ tag₂) (h' : Builds W kern o m₂ tag₂ m₃ tag₃) :
    Builds W kern o m₁ tag₁ m₃ tag₃ where
  tables := h'.tables
  consumes := h.consumes.trans h'.consumes
  grows := h.grows.trans h'.grows
  spares hf := h'.spares (h.fresh hf)
  others hf hq j := (h'.others (h.grows.keeps hf) hq j).trans (h.others hf hq j)
  slots {f p} j hf := by
    rcases h'.slots j hf with ⟨hf₂, hsame⟩ | hnew
    · have hlinks : m₃.links (3 - p.length) f j = m₂.links (3 - p.length) f j := by
        unfold links
        rw [hsame]
      rcases h.slots j hf₂ with ⟨hf₁, hsame₁⟩ | hnone | ⟨c, hc, htag⟩ | hW
      · exact Or.inl ⟨hf₁, hsame.trans hsame₁⟩
      · exact Or.inr (Or.inl (hlinks.trans hnone))
      · exact Or.inr (Or.inr (Or.inl ⟨c, hlinks.trans hc, h'.grows.keeps htag⟩))
      · exact Or.inr (Or.inr (Or.inr (by rw [hsame]; exact hW)))
    · exact Or.inr hnew
  resolves hf hlen hW := (h'.resolves (h.grows.keeps hf) hlen hW).trans (h.resolves hf hlen hW)

theorem mono (h : Builds W₁ kern o m tag m₁ tag₁) (hW : ∀ q e, W₁ q e → W₂ q e) : Builds W₂ kern o m tag m₁ tag₁ where
  tables := h.tables
  consumes := h.consumes
  grows := h.grows
  spares := h.spares
  others := h.others
  slots j hf := by
    rcases h.slots j hf with hold | hnone | hown | hnew
    · exact Or.inl hold
    · exact Or.inr (Or.inl hnone)
    · exact Or.inr (Or.inr (Or.inl hown))
    · exact Or.inr (Or.inr (Or.inr (hW _ _ hnew)))
  resolves hf hlen hnot := h.resolves hf hlen fun q e hq hw => hnot q e hq (hW q e hw)

/-- A slot that belongs to the owner goes on to do so. -/
theorem owned (h : Builds W kern o m tag m₁ tag₁) {p : List (Fin 512)} {j : Fin 512} (hp : ∀ e, ¬ W (p ++ [j]) e)
    (ho : Owned m tag o p j) : Owned m₁ tag₁ o p j := by
  intro f hf
  rcases h.slots j hf with ⟨hf₀, hsame⟩ | hnone | hown | hW
  · unfold links
    rw [hsame]
    rcases ho f hf₀ with hnone | ⟨c, hc, htag⟩
    · exact Or.inl hnone
    · exact Or.inr ⟨c, hc, h.grows.keeps htag⟩
  · exact Or.inl hnone
  · exact Or.inr hown
  · exact absurd hW (hp _)

/-- Nothing changes for the other owners. -/
theorem resolves_other (h : Builds W kern o m tag m₁ tag₁) (L : Layout m.links kern Shareable 3 tag) (ho : o ≠ kern)
    {f q : Word} {p is : List (Fin 512)} (hf : tag f = some (q, p)) (hq : q ≠ o) (hlen : p.length + is.length = 4) :
    resolve m₁.links is f = resolve m.links is f := by
  refine L.resolve_congr (R := q) ?_ hf (Or.inl rfl) hlen
  intro g r p' hg hr j
  unfold links
  rw [h.others hg ?_ j]
  rcases hr with rfl | rfl
  · exact hq
  · exact ho.symm

end Builds

/-! ### One level down -/

section AllocFn

variable {W : List (Fin 512) → Word → Prop} {m m' : Memory} {kern o f₀ : Word} {tag : Tags} {p₀ : List (Fin 512)}
  {i₀ : Fin 512}

/-- A frame is handed out, zeroed and put behind an empty slot. -/
private theorem builds_adopt {m₁ : Memory} (T : Tables m₁ kern tag) (hf₀ : tag f₀ = some (o, p₀)) (hp₀ : p₀.length < 3)
    {c e : Word} (hcons₁ : Consumes m m₁) (hram : m₁.ram = m.ram) (hfresh : m₁.Fresh tag c) (hnew : ¬ m.Fresh tag c)
    (hslot : m.ram f₀ i₀ &&& ptePresent = 0) (he : PointsTo e c) :
    Builds W kern o m tag ((m₁.zeroFrame c).writeEntry f₀ i₀ e) (setTag tag c (o, p₀ ++ [i₀])) := by
  have hne : ∀ {f t}, tag f = some t → f ≠ c := by
    rintro f t hf rfl
    rw [hfresh.untagged] at hf
    cases hf
  have hcons : Consumes m₁ ((m₁.zeroFrame c).writeEntry f₀ i₀ e) := (Consumes.zeroFrame m₁ c).trans (.writeEntry _ _ _ _)
  have hsame : ∀ f t, tag f = some t → ∀ j, ¬ (f = f₀ ∧ j = i₀) →
      ((m₁.zeroFrame c).writeEntry f₀ i₀ e).ram f j = m.ram f j := by
    intro f t hf j hhere
    rw [writeEntry_ram, if_neg hhere, zeroFrame_ram, if_neg (hne hf), hram]
  have hentry : ((m₁.zeroFrame c).writeEntry f₀ i₀ e).ram f₀ i₀ = e := by
    rw [writeEntry_ram, if_pos ⟨rfl, rfl⟩]
  have hzero : ∀ j, ((m₁.zeroFrame c).writeEntry f₀ i₀ e).ram c j = 0 := by
    intro j
    rw [writeEntry_ram, if_neg (fun h => hne hf₀ h.1.symm), zeroFrame_ram, if_pos rfl]
  have hnone : m₁.links (3 - p₀.length) f₀ i₀ = .none := by
    unfold links
    rw [hram]
    exact decode_absent hslot _
  have hlink : ((m₁.zeroFrame c).writeEntry f₀ i₀ e).links (3 - p₀.length) f₀ i₀ = .table c := by
    unfold links
    rw [hentry]
    exact decode_of_pointsTo he (by omega)
  have hsame₁ : ∀ f t, tag f = some t → ∀ j, ¬ (f = f₀ ∧ j = i₀) →
      ((m₁.zeroFrame c).writeEntry f₀ i₀ e).ram f j = m₁.ram f j := by
    rw [hram]
    exact hsame
  refine ⟨T.adopt hf₀ hp₀ hfresh (fun d => by rw [hnone]; exact fun h => by cases h) he hcons hsame₁ hentry
    (Or.inl hzero), hcons₁.trans hcons, .setTag _ hfresh.untagged, ?_, ?_, ?_, ?_⟩
  · intro f hf
    rw [Layout.setTag_of_ne, hf.untagged]
    rintro rfl
    exact hnew hf
  · intro f q p hf hq j
    refine hsame f _ hf j ?_
    rintro ⟨rfl, -⟩
    rw [hf₀] at hf
    cases hf
    exact hq rfl
  · intro f p j hf
    rcases Layout.setTag_eq_some hf with ⟨rfl, -⟩ | ⟨-, hf'⟩
    · refine Or.inr (Or.inl ?_)
      unfold links
      rw [hzero j, decode_zero]
    · by_cases hhere : f = f₀ ∧ j = i₀
      · obtain ⟨rfl, rfl⟩ := hhere
        rw [hf₀] at hf'
        cases hf'
        exact Or.inr (Or.inr (Or.inl ⟨c, hlink, Layout.setTag_self _ _ _⟩))
      · exact Or.inl ⟨hf', hsame f _ hf' j hhere⟩
  · intro f p is hf hlen _
    have hlinks : m₁.links = m.links := by
      unfold links
      rw [hram]
    rw [← hlinks]
    refine T.layout.resolve_adopt hf₀ hnone hlink (fun j => ?_) (fun g q p' hg j hhere => ?_) hf hlen
    · unfold links
      rw [hzero j, decode_zero]
    · unfold links
      rw [hsame₁ g _ hg j hhere]

/-- An entry that points to a table is written again, perhaps open to user mode: it still points there. -/
theorem links_open (hf₀ : tag f₀ = some (o, p₀)) {c e : Word} (hlink : m.links (3 - p₀.length) f₀ i₀ = .table c)
    (he : e = m.ram f₀ i₀ ∨ e = m.ram f₀ i₀ ||| pteUser) {f q : Word} {p : List (Fin 512)} (hf : tag f = some (q, p))
    (j : Fin 512) : (m.writeEntry f₀ i₀ e).links (3 - p.length) f j = m.links (3 - p.length) f j := by
  have hdecode : decode (3 - p₀.length) e = .table c := by
    rcases he with rfl | rfl
    · exact hlink
    · exact decode_or_pteUser hlink
  by_cases hhere : f = f₀ ∧ j = i₀
  · obtain ⟨rfl, rfl⟩ := hhere
    rw [hf₀] at hf
    cases hf
    rw [hlink, ← hdecode]
    unfold links
    rw [writeEntry_ram, if_pos ⟨rfl, rfl⟩]
  · unfold links
    rw [writeEntry_ram, if_neg hhere]

/-- So the layout is kept. -/
theorem Tables.openEntry (T : Tables m kern tag) (hf₀ : tag f₀ = some (o, p₀)) {c e : Word}
    (hplain : m.ram f₀ i₀ &&& pteHugePage = 0) (hlink : m.links (3 - p₀.length) f₀ i₀ = .table c)
    (he : e = m.ram f₀ i₀ ∨ e = m.ram f₀ i₀ ||| pteUser) : Tables (m.writeEntry f₀ i₀ e) kern tag := by
  have hplain' : e &&& pteHugePage = 0 := by
    rcases he with rfl | rfl
    · exact hplain
    · rw [or_pteUser_and (by decide)]
      exact hplain
  refine ⟨T.layout.congr fun f q p hf j => links_open hf₀ hlink he hf j, T.addr, ?_, T.free, fun hp => ?_, T.pool_nodup⟩
  · intro f q p j hf hp hpresent
    by_cases hhere : f = f₀ ∧ j = i₀
    · rw [writeEntry_ram, if_pos hhere]
      exact hplain'
    · rw [writeEntry_ram, if_neg hhere] at hpresent ⊢
      exact T.plain j hf hp hpresent
  · exact ⟨(T.pool hp).1, (T.pool hp).2.consumes (.writeEntry _ _ _ _)⟩

/-- An own table behind such an entry. -/
theorem builds_open (T : Tables m kern tag) (hf₀ : tag f₀ = some (o, p₀)) {c e : Word}
    (hplain : m.ram f₀ i₀ &&& pteHugePage = 0) (hlink : m.links (3 - p₀.length) f₀ i₀ = .table c)
    (hc : tag c = some (o, p₀ ++ [i₀])) (he : e = m.ram f₀ i₀ ∨ e = m.ram f₀ i₀ ||| pteUser) :
    Builds W kern o m tag (m.writeEntry f₀ i₀ e) tag := by
  have hram : ∀ f j, ¬ (f = f₀ ∧ j = i₀) → (m.writeEntry f₀ i₀ e).ram f j = m.ram f j := by
    intro f j hhere
    rw [writeEntry_ram, if_neg hhere]
  refine ⟨T.openEntry hf₀ hplain hlink he, .writeEntry _ _ _ _, .refl _ _, Fresh.untagged, ?_, ?_, ?_⟩
  · intro f q p hf hq j
    refine hram f j ?_
    rintro ⟨rfl, -⟩
    rw [hf₀] at hf
    cases hf
    exact hq rfl
  · intro f p j hf
    by_cases hhere : f = f₀ ∧ j = i₀
    · obtain ⟨rfl, rfl⟩ := hhere
      rw [hf₀] at hf
      cases hf
      exact Or.inr (Or.inr (Or.inl ⟨c, (links_open hf₀ hlink he hf₀ j).trans hlink, hc⟩))
    · exact Or.inl ⟨hf, hram f j hhere⟩
  · intro f p is hf hlen _
    exact T.layout.resolve_congr (R := o) (fun g q p' hg _ j => links_open hf₀ hlink he hg j) hf (Or.inl rfl) hlen

/-- On a slot of its owner `alloc_fn` finds the owner's next table, or builds it in a frame that the allocators hand out;
it fails for want of one. -/
theorem Tables.allocFn_builds (T : Tables m kern tag) (hf₀ : tag f₀ = some (o, p₀)) (hp₀ : p₀.length < 3)
    (hown : Owned m tag o p₀ i₀) {flags : Word} {r : Option Word}
    (h : m.allocFn (flags &&& pteUser) f₀ i₀ = (m', r)) :
    ∃ tag', Builds W kern o m tag m' tag' ∧ (r = none ∨ ∃ c, r = some c ∧ tag' c = some (o, p₀ ++ [i₀]) ∧
      ((tag' = tag ∧ m' = { m with ram := m'.ram }) ∨
        (tag' = setTag tag c (o, p₀ ++ [i₀]) ∧ (∀ f, tag f ≠ some (o, p₀ ++ [i₀])) ∧
          ∃ m₁, m.allocPtFrame = (m₁, some c) ∧ m' = { m₁ with ram := m'.ram }))) := by
  rcases m.allocFn_cases (flags &&& pteUser) f₀ i₀ with hfail | ⟨habsent, m₁, c, halloc, heq⟩ |
    ⟨hpresent, hhuge, m₁, c, halloc, heq⟩ | ⟨hpresent, hplain, e, he, heq⟩
  · rw [hfail] at h
    cases h
    exact ⟨tag, .refl T, Or.inl rfl⟩
  · rw [heq] at h
    cases h
    obtain ⟨T₁, hfresh, hram⟩ := T.allocPtFrame halloc
    have he : PointsTo (linkEntry c (flags &&& pteUser)) c := pointsTo_allocFn hfresh.reserved.addr
    have hcons := Consumes.allocPtFrame m
    rw [halloc] at hcons
    refine ⟨_, builds_adopt T₁ hf₀ hp₀ hcons hram hfresh (not_fresh_of_allocPtFrame halloc) habsent he,
      Or.inr ⟨c, by rw [he.addr], Layout.setTag_self _ _ _, Or.inr ⟨rfl, fun f hf => ?_, m₁, halloc, rfl⟩⟩⟩
    -- a table there would be behind the slot
    obtain ⟨g, hg, hlink⟩ := T.layout.parent hf
    rw [T.layout.tag_inj hg hf₀] at hlink
    unfold links at hlink
    rw [decode_absent habsent] at hlink
    cases hlink
  · -- a 2 MB page is no slot of the owner
    exfalso
    rcases hown f₀ hf₀ with hnone | ⟨c, hc, -⟩
    · exact hpresent (decode_eq_none.1 hnone)
    · obtain ⟨-, hleaf, -⟩ := decode_eq_table hc
      by_cases htwo : p₀.length < 2
      · exact hhuge (T.plain i₀ hf₀ htwo hpresent)
      · exact hleaf (Or.inr ⟨by omega, hhuge⟩)
  · rw [heq] at h
    cases h
    rcases hown f₀ hf₀ with hnone | ⟨c, hc, htag⟩
    · exact absurd (decode_eq_none.1 hnone) hpresent
    · have he : e = m.ram f₀ i₀ ∨ e = m.ram f₀ i₀ ||| pteUser := he.imp_right And.right
      have haddr : e &&& pteAddrMask = c := by
        rcases he with rfl | rfl
        · exact (decode_eq_table hc).2.2
        · rw [or_pteUser_and (by decide)]
          exact (decode_eq_table hc).2.2
      exact ⟨tag, builds_open T hf₀ hplain hc htag he, Or.inr ⟨c, by rw [haddr], htag, Or.inl ⟨rfl, rfl⟩⟩⟩

theorem Tables.allocFn (T : Tables m kern tag) (hf₀ : tag f₀ = some (o, p₀)) (hp₀ : p₀.length < 3)
    (hown : Owned m tag o p₀ i₀) {flags : Word} {r : Option Word}
    (h : m.allocFn (flags &&& pteUser) f₀ i₀ = (m', r)) :
    ∃ tag', Builds W kern o m tag m' tag' ∧ ∀ c, r = some c → tag' c = some (o, p₀ ++ [i₀]) := by
  obtain ⟨tag', hb, hr⟩ := T.allocFn_builds hf₀ hp₀ hown h
  refine ⟨tag', hb, fun c hc => ?_⟩
  rcases hr with hnone | ⟨d, hd, htag, -⟩
  · rw [hnone] at hc
    cases hc
  · rw [hd] at hc
    cases hc
    exact htag

/-- A page is written into a table of the lowest level. -/
theorem Tables.writePage (T : Tables m kern tag) (hf₀ : tag f₀ = some (o, p₀)) (hp₀ : p₀.length = 3) {e : Word}
    (hW : W (p₀ ++ [i₀]) e) : Builds W kern o m tag (m.writeEntry f₀ i₀ e) tag := by
  have hram : ∀ f j, ¬ (f = f₀ ∧ j = i₀) → (m.writeEntry f₀ i₀ e).ram f j = m.ram f j := by
    intro f j hhere
    rw [writeEntry_ram, if_neg hhere]
  have hlinks : ∀ f q p, tag f = some (q, p) → ∀ j, ¬ (f = f₀ ∧ j = i₀) →
      (m.writeEntry f₀ i₀ e).links (3 - p.length) f j = m.links (3 - p.length) f j := by
    intro f q p _ j hhere
    unfold links
    rw [hram f j hhere]
  have hplain : ∀ {f q p} j, tag f = some (q, p) → p.length < 2 → (m.writeEntry f₀ i₀ e).ram f j &&& ptePresent ≠ 0 →
      (m.writeEntry f₀ i₀ e).ram f j &&& pteHugePage = 0 := by
    intro f q p j hf hp hpresent
    have hhere : ¬ (f = f₀ ∧ j = i₀) := by
      rintro ⟨rfl, -⟩
      rw [hf₀] at hf
      cases hf
      omega
    rw [hram f j hhere] at hpresent ⊢
    exact T.plain j hf hp hpresent
  refine ⟨⟨T.layout.writeLowest hf₀ hp₀ (fun c => decode_zero_ne_table _ c) hlinks, T.addr, hplain, T.free,
    fun hp => ⟨(T.pool hp).1, (T.pool hp).2.consumes (.writeEntry _ _ _ _)⟩, T.pool_nodup⟩, .writeEntry _ _ _ _,
    .refl _ _, Fresh.untagged, ?_, ?_, ?_⟩
  · intro f q p hf hq j
    refine hram f j ?_
    rintro ⟨rfl, -⟩
    rw [hf₀] at hf
    cases hf
    exact hq rfl
  · intro f p j hf
    by_cases hhere : f = f₀ ∧ j = i₀
    · obtain ⟨rfl, rfl⟩ := hhere
      rw [hf₀] at hf
      cases hf
      refine Or.inr (Or.inr (Or.inr ?_))
      rw [writeEntry_ram, if_pos ⟨rfl, rfl⟩]
      exact hW
    · exact Or.inl ⟨hf, hram f j hhere⟩
  · intro f p is hf hlen hnot
    refine T.layout.resolve_change (S := fun f j => f = f₀ ∧ j = i₀) hlinks ?_ hf rfl
      (by rw [List.length_append]; exact hlen)
    -- the path through the written slot ends there
    rintro g q p' j js hg ⟨rfl, rfl⟩ hjs
    rw [hf₀] at hg
    cases hg
    have hnil : js = [] := by
      have := congrArg List.length hjs
      rw [List.length_append, List.length_append, List.length_cons] at this
      exact List.eq_nil_of_length_eq_zero (by omega)
    rw [hnil] at hjs
    rw [← hjs] at hnot
    exact absurd hW (hnot _ e (List.prefix_refl _))

/-- The page that `map_page_global` writes, with its path. -/
def PageAt (virt phys flags : Word) (path : List (Fin 512)) (e : Word) : Prop :=
  path = pathOf virt ∧ e = phys &&& pteAddrMask ||| flags &&& ~~~pteHugePage

/-- The way down to the page table of an address leads through slots of the owner only. -/
structure OwnedPath (m : Memory) (tag : Tags) (o virt : Word) : Prop where
  pml4 : Owned m tag o [] (pml4Index virt)
  pdpt : Owned m tag o [pml4Index virt] (pdptIndex virt)
  pd : Owned m tag o [pml4Index virt, pdptIndex virt] (pdIndex virt)

theorem OwnedPath.builds {m₁ : Memory} {tag₁ : Tags} {virt : Word} (h : OwnedPath m tag o virt)
    (hb : Builds W kern o m tag m₁ tag₁) (hW : ∀ q e, W q e → q.length = 4) : OwnedPath m₁ tag₁ o virt := by
  have hshort : ∀ {p : List (Fin 512)} {j}, p.length < 3 → ∀ e, ¬ W (p ++ [j]) e := by
    intro p j hp e hw
    have hlen := hW _ e hw
    rw [List.length_append, List.length_singleton] at hlen
    omega
  exact ⟨hb.owned (hshort (by decide)) h.pml4, hb.owned (hshort (by simp)) h.pdpt, hb.owned (hshort (by simp)) h.pd⟩

theorem PageAt.length {virt phys flags : Word} {path : List (Fin 512)} {e : Word} (h : PageAt virt phys flags path e) :
    path.length = 4 := by
  rw [h.1]
  rfl

/-- On such a way `map_page_global` builds for the owner, and if it succeeds it writes one page. -/
theorem Tables.mapPageGlobal_writes (T : Tables m kern tag) (hroot : tag o = some (o, [])) {virt phys flags : Word}
    (hpath : OwnedPath m tag o virt) (hlen : ∀ q e, W q e → q.length = 4) {ok : Bool}
    (hW : ok = true → W (pathOf virt) (phys &&& pteAddrMask ||| flags &&& ~~~pteHugePage))
    (h : m.mapPageGlobal o virt phys flags = (m', ok)) : ∃ tag', Builds W kern o m tag m' tag' := by
  unfold Memory.mapPageGlobal at h
  simp only at h
  split at h
  · rename_i m₁ h₁
    cases h
    obtain ⟨tag₁, hb₁, -⟩ := T.allocFn (W := W) hroot (by decide) hpath.pml4 h₁
    exact ⟨tag₁, hb₁⟩
  · rename_i m₁ pdpt h₁
    obtain ⟨tag₁, hb₁, hpdpt⟩ := T.allocFn (W := W) hroot (by decide) hpath.pml4 h₁
    have hpath₁ := hpath.builds hb₁ hlen
    split at h
    · rename_i m₂ h₂
      cases h
      obtain ⟨tag₂, hb₂, -⟩ := hb₁.tables.allocFn (hpdpt pdpt rfl) (by simp) hpath₁.pdpt h₂
      exact ⟨tag₂, hb₁.trans hb₂⟩
    · rename_i m₂ pd h₂
      obtain ⟨tag₂, hb₂, hpd⟩ := hb₁.tables.allocFn (W := W) (hpdpt pdpt rfl) (by simp) hpath₁.pdpt h₂
      have hpath₂ := hpath₁.builds hb₂ hlen
      split at h
      · rename_i m₃ h₃
        cases h
        obtain ⟨tag₃, hb₃, -⟩ := hb₂.tables.allocFn (hpd pd rfl) (by simp) hpath₂.pd h₃
        exact ⟨tag₃, (hb₁.trans hb₂).trans hb₃⟩
      · rename_i m₃ pt h₃
        cases h
        obtain ⟨tag₃, hb₃, hpt⟩ := hb₂.tables.allocFn (W := W) (hpd pd rfl) (by simp) hpath₂.pd h₃
        exact ⟨tag₃, ((hb₁.trans hb₂).trans hb₃).trans (hb₃.tables.writePage (hpt pt rfl) (by simp) (hW rfl))⟩

theorem Tables.mapPageGlobal (T : Tables m kern tag) (hroot : tag o = some (o, [])) {virt phys flags : Word}
    (hpath : OwnedPath m tag o virt) {ok : Bool} (h : m.mapPageGlobal o virt phys flags = (m', ok)) :
    ∃ tag', Builds (PageAt virt phys flags) kern o m tag m' tag' :=
  T.mapPageGlobal_writes hroot hpath (fun _ _ => PageAt.length) (fun _ => ⟨rfl, rfl⟩) h

end AllocFn

/-! ### The kernel's entries in a user PML4 -/

section Merge

variable {W : List (Fin 512) → Word → Prop} {m m' : Memory} {kern o : Word} {tag : Tags}

/-- Where the kernel has nothing to share, a slot of a user table belongs to the user. -/
theorem Tables.owned_of_clean (T : Tables m kern tag) (ho : o ≠ kern) {p : List (Fin 512)} {j : Fin 512}
    (hp : p.length < 3) (hclean : Shareable p j → ∀ g, tag g = some (kern, p) → m.ram g j &&& ptePresent = 0) :
    Owned m tag o p j :=
  fun _ hf => T.layout.own_of_clean hf ho hp fun hs g hg => decode_absent (hclean hs g hg) _

/-- The first slot is not shared. -/
theorem Tables.owned_first (T : Tables m kern tag) (ho : o ≠ kern) {p : List (Fin 512)} (hp : p.length < 3) :
    Owned m tag o p 0 := T.owned_of_clean ho hp fun hs => absurd rfl hs.2

/-- A slot of the kernel that holds a table holds its own. -/
theorem Tables.kern_child (T : Tables m kern tag) {f c : Word} {p : List (Fin 512)} {j : Fin 512}
    (hf : tag f = some (kern, p)) (hc : m.links (3 - p.length) f j = .table c) : tag c = some (kern, p ++ [j]) := by
  rcases T.layout.child hf hc with hown | ⟨hne, -⟩
  · exact hown
  · exact absurd rfl hne

theorem copyEntries_ram (m : Memory) (g f : Word) (j : Fin 512) :
    ((m.copyEntries g f).ram f j = m.ram f j) ∨
      (j ≠ 0 ∧ m.ram g j &&& ptePresent ≠ 0 ∧ m.ram f j = 0 ∧ (m.copyEntries g f).ram f j = m.ram g j) := by
  unfold Memory.copyEntries
  simp only
  split
  · rename_i h
    exact Or.inr ⟨h.2.1, h.2.2.1, h.2.2.2, rfl⟩
  · exact Or.inl rfl

theorem copyEntries_ram_of_ne (m : Memory) (g : Word) {f f' : Word} (h : f' ≠ f) (j : Fin 512) :
    (m.copyEntries g f).ram f' j = m.ram f' j := by
  unfold Memory.copyEntries
  simp only
  rw [if_neg (fun hc => h hc.1)]

/-- One copy loop keeps the layout. -/
theorem Tables.copyEntries (T : Tables m kern tag) (ho : o ≠ kern) {f g : Word} {p : List (Fin 512)}
    (hf : tag f = some (o, p)) (hg : tag g = some (kern, p)) (hp : ∀ j, j ≠ 0 → Shareable p j)
    (hW : ∀ j, j ≠ 0 → W (p ++ [j]) (m.ram g j)) : Builds W kern o m tag (m.copyEntries g f) tag := by
  have hne : ∀ {f'}, f' ≠ f → ∀ j, (m.copyEntries g f).ram f' j = m.ram f' j :=
    fun h j => m.copyEntries_ram_of_ne g h j
  refine ⟨⟨T.layout.copy hf hg ho (fun j => ?_) (fun f' o' p' _ hhere j => ?_), T.addr, ?_, T.free,
    fun hq => ⟨(T.pool hq).1, (T.pool hq).2.consumes (.copyEntries m g f)⟩, T.pool_nodup⟩, .copyEntries m g f,
    .refl o tag, Fresh.untagged, ?_, ?_, ?_⟩
  · unfold links
    rcases m.copyEntries_ram g f j with hsame | ⟨hj, -, hzero, hcopy⟩
    · exact Or.inl (by rw [hsame])
    · exact Or.inr ⟨hp j hj, by rw [hzero, decode_zero], by rw [hcopy]⟩
  · unfold links
    rw [hne hhere j]
  · intro f' o' p' j hf' hp' hpresent
    by_cases hhere : f' = f
    · subst hhere
      rw [hf] at hf'
      cases hf'
      rcases m.copyEntries_ram g f' j with hsame | ⟨-, -, -, hcopy⟩
      · rw [hsame] at hpresent ⊢
        exact T.plain j hf hp' hpresent
      · rw [hcopy] at hpresent ⊢
        exact T.plain j hg hp' hpresent
    · rw [hne hhere j] at hpresent ⊢
      exact T.plain j hf' hp' hpresent
  · intro f' q p' hf' hq j
    refine hne ?_ j
    rintro rfl
    rw [hf] at hf'
    cases hf'
    exact hq rfl
  · intro f' p' j hf'
    by_cases hhere : f' = f
    · subst hhere
      rw [hf] at hf'
      cases hf'
      rcases m.copyEntries_ram g f' j with hsame | ⟨hj, -, -, hcopy⟩
      · exact Or.inl ⟨hf, hsame⟩
      · exact Or.inr (Or.inr (Or.inr (by rw [hcopy]; exact hW j hj)))
    · exact Or.inl ⟨hf', hne hhere j⟩
  · intro f' p' is hf' hlen hnot
    refine T.layout.resolve_change (S := fun f' j => f' = f ∧ j ≠ 0) ?_ ?_ hf' rfl
      (by rw [List.length_append]; exact hlen)
    · intro f₁ o₁ p₁ _ j hhere
      unfold links
      by_cases hf₁ : f₁ = f
      · subst hf₁
        rcases m.copyEntries_ram g f₁ j with hsame | ⟨hj, -⟩
        · rw [hsame]
        · exact absurd ⟨rfl, hj⟩ hhere
      · rw [hne hf₁ j]
    · rintro f₁ o₁ p₁ j js hf₁ ⟨rfl, hj⟩ hjs
      rw [hf] at hf₁
      cases hf₁
      refine absurd (hW j hj) (hnot _ _ ?_)
      rw [← hjs]
      exact ⟨js, by rw [List.append_assoc]; rfl⟩

/-- The table behind the first slot, built or found. -/
theorem Tables.ensureFirst (T : Tables m kern tag) (ho : o ≠ kern) {f : Word} {p : List (Fin 512)}
    (hf : tag f = some (o, p)) (hp : p.length < 3) {r : Option Word} (h : m.ensureFirst f = (m', r)) :
    ∃ tag', Builds W kern o m tag m' tag' ∧ ∀ c, r = some c → tag' c = some (o, p ++ [0]) := by
  unfold Memory.ensureFirst at h
  split at h
  · rename_i habsent
    have hcons := Consumes.globalAlloc4k m
    split at h
    · rename_i m₁ halloc
      cases h
      rw [globalAlloc4k_eq_none halloc]
      exact ⟨tag, .refl T, fun c hc => by cases hc⟩
    · rename_i m₁ c halloc
      cases h
      rw [halloc] at hcons
      obtain ⟨T₁, hfresh, hram⟩ := T.globalAlloc4k halloc
      have he := pointsTo_ensureFirst hfresh.reserved.addr
      have hnew : ¬ m.Fresh tag c := fun hc => not_reserved_of_globalAlloc4k halloc hc.reserved
      refine ⟨_, builds_adopt T₁ hf hp hcons hram hfresh hnew habsent he, ?_⟩
      intro d hd
      cases hd
      rw [he.addr]
      exact Layout.setTag_self _ _ _
  · rename_i hpresent
    cases h
    refine ⟨tag, .refl T, fun c hc => ?_⟩
    cases hc
    rcases T.owned_first ho hp f hf with hnone | ⟨c, hlink, htag⟩
    · exact absurd (decode_eq_none.1 hnone) hpresent
    · rw [(decode_eq_table hlink).2.2]
      exact htag

/-- A shareable slot holds what the kernel has there. -/
def Copied (kern : Word) (m : Memory) (tag : Tags) (path : List (Fin 512)) (e : Word) : Prop :=
  ∃ p j g, path = p ++ [j] ∧ Shareable p j ∧ tag g = some (kern, p) ∧ e = m.ram g j

/-- Merging the kernel's entries into a user PML4 builds for the user, and copies. -/
theorem Tables.mergeKernelIntoUserPml4 (T : Tables m kern tag) (ho : o ≠ kern) (hroot : tag o = some (o, [])) :
    ∃ tag', Builds (Copied kern m tag) kern o m tag (m.mergeKernelIntoUserPml4 kern o) tag' := by
  have hcopied : ∀ {p g j}, (p = [] ∨ p = [0] ∨ p = [0, 0]) → j ≠ 0 → tag g = some (kern, p) →
      Copied kern m tag (p ++ [j]) (m.ram g j) := fun hp hj hg => ⟨_, _, _, rfl, ⟨hp, hj⟩, hg, rfl⟩
  unfold Memory.mergeKernelIntoUserPml4
  split
  · exact ⟨tag, .refl T⟩
  · simp only
    have hb₁ : Builds (Copied kern m tag) kern o m tag (m.copyEntries kern o) tag :=
      T.copyEntries ho hroot T.layout.kern_root (fun j hj => ⟨Or.inl rfl, hj⟩)
        fun j hj => hcopied (Or.inl rfl) hj T.layout.kern_root
    generalize m.copyEntries kern o = m₁ at hb₁ ⊢
    split
    · exact ⟨tag, hb₁⟩
    · rename_i hpresent
      have hpdpt : tag (m₁.ram kern 0 &&& pteAddrMask) = some (kern, [0]) :=
        hb₁.tables.kern_child hb₁.tables.layout.kern_root (decode_upper hpresent (by decide))
      generalize m₁.ram kern 0 &&& pteAddrMask = kernPdpt at hpdpt ⊢
      split
      · rename_i m₂ h₂
        obtain ⟨tag₂, hb₂, -⟩ := hb₁.tables.ensureFirst ho hroot (by decide) h₂
        exact ⟨tag₂, hb₁.trans hb₂⟩
      · rename_i m₂ userPdpt h₂
        obtain ⟨tag₂, hb₂, huser⟩ := hb₁.tables.ensureFirst ho hroot (by decide) h₂
        have hb₁₂ := hb₁.trans hb₂
        have hb₃ : Builds (Copied kern m tag) kern o m₂ tag₂ (m₂.copyEntries kernPdpt userPdpt) tag₂ := by
          refine hb₂.tables.copyEntries ho (huser userPdpt rfl) (hb₂.grows.keeps hpdpt)
            (fun j hj => ⟨Or.inr (Or.inl rfl), hj⟩) fun j hj => ?_
          rw [hb₁₂.others hpdpt ho.symm j]
          exact hcopied (Or.inr (Or.inl rfl)) hj hpdpt
        have hb₁₃ := hb₁₂.trans hb₃
        generalize m₂.copyEntries kernPdpt userPdpt = m₃ at hb₃ hb₁₃ ⊢
        split
        · exact ⟨tag₂, hb₁₃⟩
        · rename_i hpresent₂
          have hpd : tag₂ (m₃.ram kernPdpt 0 &&& pteAddrMask) = some (kern, [0] ++ [0]) :=
            hb₃.tables.kern_child (hb₂.grows.keeps hpdpt) (decode_upper hpresent₂ (by decide))
          have hpd₀ : tag (m₃.ram kernPdpt 0 &&& pteAddrMask) = some (kern, [0, 0]) := by
            rcases hb₂.grows.new hpd with hold | hnew
            · exact hold
            · exact absurd hnew ho.symm
          generalize m₃.ram kernPdpt 0 &&& pteAddrMask = kernPd at hpd hpd₀ ⊢
          split
          · rename_i m₄ h₄
            obtain ⟨tag₄, hb₄, -⟩ := hb₃.tables.ensureFirst ho (huser userPdpt rfl) (by simp) h₄
            exact ⟨tag₄, hb₁₃.trans hb₄⟩
          · rename_i m₄ userPd h₄
            obtain ⟨tag₄, hb₄, huser₂⟩ := hb₃.tables.ensureFirst ho (huser userPdpt rfl) (by simp) h₄
            have hb₁₄ := hb₁₃.trans hb₄
            refine ⟨tag₄, hb₁₄.trans ?_⟩
            refine hb₄.tables.copyEntries ho (huser₂ userPd rfl) (hb₄.grows.keeps hpd)
              (fun j hj => ⟨Or.inr (Or.inr rfl), hj⟩) fun j hj => ?_
            rw [hb₁₄.others hpd₀ ho.symm j]
            exact hcopied (Or.inr (Or.inr rfl)) hj hpd₀

/-- The crash log lies in the first 2 MB, where nothing is shared. -/
theorem Tables.mapCrashLogPage (T : Tables m kern tag) (ho : o ≠ kern) (hroot : tag o = some (o, [])) :
    ∃ tag', Builds (PageAt crashLogPhys crashLogPhys (ptePresent ||| pteWritable)) kern o m tag (m.mapCrashLogPage o) tag' := by
  have h4 : pml4Index crashLogPhys = 0 := by decide
  have h3 : pdptIndex crashLogPhys = 0 := by decide
  have h2 : pdIndex crashLogPhys = 0 := by decide
  refine T.mapPageGlobal hroot ⟨?_, ?_, ?_⟩ rfl
  · rw [h4]
    exact T.owned_first ho (by decide)
  · rw [h3]
    exact T.owned_first ho (by simp)
  · rw [h2]
    exact T.owned_first ho (by simp)

end Merge

end Memory

end Rost
