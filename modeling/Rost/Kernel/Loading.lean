import Rost.Kernel.Elf
import Rost.Memory.Mapping

/-!
# What the loader does to the page tables

`load` builds the address space of a process from a fresh PML4 and maps a fresh frame for every page, `spawn_elf` adds
the stack the same way and then merges the kernel's entries.  So the loader builds for the new PML4 only, and the pages
it writes lie in frames that were free before (`Loads`).
-/

namespace Rost

open Lib.TableTree (Layout)
open Lib.TableTree.Layout (setTag)

namespace Memory

/-! ### Writing the contents of a page -/

theorem writeByte_ram_of_ne (m : Memory) {phys f : Word} (h : f ≠ frameOf phys) (b : Byte) (j : Fin 512) :
    (m.writeByte phys b).ram f j = m.ram f j := by
  unfold writeByte
  rw [writeEntry_ram, if_neg (fun hc => h hc.1)]

end Memory

namespace Elf

open Memory (Tables Builds Fresh Reserved Consumes Owned OwnedPath PageAt Copied)

theorem writeBytes_ram_of_ne {p : Word} (hp : IsTableAddr p) {f : Word} (hf : f ≠ p) (m : Memory) (x : Nat)
    (bytes : List Byte) (hlen : x + bytes.length ≤ 4096) (j : Fin 512) :
    (writeBytes m (p + BitVec.ofNat 64 x) bytes).ram f j = m.ram f j := by
  induction bytes generalizing m x with
  | nil => rfl
  | cons b bytes ih =>
    rw [List.length_cons] at hlen
    have hnext : p + BitVec.ofNat 64 x + 1 = p + BitVec.ofNat 64 (x + 1) := by
      rw [BitVec.add_assoc, BitVec.ofNat_add]
      rfl
    unfold writeBytes
    rw [hnext, ih _ (x + 1) (by omega)]
    refine m.writeByte_ram_of_ne ?_ b j
    rw [hp.frameOf_add (by omega)]
    exact hf

theorem length_readBytes {img : Image} {m : Memory} {off n : Nat} {bytes : List Byte}
    (h : img.readBytes m off n = some bytes) : bytes.length = n := by
  induction n generalizing off bytes with
  | zero =>
    cases h
    rfl
  | succ n ih =>
    obtain ⟨b, -, hrest⟩ := Option.bind_eq_some_iff.1 h
    obtain ⟨rest, hr, rfl⟩ := Option.map_eq_some_iff.1 hrest
    rw [List.length_cons, ih hr]

/-- The page is copied into its own frame. -/
theorem copyPage_ram_of_ne {img : Image} {segOff segLen align pageIdx : Nat} {p : Word} {m m' : Memory}
    (hp : IsTableAddr p) (h : copyPage img segOff segLen align pageIdx p m = some m') {f : Word} (hf : f ≠ p)
    (j : Fin 512) : m'.ram f j = m.ram f j := by
  unfold copyPage at h
  simp only at h
  generalize (if pageIdx = 0 then 0 else pageIdx * 4096 - align) = segStart at h
  generalize (if pageIdx = 0 then align else 0) = physOffset at h
  split at h
  · obtain ⟨bytes, hread, rfl⟩ := Option.map_eq_some_iff.1 h
    have hlen := length_readBytes hread
    by_cases hroom : physOffset ≤ 4096
    · exact writeBytes_ram_of_ne hp hf m physOffset bytes (by omega) j
    · have hnil : bytes = [] := List.eq_nil_of_length_eq_zero (by omega)
      rw [hnil]
      rfl
  · cases h
    rfl

/-! ### Loading pages -/

/-- Pages have been mapped for the PML4 `o`, in the frames `D`, which were free before. -/
structure Loads (kern o : Word) (m : Memory) (tag : Tags) (m' : Memory) (tag' : Tags) (D : List Word) : Prop where
  builds : Builds (fun q e => q.length = 4 ∧ e &&& pteAddrMask ∈ D) kern o m tag m' tag'
  data : ∀ f ∈ D, m'.Fresh tag' f ∧ ¬ m.Reserved f

/-- Nothing of the kernel is in the tables of `o` yet. -/
def Unshared (m : Memory) (tag : Tags) (o : Word) : Prop := ∀ p j, p.length < 3 → Owned m tag o p j

section Loads

variable {kern o : Word} {m m₁ m₂ m₃ : Memory} {tag tag₁ tag₂ tag₃ : Tags} {D D₁ D₂ : List Word}

theorem Loads.refl (T : Tables m kern tag) : Loads kern o m tag m tag [] := ⟨.refl T, fun f hf => by cases hf⟩

theorem Loads.trans (h : Loads kern o m₁ tag₁ m₂ tag₂ D₁) (h' : Loads kern o m₂ tag₂ m₃ tag₃ D₂) :
    Loads kern o m₁ tag₁ m₃ tag₃ (D₁ ++ D₂) := by
  refine ⟨(h.builds.mono ?_).trans (h'.builds.mono ?_), fun f hf => ?_⟩
  · exact fun q e hq => ⟨hq.1, List.mem_append_left _ hq.2⟩
  · exact fun q e hq => ⟨hq.1, List.mem_append_right _ hq.2⟩
  · rcases List.mem_append.1 hf with hf | hf
    · exact ⟨h'.builds.fresh (h.data f hf).1, (h.data f hf).2⟩
    · exact ⟨(h'.data f hf).1, fun hres => (h'.data f hf).2 (hres.consumes h.builds.consumes)⟩

theorem Loads.unshared (h : Loads kern o m tag m₁ tag₁ D) (hun : Unshared m tag o) : Unshared m₁ tag₁ o := by
  intro p j hp
  refine h.builds.owned (fun e he => ?_) (hun p j hp)
  have hlen := he.1
  rw [List.length_append, List.length_singleton] at hlen
  omega

theorem Loads.root (h : Loads kern o m tag m₁ tag₁ D) (hroot : tag o = some (o, [])) : tag₁ o = some (o, []) :=
  h.builds.grows.keeps hroot

/-- One page: a frame is handed out, filled and mapped. -/
theorem loads_page (T : Tables m kern tag) (hroot : tag o = some (o, [])) (hun : Unshared m tag o)
    {phys virt flags : Word} {ok : Bool} (halloc : m.globalAlloc4k = (m₁, some phys)) (hcons : Consumes m₁ m₂)
    (hram : ∀ f, f ≠ phys → ∀ j, m₂.ram f j = m₁.ram f j) (hflags : flags &&& pteAddrMask = 0)
    (hmap : m₂.mapPageGlobal o virt phys flags = (m₃, ok)) : ∃ tag', Loads kern o m tag m₃ tag' [phys] := by
  have hcons₁ := Consumes.globalAlloc4k m
  rw [halloc] at hcons₁
  obtain ⟨T₁, hfresh, hram₁⟩ := T.globalAlloc4k halloc
  have hdata : Builds (PageAt virt phys flags) kern o m tag m₂ tag := by
    refine .of_data T (hcons₁.trans hcons) fun f t hf j => ?_
    rw [hram f ?_ j, hram₁]
    rintro rfl
    rw [hfresh.untagged] at hf
    cases hf
  have hpath : OwnedPath m tag o virt := ⟨hun _ _ (by decide), hun _ _ (by simp), hun _ _ (by simp)⟩
  obtain ⟨tag', hb⟩ := hdata.tables.mapPageGlobal hroot (hpath.builds hdata fun _ _ => PageAt.length) hmap
  refine ⟨tag', (hdata.trans hb).mono ?_, ?_⟩
  · rintro q e ⟨rfl, rfl⟩
    refine ⟨rfl, List.mem_singleton.2 ?_⟩
    have hzero : flags &&& ~~~pteHugePage &&& pteAddrMask = 0 := by
      rw [BitVec.and_assoc, BitVec.and_comm (~~~pteHugePage), ← BitVec.and_assoc, hflags]
      exact BitVec.zero_and
    rw [BitVec.and_comm, BitVec.and_or_distrib_left, BitVec.and_comm pteAddrMask (_ &&& ~~~pteHugePage), hzero,
      BitVec.and_comm pteAddrMask, BitVec.and_assoc, BitVec.and_self, hfresh.reserved.addr]
    exact BitVec.or_zero
  · intro f hf
    rw [List.mem_singleton.1 hf]
    exact ⟨hb.fresh (hfresh.consumes hcons), Memory.not_reserved_of_globalAlloc4k halloc⟩

theorem track_subset (frames : List Word) (phys : Word) : track frames phys ⊆ frames ++ [phys] := by
  unfold track
  split
  · exact List.Subset.refl _
  · exact List.subset_append_left _ _

/-- A part of the loader has run: it has mapped pages, and tracks no frames but those. -/
def LoadsTo (kern o : Word) (m : Memory) (tag : Tags) (frames : List Word) (r : Memory × Option (List Word)) : Prop :=
  ∃ tag' D, Loads kern o m tag r.1 tag' D ∧ ∀ frames', r.2 = some frames' → frames' ⊆ frames ++ D

theorem LoadsTo.refl (T : Tables m kern tag) (frames : List Word) (r : Option (List Word))
    (hr : ∀ frames', r = some frames' → frames' = frames) : LoadsTo kern o m tag frames (m, r) := by
  refine ⟨tag, [], .refl T, fun frames' h => ?_⟩
  rw [hr frames' h, List.append_nil]
  exact List.Subset.refl _

theorem LoadsTo.after {frames frames₁ : List Word} {r : Memory × Option (List Word)}
    (h : LoadsTo kern o m₁ tag₁ frames₁ r) (hl : Loads kern o m tag m₁ tag₁ D) (hsub : frames₁ ⊆ frames ++ D) :
    LoadsTo kern o m tag frames r := by
  obtain ⟨tag', D', hl', hframes⟩ := h
  refine ⟨tag', D ++ D', hl.trans hl', fun frames' hr => ?_⟩
  intro f hf
  rcases List.mem_append.1 (hframes frames' hr hf) with hold | hnew
  · rcases List.mem_append.1 (hsub hold) with hold | hnew
    · exact List.mem_append_left _ hold
    · exact List.mem_append_right _ (List.mem_append_left _ hnew)
  · exact List.mem_append_right _ (List.mem_append_right _ hnew)

theorem LoadsTo.stop {frames : List Word} (hl : Loads kern o m tag m₁ tag₁ D) : LoadsTo kern o m tag frames (m₁, none) :=
  ⟨tag₁, D, hl, fun frames' h => by cases h⟩

theorem loadsTo_loadPages {img : Image} {flags virtPageBase : Word} {segOff segLen align count pageIdx : Nat}
    {frames : List Word} {r : Memory × Option (List Word)} (T : Tables m kern tag) (hroot : tag o = some (o, []))
    (hun : Unshared m tag o) (hflags : flags &&& pteAddrMask = 0)
    (h : loadPages img o flags virtPageBase segOff segLen align count pageIdx m frames = some r) :
    LoadsTo kern o m tag frames r := by
  induction count generalizing pageIdx m frames tag with
  | zero =>
    cases h
    exact .refl T frames _ fun frames' h => (Option.some.inj h).symm
  | succ count ih =>
    unfold loadPages at h
    split at h
    · rename_i m₁ halloc
      cases h
      rw [Memory.globalAlloc4k_eq_none halloc]
      exact .refl T frames _ fun frames' h => by cases h
    · rename_i m₁ phys halloc
      simp only at h
      split at h
      · cases h
      · rename_i m₂ hcopy
        have hfresh := (T.globalAlloc4k halloc).2.1
        have hcons : Consumes m₁ m₂ :=
          ((Consumes.frameTag m₁ phys .userOwned).trans (.zeroFrame _ phys)).trans (consumes_copyPage hcopy)
        have hram : ∀ f, f ≠ phys → ∀ j, m₂.ram f j = m₁.ram f j := by
          intro f hf j
          rw [copyPage_ram_of_ne hfresh.reserved.addr hcopy hf j, Memory.zeroFrame_ram, if_neg hf, Memory.frameTag_ram]
        split at h
        · rename_i m₃ hmap
          cases h
          obtain ⟨tag₃, hl⟩ := loads_page T hroot hun halloc hcons hram hflags hmap
          exact .stop hl
        · rename_i m₃ hmap
          obtain ⟨tag₃, hl⟩ := loads_page T hroot hun halloc hcons hram hflags hmap
          exact (ih hl.builds.tables (hl.root hroot) (hl.unshared hun) h).after hl (track_subset frames phys)

theorem segmentFlags_addr (ph : Elf64Phdr) : segmentFlags ph &&& pteAddrMask = 0 := by
  unfold segmentFlags
  simp only
  split <;> split <;> decide

theorem loadsTo_loadSegment {img : Image} {ph : Elf64Phdr} {frames : List Word} {r : Memory × Option (List Word)}
    (T : Tables m kern tag) (hroot : tag o = some (o, [])) (hun : Unshared m tag o)
    (h : loadSegment img o ph m frames = some r) : LoadsTo kern o m tag frames r := by
  unfold loadSegment at h
  split at h
  · cases h
    exact .refl T frames _ fun frames' h => (Option.some.inj h).symm
  · split at h
    · cases h
      exact .refl T frames _ fun frames' h => by cases h
    · split at h
      · cases h
        exact .refl T frames _ fun frames' h => (Option.some.inj h).symm
      · exact loadsTo_loadPages T hroot hun (segmentFlags_addr ph) h

theorem loadsTo_loadSegments {img : Image} {phoff count i : Nat} {frames : List Word}
    {r : Memory × Option (List Word)} (T : Tables m kern tag) (hroot : tag o = some (o, [])) (hun : Unshared m tag o)
    (h : loadSegments img o phoff count i m frames = some r) : LoadsTo kern o m tag frames r := by
  induction count generalizing i m frames tag with
  | zero =>
    cases h
    exact .refl T frames _ fun frames' h => (Option.some.inj h).symm
  | succ count ih =>
    unfold loadSegments at h
    simp only at h
    split at h
    · cases h
      exact .refl T frames _ fun frames' h => by cases h
    · split at h
      · cases h
      · split at h
        · cases h
        · split at h
          · cases h
          · rename_i m₁ hseg
            cases h
            exact loadsTo_loadSegment T hroot hun hseg
          · rename_i m₁ frames₁ hseg
            obtain ⟨tag₁, D, hl, hsub⟩ := loadsTo_loadSegment T hroot hun hseg
            exact (ih hl.builds.tables (hl.root hroot) (hl.unshared hun) h).after hl (hsub frames₁ rfl)

theorem loadsTo_mapStack {count page : Nat} {frames : List Word} (T : Tables m kern tag) (hroot : tag o = some (o, []))
    (hun : Unshared m tag o) : LoadsTo kern o m tag frames (mapStack o count page m frames) := by
  induction count generalizing page m frames tag with
  | zero => exact .refl T frames _ fun frames' h => (Option.some.inj h).symm
  | succ count ih =>
    unfold mapStack
    split
    · rename_i m₁ halloc
      rw [Memory.globalAlloc4k_eq_none halloc]
      exact .refl T frames _ fun frames' h => by cases h
    · rename_i m₁ phys halloc
      have hram : ∀ f, f ≠ phys → ∀ j, (m₁.zeroFrame phys).ram f j = m₁.ram f j := by
        intro f hf j
        rw [Memory.zeroFrame_ram, if_neg hf]
      simp only
      generalize userStackTop - BitVec.ofNat 64 (userStackPages * 4096) + BitVec.ofNat 64 (page * 4096) = virt
      split
      · rename_i m₃ hmap
        obtain ⟨tag₃, hl⟩ := loads_page T hroot hun halloc (.zeroFrame m₁ phys) hram (by decide) hmap
        exact .stop hl
      · rename_i m₃ hmap
        obtain ⟨tag₃, hl⟩ := loads_page T hroot hun halloc (.zeroFrame m₁ phys) hram (by decide) hmap
        exact (ih hl.builds.tables (hl.root hroot) (hl.unshared hun)).after hl (track_subset frames phys)

end Loads

/-! ### A new address space -/

/-- The crash-log page of an address space. -/
def CrashLogAt : List (Fin 512) → Word → Prop := PageAt crashLogPhys crashLogPhys (ptePresent ||| pteWritable)

/-- The address space with the PML4 `o` has been made: its own pages lie in the frames `D`, which were free before like
`o` itself; the rest is the kernel's, and the crash log. -/
structure NewSpace (kern o : Word) (m : Memory) (tag : Tags) (m' : Memory) (tag' : Tags) (D : List Word) : Prop where
  tables : Tables m' kern tag'
  consumes : Consumes m m'
  grows : Memory.Grows o tag tag'
  root : tag' o = some (o, [])
  ne_kern : o ≠ kern
  untagged : tag o = none
  unreserved : ¬ m.Reserved o
  others : ∀ {f t}, tag f = some t → ∀ j, m'.ram f j = m.ram f j
  spares : ∀ {f}, m.Fresh tag f → tag' f = none
  slots : ∀ {f p} j, tag' f = some (o, p) → m'.links (3 - p.length) f j = .none ∨
    (∃ c, m'.links (3 - p.length) f j = .table c ∧ tag' c = some (o, p ++ [j])) ∨
    (p.length = 3 ∧ m'.ram f j &&& pteAddrMask ∈ D) ∨ Copied kern m tag (p ++ [j]) (m'.ram f j) ∨
    CrashLogAt (p ++ [j]) (m'.ram f j)
  data : ∀ f ∈ D, m'.Fresh tag' f ∧ ¬ m.Reserved f

section NewSpace

variable {kern o : Word} {m m₁ m' : Memory} {tag tag' : Tags}

/-- A fresh zeroed frame as the PML4 of an empty address space. -/
theorem newRoot (T : Tables m kern tag) (halloc : m.globalAlloc4k = (m₁, some o)) :
    Tables (m₁.zeroFrame o) kern (setTag tag o (o, [])) ∧ Unshared (m₁.zeroFrame o) (setTag tag o (o, [])) o := by
  obtain ⟨T₁, hfresh, -⟩ := T.globalAlloc4k halloc
  have hne : ∀ {f t}, tag f = some t → f ≠ o := by
    rintro f t hf rfl
    rw [hfresh.untagged] at hf
    cases hf
  have hzero : ∀ j, (m₁.zeroFrame o).ram o j = 0 := by
    intro j
    rw [Memory.zeroFrame_ram, if_pos rfl]
  refine ⟨T₁.addRoot hfresh (.zeroFrame m₁ o) (fun f t hf j => ?_) hzero, fun p j hp f hf => Or.inl ?_⟩
  · rw [Memory.zeroFrame_ram, if_neg (hne hf)]
  · rcases Layout.setTag_eq_some hf with ⟨rfl, -⟩ | ⟨-, hf⟩
    · unfold Memory.links
      rw [hzero j, decode_zero]
    · -- no table had this owner before
      have hroot := T₁.layout.root_of_tag hf
      rw [hfresh.untagged] at hroot
      cases hroot

/-- The kernel's tables are the same while a user's are built, so what is copied is the same too. -/
private theorem Copied.before {W : List (Fin 512) → Word → Prop} {m₂ : Memory} {tag₂ : Tags} (ho : o ≠ kern)
    (hb : Builds W kern o m tag m₂ tag₂) {q : List (Fin 512)} {e : Word} (h : Copied kern m₂ tag₂ q e) :
    Copied kern m tag q e := by
  obtain ⟨p, j, g, hq, hshare, hg, he⟩ := h
  have hg' : tag g = some (kern, p) := by
    rcases hb.grows.new hg with hold | hnew
    · exact hold
    · exact absurd hnew ho.symm
  exact ⟨p, j, g, hq, hshare, hg', by rw [he, hb.others hg' ho.symm j]⟩

/-- The pages of the address space have been loaded, now it gets the kernel's entries and the crash log. -/
theorem newSpace (T : Tables m kern tag) (halloc : m.globalAlloc4k = (m₁, some o)) {m₂ : Memory} {tag₂ : Tags}
    {D : List Word} (hl : Loads kern o (m₁.zeroFrame o) (setTag tag o (o, [])) m₂ tag₂ D) :
    ∃ tag', NewSpace kern o m tag ((m₂.mergeKernelIntoUserPml4 kern o).mapCrashLogPage o) tag' D := by
  obtain ⟨T₁, hfresh, hram₁⟩ := T.globalAlloc4k halloc
  have hcons₁ : Consumes m (m₁.zeroFrame o) := by
    have hcons := Consumes.globalAlloc4k m
    rw [halloc] at hcons
    exact hcons.trans (.zeroFrame m₁ o)
  have hne : o ≠ kern := by
    rintro rfl
    have hnone := hfresh.untagged
    rw [T.layout.kern_root] at hnone
    cases hnone
  have hroot : setTag tag o (o, []) o = some (o, []) := Layout.setTag_self _ _ _
  obtain ⟨tag₃, hb₃⟩ := hl.builds.tables.mergeKernelIntoUserPml4 hne (hl.root hroot)
  obtain ⟨tag₄, hb₄⟩ := hb₃.tables.mapCrashLogPage hne (hb₃.grows.keeps (hl.root hroot))
  have hcopied : ∀ {q e}, Copied kern m₂ tag₂ q e → Copied kern m tag q e := by
    intro q e hc
    obtain ⟨p, j, g, hq, hshare, hg, he⟩ := Copied.before hne hl.builds hc
    rcases Layout.setTag_eq_some hg with ⟨rfl, heq⟩ | ⟨hg₀, hg'⟩
    · exact absurd (Prod.mk.inj heq).1.symm hne
    · refine ⟨p, j, g, hq, hshare, hg', ?_⟩
      rw [he, Memory.zeroFrame_ram, if_neg hg₀, hram₁]
  -- all that has been written, in one relation
  have hb : Builds (fun q e => (q.length = 4 ∧ e &&& pteAddrMask ∈ D) ∨ Copied kern m tag q e ∨ CrashLogAt q e) kern o
      (m₁.zeroFrame o) (setTag tag o (o, [])) ((m₂.mergeKernelIntoUserPml4 kern o).mapCrashLogPage o) tag₄ :=
    ((hl.builds.mono fun _ _ => Or.inl).trans (hb₃.mono fun _ _ h => Or.inr (Or.inl (hcopied h)))).trans
      (hb₄.mono fun _ _ h => Or.inr (Or.inr h))
  have hold : ∀ {f t}, tag f = some t → f ≠ o ∧ setTag tag o (o, []) f = some t ∧ t.1 ≠ o := by
    intro f t hf
    refine ⟨?_, Layout.setTag_of_tagged _ hfresh.untagged hf, ?_⟩
    · rintro rfl
      rw [hfresh.untagged] at hf
      cases hf
    · intro ht
      have := T.layout.root_of_tag (o := t.1) (p := t.2) hf
      rw [ht, hfresh.untagged] at this
      cases this
  refine ⟨tag₄, hb.tables, hcons₁.trans hb.consumes, (Memory.Grows.setTag [] hfresh.untagged).trans hb.grows,
    hb.grows.keeps hroot, hne, hfresh.untagged, Memory.not_reserved_of_globalAlloc4k halloc, ?_, ?_, ?_, ?_⟩
  · intro f t hf j
    obtain ⟨hfo, htag, hto⟩ := hold hf
    rw [hb.others (q := t.1) (p := t.2) htag hto j, Memory.zeroFrame_ram, if_neg hfo, hram₁]
  · intro f hf
    refine hb.spares ⟨?_, hf.reserved.consumes hcons₁, (hf.consumes hcons₁).not_pooled⟩
    rw [Layout.setTag_of_ne, hf.untagged]
    rintro rfl
    exact Memory.not_reserved_of_globalAlloc4k halloc hf.reserved
  · intro f p j hf
    rcases hb.slots j hf with ⟨hf₀, hsame⟩ | hnone | hown | ⟨hlen, hmem⟩ | hcopy | hcrash
    · -- the new PML4 was empty
      refine Or.inl ?_
      rcases Layout.setTag_eq_some hf₀ with ⟨rfl, -⟩ | ⟨-, hf₁⟩
      · unfold Memory.links
        rw [hsame, Memory.zeroFrame_ram, if_pos rfl, decode_zero]
      · exact absurd rfl (hold hf₁).2.2
    · exact Or.inl hnone
    · exact Or.inr (Or.inl hown)
    · rw [List.length_append, List.length_singleton] at hlen
      exact Or.inr (Or.inr (Or.inl ⟨by omega, hmem⟩))
    · exact Or.inr (Or.inr (Or.inr (Or.inl hcopy)))
    · exact Or.inr (Or.inr (Or.inr (Or.inr hcrash)))
  · intro f hf
    obtain ⟨hfr, hres⟩ := hl.data f hf
    exact ⟨hb₄.fresh (hb₃.fresh hfr), fun h => hres (h.consumes hcons₁)⟩

/-- The page tables are as they were; a part of the free frames may be lost. -/
structure LeavesTables (m : Memory) (tag : Tags) (m' : Memory) : Prop where
  consumes : Consumes m m'
  ram : ∀ f t, tag f = some t → ∀ j, m'.ram f j = m.ram f j

theorem NewSpace.leavesTables {D : List Word} (h : NewSpace kern o m tag m' tag' D) : LeavesTables m tag m' :=
  ⟨h.consumes, fun _ _ hf j => h.others hf j⟩

/-- The pages of an address space that is given up again. -/
private theorem leavesTables_of_loads (T : Tables m kern tag) (halloc : m.globalAlloc4k = (m₁, some o)) {D : List Word}
    {m₂ : Memory} {tag₂ : Tags} (hl : Loads kern o (m₁.zeroFrame o) (setTag tag o (o, [])) m₂ tag₂ D) :
    LeavesTables m tag m₂ := by
  obtain ⟨T₁, hfresh, hram₁⟩ := T.globalAlloc4k halloc
  have hcons := Consumes.globalAlloc4k m
  rw [halloc] at hcons
  refine ⟨(hcons.trans (.zeroFrame m₁ o)).trans hl.builds.consumes, fun f t hf j => ?_⟩
  have hfo : f ≠ o := by
    rintro rfl
    rw [hfresh.untagged] at hf
    cases hf
  have hto : t.1 ≠ o := by
    intro ht
    have hroot := T.layout.root_of_tag (o := t.1) (p := t.2) hf
    rw [ht, hfresh.untagged] at hroot
    cases hroot
  rw [hl.builds.others (q := t.1) (p := t.2) (Layout.setTag_of_tagged _ hfresh.untagged hf) hto j, Memory.zeroFrame_ram,
    if_neg hfo, hram₁]

/-- Loading an image: nothing happens, or the segments go into a fresh PML4. -/
private theorem load_cases (T : Tables m kern tag) {img : Image} {r : Option LoadedElf}
    (h : load m img none = some (m', r)) : (m' = m ∧ r = none) ∨
      ∃ o m₁ tag' D, m.globalAlloc4k = (m₁, some o) ∧
        Loads kern o (m₁.zeroFrame o) (setTag tag o (o, [])) m' tag' D ∧
        ∀ l, r = some l → l.pml4Phys = o ∧ l.frames ⊆ o :: D := by
  unfold load at h
  split at h
  · cases h
    exact Or.inl ⟨rfl, rfl⟩
  · split at h
    · cases h
    · simp only at h
      split at h
      · cases h
        exact Or.inl ⟨rfl, rfl⟩
      · split at h
        · rename_i m₁ halloc
          cases h
          exact Or.inl ⟨Memory.globalAlloc4k_eq_none halloc, rfl⟩
        · rename_i m₁ o halloc
          obtain ⟨⟨m₂, frames⟩, hseg, heq⟩ := Option.map_eq_some_iff.1 h
          simp only [Prod.mk.injEq] at heq
          obtain ⟨rfl, rfl⟩ := heq
          obtain ⟨T₀, hun⟩ := newRoot T halloc
          obtain ⟨tag', D, hl, hsub⟩ := loadsTo_loadSegments T₀ (Layout.setTag_self _ _ _) hun hseg
          refine Or.inr ⟨o, m₁, tag', D, halloc, hl, fun l hlf => ?_⟩
          obtain ⟨fs, hfs, rfl⟩ := Option.map_eq_some_iff.1 hlf
          exact ⟨rfl, hsub fs hfs⟩

/-- Spawning an image: without a process the page tables are as they were; a process gets a new address space, and its
record lists frames of it. -/
theorem spawnElf_cases (T : Tables m kern tag) {s s' : Scheduler} {img : Image} {priority : Nat} {pid : Option Nat}
    (h : spawnElf m s kern img priority = some (m', s', pid)) :
    (pid = none ∧ LeavesTables m tag m' ∧ (s' = s ∨ ∃ o, s.addRing3Process o = some (s', none))) ∨
    ∃ p o tag' D frames s₁, pid = some p ∧ NewSpace kern o m tag m' tag' D ∧ frames ⊆ o :: D ∧
      s.addRing3Process o = some (s₁, some p) ∧
      s' = (if 0 < priority then s₁.setPriority p priority else s₁).registerUserFrames p frames := by
  unfold spawnElf at h
  split at h
  · cases h
  · rename_i m₁ hload
    cases h
    refine Or.inl ⟨rfl, ?_, Or.inl rfl⟩
    rcases load_cases T hload with ⟨rfl, -⟩ | ⟨o, m₀, tag', D, halloc, hl, -⟩
    · exact ⟨.refl _, fun _ _ _ _ => rfl⟩
    · exact leavesTables_of_loads T halloc hl
  · rename_i m₁ loaded hload
    rcases load_cases T hload with ⟨-, hr⟩ | ⟨o, m₀, tag₁, D₁, halloc, hl, hloaded⟩
    · cases hr
    · obtain ⟨hpml4, hframes⟩ := hloaded loaded rfl
      obtain ⟨T₀, hun⟩ := newRoot T halloc
      have hroot : setTag tag o (o, []) o = some (o, []) := Layout.setTag_self _ _ _
      rw [hpml4] at h
      have hstack : LoadsTo kern o m₁ tag₁ loaded.frames (mapStack o userStackPages 0 m₁ loaded.frames) :=
        loadsTo_mapStack hl.builds.tables (hl.root hroot) (hl.unshared hun)
      have hframes' : loaded.frames ⊆ [o] ++ D₁ := hframes
      obtain ⟨tag₂, D₂, hl₂, hsub⟩ := hstack.after hl hframes'
      split at h
      · rename_i m₂ hs
        rw [hs] at hl₂
        cases h
        exact Or.inl ⟨rfl, leavesTables_of_loads T halloc hl₂, Or.inl rfl⟩
      · rename_i m₂ frames hs
        rw [hs] at hl₂ hsub
        obtain ⟨tag', hspace⟩ := newSpace T halloc hl₂
        simp only at h
        split at h
        · cases h
        · rename_i s₁ hadd
          cases h
          exact Or.inl ⟨rfl, hspace.leavesTables, Or.inr ⟨o, hadd⟩⟩
        · rename_i s₁ p hadd
          cases h
          exact Or.inr ⟨p, o, tag', D₂, frames, s₁, rfl, hspace, hsub frames rfl, hadd, rfl⟩

end NewSpace

end Elf

end Rost
