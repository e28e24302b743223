import Rost.Acpi.Madt

/-!
# The DMAR

The table of the DMA remapping units; of its entries only those of type 0 are decoded.
-/

namespace Rost

open Lib (EntryFormat)

namespace Acpi

def maxDrhUnits : Nat := 8
def dmarHeaderLen : Nat := 48
def drhdMinLen : Nat := 16

structure DrhUnit where
  flags : Byte
  segment : BitVec 16
  registerBase : Word
deriving DecidableEq

structure DmarInfo where
  hostAddressWidth : Byte
  flags : Byte
  units : Collected DrhUnit maxDrhUnits

/-- "DMAR" -/
def dmarSignature : List Byte := [0x44, 0x4D, 0x41, 0x52]

/-- One round of the loop, at the entry of `entryLen` bytes at `entry`. -/
def visitDmar (mem : Readable) (info : DmarInfo) (entry entryLen : Nat) : Option DmarInfo := do
  let entryType ← readU16 mem (entry + 0)
  if entryType = 0 ∧ drhdMinLen ≤ entryLen then
    let drhdFlags ← readU8 mem (entry + 4)
    let segment ← readU16 mem (entry + 6)
    let registerBase ← readU64 mem (entry + 8)
    if info.units.count < maxDrhUnits then
      return { info with units := info.units.push ⟨drhdFlags, segment, registerBase⟩ }
    else return info
  else return info

/-- `parse_dmar`; the outer `none` is a fault.  Here the offset of the loop is an address. -/
def parseDmar (mem : Readable) (dmarPhys : Nat) : Option (Option DmarInfo) :=
  if dmarPhys = 0 then some none
  else
    (tableLen mem dmarPhys dmarSignature dmarHeaderLen).bind fun len =>
      match len with
      | none => some none
      | some len => do
        let hostAddressWidth ← readU8 mem (dmarPhys + 36)
        let flags ← readU8 mem (dmarPhys + 37)
        let info ← walk 4 (fun entry => (readU16 mem (entry + 2)).map BitVec.toNat) (visitDmar mem) 0 (dmarPhys + len)
          (len + 1) (dmarPhys + dmarHeaderLen) ⟨hostAddressWidth, flags, .ofList []⟩
        return some info

/-! ### The entries of the table -/

theorem entryHeader_pos : 0 < 4 := by decide

/-- Type and length take two bytes each. -/
def dmarFormat : EntryFormat Byte where
  headerSize := 4
  entryLen := fun e => field e 2 2
  headerSize_pos := entryHeader_pos
  entryLen_append := by
    intro e rest h
    unfold field
    rw [List.drop_append_of_le_length (by omega), List.take_append_of_le_length (by rw [List.length_drop]; omega)]

def DrhUnit.ofEntry (e : List Byte) : Option DrhUnit :=
  if field e 0 2 = 0 ∧ 16 ≤ e.length then
    some ⟨e.getD 4 0, BitVec.ofNat 16 (field e 6 2), BitVec.ofNat 64 (field e 8 8)⟩
  else none

/-- One entry more. -/
def DmarInfo.add (info : DmarInfo) (e : List Byte) : DmarInfo :=
  { info with units := (DrhUnit.ofEntry e).elim info.units info.units.push }

/-- What the entries `es` are collected to. -/
def DmarInfo.ofEntries (hostAddressWidth flags : Byte) (es : List (List Byte)) : DmarInfo where
  hostAddressWidth := hostAddressWidth
  flags := flags
  units := .ofList (es.filterMap DrhUnit.ofEntry)

/-- What the table in the bytes `bs` says. -/
def dmarOf (bs : List Byte) : Option DmarInfo :=
  if Valid dmarSignature dmarHeaderLen bs then
    some (.ofEntries (bs.getD 36 0) (bs.getD 37 0) (dmarFormat.entries (bs.drop dmarHeaderLen)))
  else none

theorem visitDmar_eq {mem : Readable} (info : DmarInfo) {p : Nat} {e : List Byte} (h : Holds mem p e)
    (hwf : dmarFormat.Wf e) : visitDmar mem info p e.length = some (info.add e) := by
  have hhead : 4 ≤ e.length := hwf.1
  have htype : BitVec.ofNat 16 (field e 0 2) = 0 ↔ field e 0 2 = 0 := by
    have hlt : field e 0 2 < 2 ^ 16 := field_lt e 0 2
    rw [← BitVec.toNat_inj, BitVec.toNat_ofNat, Nat.mod_eq_of_lt hlt]
    rfl
  unfold visitDmar DmarInfo.add DrhUnit.ofEntry drhdMinLen
  simp only [Option.bind_eq_bind, readU16_eq h (show 0 + 2 ≤ e.length by omega), Option.bind_some, Option.pure_def,
    htype]
  by_cases hdrhd : field e 0 2 = 0 ∧ 16 ≤ e.length
  · simp only [if_pos hdrhd, readU8_eq h (show 4 < e.length by omega), readU16_eq h (show 6 + 2 ≤ e.length by omega),
      readU64_eq h (show 8 + 8 ≤ e.length by omega), Option.bind_some, Option.elim_some]
    split
    · rfl
    · rw [Collected.push_of_full ‹_›]
  · rw [if_neg hdrhd, if_neg hdrhd]
    rfl

private theorem foldl_add_dmar (width flags : Byte) (done es : List (List Byte)) :
    es.foldl DmarInfo.add (.ofEntries width flags done) = .ofEntries width flags (done ++ es) := by
  induction es generalizing done with
  | nil => rw [List.append_nil]; rfl
  | cons e es ih =>
    have hone : (DmarInfo.ofEntries width flags done).add e = .ofEntries width flags (done ++ [e]) := by
      unfold DmarInfo.add DmarInfo.ofEntries
      simp only
      rw [Collected.elim_push_ofList]
    rw [List.foldl_cons, hone, ih, List.append_assoc]
    rfl

/-- The parser reads nothing but the bytes of the table, returns, and finds its entries. -/
theorem parseDmar_eq {mem : Readable} {base : Nat} {bs : List Byte} (hbase : base ≠ 0) (h : Holds mem base bs)
    (hext : Extent bs) : parseDmar mem base = some (dmarOf bs) := by
  unfold parseDmar dmarOf
  rw [if_neg hbase, tableLen_eq h hext (by decide), Option.bind_some]
  by_cases hvalid : Valid dmarSignature dmarHeaderLen bs
  · have hlen : 48 ≤ bs.length := by
      have hdeclared : 48 ≤ declaredLen bs := hvalid.2.1
      unfold Extent at hext
      omega
    have hwalk : walk 4 (fun entry => (readU16 mem (entry + 2)).map BitVec.toNat) (visitDmar mem) 0 (base + bs.length)
        (bs.length + 1) (base + dmarHeaderLen) (.ofEntries (bs.getD 36 0) (bs.getD 37 0) []) =
        some (.ofEntries (bs.getD 36 0) (bs.getD 37 0) (dmarFormat.entries (bs.drop dmarHeaderLen))) := by
      have hfold := foldl_add_dmar (bs.getD 36 0) (bs.getD 37 0) [] (dmarFormat.entries (bs.drop dmarHeaderLen))
      rw [← List.nil_append (dmarFormat.entries (bs.drop dmarHeaderLen)), ← hfold]
      refine walk_eq (F := dmarFormat) (fun p r hr hhead => ?_) (fun info p e he hwf => visitDmar_eq info he hwf) ?_ ?_ ?_
      · rw [readU16_eq hr (show 2 + 2 ≤ r.length from hhead), Option.map_some, BitVec.toNat_ofNat]
        exact congrArg some (Nat.mod_eq_of_lt (field_lt r 2 2))
      · rw [Nat.zero_add]
        exact h.drop dmarHeaderLen
      · rw [List.length_drop]
        unfold dmarHeaderLen
        omega
      · rw [List.length_drop]
        omega
    simp only [if_pos hvalid, readU8_eq h (show 36 < bs.length by omega), readU8_eq h (show 37 < bs.length by omega),
      Option.bind_eq_bind, Option.bind_some]
    exact congrArg (fun o => o.bind fun info => some (some info)) hwalk
  · rw [if_neg hvalid, if_neg hvalid]

/-! ### Writing a DMAR -/

namespace DrhUnit

/-- The bytes of an entry; the reserved byte is 0. -/
def encode (u : DrhUnit) : List Byte :=
  [0, 0, 16, 0, u.flags, 0] ++ leBytes 2 u.segment.toNat ++ leBytes 8 u.registerBase.toNat

theorem length_encode (u : DrhUnit) : u.encode.length = 16 := by
  simp [encode, length_leBytes]

theorem wf_encode (u : DrhUnit) : dmarFormat.Wf u.encode := by
  have hlen : dmarFormat.entryLen u.encode = 16 := rfl
  exact ⟨by rw [u.length_encode]; decide, by rw [hlen, u.length_encode]⟩

theorem ofEntry_encode (u : DrhUnit) : ofEntry u.encode = some u := by
  have hsegment : BitVec.ofNat 16 (field u.encode 6 2) = u.segment :=
    ofNat_field_leBytes [0, 0, 16, 0, u.flags, 0] (leBytes 8 u.registerBase.toNat) u.segment (by decide)
  have hbase : BitVec.ofNat 64 (field u.encode 8 8) = u.registerBase :=
    ofNat_last_leBytes ([0, 0, 16, 0, u.flags, 0] ++ leBytes 2 u.segment.toNat) u.registerBase (by decide)
  unfold ofEntry
  rw [hsegment, hbase, if_pos ⟨rfl, by rw [u.length_encode]⟩]
  rfl

end DrhUnit

/-- The bytes of a DMAR. -/
def encodeDmar (revision : Byte) (oem : Vector Byte 26) (hostAddressWidth flags : Byte) (reserved : Vector Byte 10)
    (us : List DrhUnit) : List Byte :=
  encodeTable dmarSignature revision oem
    ([hostAddressWidth, flags] ++ reserved.toList ++ (us.map DrhUnit.encode).flatten)

private theorem length_flatten_units (us : List DrhUnit) : (us.map DrhUnit.encode).flatten.length = 16 * us.length := by
  induction us with
  | nil => rfl
  | cons u us ih =>
    rw [List.map_cons, List.flatten_cons, List.length_append, List.length_cons, ih, u.length_encode]
    omega

/-- A DMAR that is written is read back. -/
theorem dmarOf_encodeDmar (revision : Byte) (oem : Vector Byte 26) (hostAddressWidth flags : Byte)
    (reserved : Vector Byte 10) (us : List DrhUnit) (hlen : us.length < 2 ^ 24) :
    Extent (encodeDmar revision oem hostAddressWidth flags reserved us) ∧
    dmarOf (encodeDmar revision oem hostAddressWidth flags reserved us) =
      some ⟨hostAddressWidth, flags, .ofList us⟩ := by
  have hbody := length_flatten_units us
  unfold encodeDmar
  generalize htail : [hostAddressWidth, flags] ++ reserved.toList ++ (us.map DrhUnit.encode).flatten = tail
  have htotal : 36 + tail.length < 2 ^ 32 ∧ 12 ≤ tail.length := by
    rw [← htail, List.length_append, List.length_append, Vector.length_toList, List.length_cons, List.length_singleton]
    omega
  have hdrop : (encodeTable dmarSignature revision oem tail).drop 36 = tail := drop_encodeTable rfl
  have hget : ∀ k, (encodeTable dmarSignature revision oem tail).getD (36 + k) 0 = tail.getD k 0 := by
    intro k
    rw [List.getD_eq_getElem?_getD, List.getD_eq_getElem?_getD, ← List.getElem?_drop, hdrop]
  have hentries : dmarFormat.entries ((encodeTable dmarSignature revision oem tail).drop dmarHeaderLen) =
      us.map DrhUnit.encode := by
    have hrest : tail.drop 12 = (us.map DrhUnit.encode).flatten := by
      rw [← htail]
      exact List.drop_left' (by rw [List.length_append, Vector.length_toList]; rfl)
    unfold dmarHeaderLen
    rw [← List.drop_drop (i := 12) (j := 36), hdrop, hrest]
    refine EntryFormat.entries_flatten fun e he => ?_
    obtain ⟨u, -, rfl⟩ := List.mem_map.1 he
    exact u.wf_encode
  have hunits : DrhUnit.ofEntry ∘ DrhUnit.encode = some := funext DrhUnit.ofEntry_encode
  have hwidth := hget 0
  have hflags := hget 1
  refine ⟨extent_encodeTable rfl htotal.1, ?_⟩
  unfold dmarOf DmarInfo.ofEntries
  rw [if_pos (valid_encodeTable rfl htotal.1 (by unfold dmarHeaderLen; omega)), hwidth, hflags, hentries,
    List.filterMap_map, hunits, List.filterMap_some, ← htail]
  rfl

/-! ### Both walkers -/

/-- What a result lists; nothing without a result. -/
def listed {ι α : Type} {cap : Nat} (r : Option ι) (f : ι → Collected α cap) : List α := r.elim [] fun info => (f info).toList

private theorem listed_of {ι α : Type} {cap : Nat} {signature : List Byte} {headerLen : Nat} {bs : List Byte}
    {F : EntryFormat Byte} (hext : Extent bs) (hhead : 8 ≤ headerLen) (hsig : bs.take 4 = signature)
    (hsum : (bs.take (declaredLen bs)).foldl (· + ·) 0 = 0) (info : ι) (f : ι → Collected α cap)
    (ofEntry : List Byte → Option α) (hf : f info = .ofList ((F.entries (bs.drop headerLen)).filterMap ofEntry)) :
    listed (if Valid signature headerLen bs then some info else none) f =
      ((F.entries (bs.drop headerLen)).filterMap ofEntry).take cap := by
  unfold Extent at hext
  by_cases hlen : headerLen ≤ declaredLen bs
  · have hall : declaredLen bs = bs.length := by omega
    rw [hall, List.take_length] at hsum
    rw [if_pos ⟨hsig, hlen, hsum⟩]
    show (f info).toList = _
    rw [hf, Collected.toList_ofList]
  · -- a table without room for its header has no entries
    have hnil : bs.drop headerLen = [] := List.drop_eq_nil_of_le (by omega)
    rw [if_neg fun hvalid => hlen hvalid.2.1, hnil, EntryFormat.entries_nil]
    exact (List.take_nil).symm

private theorem toList_ofList_of_le {α : Type} {cap : Nat} {l : List α} (h : l.length ≤ cap) :
    (Collected.ofList l : Collected α cap).toList = l := by
  rw [Collected.toList_ofList, List.take_of_length_le h]

private theorem length_kinds (xs : List MadtEntry) : xs.length = (xs.filterMap MadtEntry.toLocalApic?).length +
    (xs.filterMap MadtEntry.toIoApic?).length + (xs.filterMap MadtEntry.toIrqOverride?).length := by
  induction xs with
  | nil => rfl
  | cons x xs ih =>
    cases x <;>
      simp only [List.filterMap_cons, MadtEntry.toLocalApic?, MadtEntry.toIoApic?, MadtEntry.toIrqOverride?,
        List.length_cons] <;> omega

/-- Whatever a table contains, both parsers return without a read outside of the bytes it declares and its first eight;
with the right signature and checksum, what they list is what the entries of the table are decoded to, in their order and
up to the capacities.  A table that is written from entries within the capacities gives them back. -/
theorem walkers_exact :
    (∀ (mem : Readable) (base : Nat) (bs : List Byte), base ≠ 0 → Holds mem base bs → Extent bs →
      parseMadt mem base = some (madtOf bs) ∧
      (bs.take 4 = madtSignature → (bs.take (declaredLen bs)).foldl (· + ·) 0 = 0 →
        listed (madtOf bs) MadtInfo.localApics =
          ((madtFormat.entries (bs.drop 44)).filterMap LocalApic.ofEntry).take 32 ∧
        listed (madtOf bs) MadtInfo.ioApics = ((madtFormat.entries (bs.drop 44)).filterMap IoApic.ofEntry).take 8 ∧
        listed (madtOf bs) MadtInfo.irqOverrides =
          ((madtFormat.entries (bs.drop 44)).filterMap IrqOverride.ofEntry).take 16) ∧
      parseDmar mem base = some (dmarOf bs) ∧
      (bs.take 4 = dmarSignature → (bs.take (declaredLen bs)).foldl (· + ·) 0 = 0 →
        listed (dmarOf bs) DmarInfo.units = ((dmarFormat.entries (bs.drop 48)).filterMap DrhUnit.ofEntry).take 8)) ∧
    (∀ (mem : Readable) (base : Nat) revision oem addr flags (xs : List MadtEntry), base ≠ 0 →
      (xs.filterMap MadtEntry.toLocalApic?).length ≤ 32 → (xs.filterMap MadtEntry.toIoApic?).length ≤ 8 →
      (xs.filterMap MadtEntry.toIrqOverride?).length ≤ 16 → Holds mem base (encodeMadt revision oem addr flags xs) →
      ∃ info, parseMadt mem base = some (some info) ∧ info.localApicAddr = addr ∧ info.flags = flags ∧
        info.localApics.toList = xs.filterMap MadtEntry.toLocalApic? ∧
        info.ioApics.toList = xs.filterMap MadtEntry.toIoApic? ∧
        info.irqOverrides.toList = xs.filterMap MadtEntry.toIrqOverride?) ∧
    (∀ (mem : Readable) (base : Nat) revision oem width flags reserved (us : List DrhUnit), base ≠ 0 → us.length ≤ 8 →
      Holds mem base (encodeDmar revision oem width flags reserved us) →
      ∃ info, parseDmar mem base = some (some info) ∧ info.hostAddressWidth = width ∧ info.flags = flags ∧
        info.units.toList = us) := by
  refine ⟨fun mem base bs hbase h hext => ⟨parseMadt_eq hbase h hext, fun hsig hsum => ?_, parseDmar_eq hbase h hext,
    fun hsig hsum => ?_⟩, fun mem base revision oem addr flags xs hbase hla hio hiso h => ?_,
    fun mem base revision oem width flags reserved us hbase hus h => ?_⟩
  · unfold madtOf
    exact ⟨listed_of hext (by decide) hsig hsum _ _ _ rfl, listed_of hext (by decide) hsig hsum _ _ _ rfl,
      listed_of hext (by decide) hsig hsum _ _ _ rfl⟩
  · unfold dmarOf
    exact listed_of hext (by decide) hsig hsum _ _ _ rfl
  · have hkinds := length_kinds xs
    obtain ⟨hext, hmadt⟩ := madtOf_encodeMadt revision oem addr flags xs (by omega)
    refine ⟨_, (parseMadt_eq hbase h hext).trans (congrArg some hmadt), rfl, rfl, ?_, ?_, ?_⟩
    · exact toList_ofList_of_le hla
    · exact toList_ofList_of_le hio
    · exact toList_ofList_of_le hiso
  · obtain ⟨hext, hdmar⟩ := dmarOf_encodeDmar revision oem width flags reserved us (by omega)
    exact ⟨_, (parseDmar_eq hbase h hext).trans (congrArg some hdmar), rfl, rfl, toList_ofList_of_le hus⟩

/-- The bytes `bs` at `base`, and nothing else that may be read. -/
def placed (base : Nat) (bs : List Byte) : Readable := fun p => if base ≤ p then bs[p - base]? else none

theorem holds_placed (base : Nat) (bs : List Byte) : Holds (placed base bs) base bs := by
  intro i _
  unfold placed
  rw [if_pos (Nat.le_add_right base i), Nat.add_sub_cancel_left]

/-- A MADT with two entries of different kinds. -/
theorem walkers_exact_two :
    ∃ info, parseMadt (placed 4096 (encodeMadt 5 (Vector.replicate 26 0) 0xFEE00000 1
        [.irqOverride ⟨0, 2, 5⟩, .localApic ⟨1, 4, true⟩])) 4096 = some (some info) ∧
      info.localApics.toList = [⟨1, 4, true⟩] ∧ info.irqOverrides.toList = [⟨0, 2, 5⟩] := by
  obtain ⟨info, hparse, -, -, hla, -, hiso⟩ := walkers_exact.2.1 _ 4096 5 (Vector.replicate 26 0) 0xFEE00000 1
    [.irqOverride ⟨0, 2, 5⟩, .localApic ⟨1, 4, true⟩] (by decide) (by decide) (by decide) (by decide) (holds_placed 4096 _)
  exact ⟨info, hparse, hla, hiso⟩

end Acpi

end Rost
