import Rost.Acpi.Tables

/-!
# The MADT

The table of the interrupt controllers: Local APICs, I/O APICs and overrides of the interrupt sources.
-/

namespace Rost

open Lib (EntryFormat)

namespace Acpi

def maxLocalApics : Nat := 32
def maxIoApics : Nat := 8
def maxIrqOverrides : Nat := 16
def madtHeaderLen : Nat := 44

structure LocalApic where
  acpiId : Byte
  apicId : Byte
  enabled : Bool
deriving DecidableEq

structure IoApic where
  id : Byte
  address : BitVec 32
  gsiBase : BitVec 32
deriving DecidableEq

structure IrqOverride where
  irq : Byte
  gsi : BitVec 32
  flags : BitVec 16
deriving DecidableEq

structure MadtInfo where
  localApicAddr : BitVec 32
  flags : BitVec 32
  localApics : Collected LocalApic maxLocalApics
  ioApics : Collected IoApic maxIoApics
  irqOverrides : Collected IrqOverride maxIrqOverrides

/-- "APIC" -/
def madtSignature : List Byte := [0x41, 0x50, 0x49, 0x43]

/-- One round of the loop, at the entry of `entryLen` bytes at `eptr`. -/
def visitMadt (mem : Readable) (info : MadtInfo) (eptr entryLen : Nat) : Option MadtInfo := do
  let entryType ← readU8 mem (eptr + 0)
  let body := eptr + 2
  if entryType = 0 ∧ 2 + 6 ≤ entryLen then
    let flags ← readU32 mem (body + 2)
    if info.localApics.count < maxLocalApics then
      let acpiId ← readU8 mem (body + 0)
      let apicId ← readU8 mem (body + 1)
      return { info with localApics := info.localApics.push ⟨acpiId, apicId, flags.getLsbD 0⟩ }
    else return info
  else if entryType = 1 ∧ 2 + 10 ≤ entryLen then
    if info.ioApics.count < maxIoApics then
      let id ← readU8 mem (body + 0)
      let address ← readU32 mem (body + 2)
      let gsiBase ← readU32 mem (body + 6)
      return { info with ioApics := info.ioApics.push ⟨id, address, gsiBase⟩ }
    else return info
  else if entryType = 2 ∧ 2 + 8 ≤ entryLen then
    if info.irqOverrides.count < maxIrqOverrides then
      let irq ← readU8 mem (body + 1)
      let gsi ← readU32 mem (body + 2)
      let flags ← readU16 mem (body + 6)
      return { info with irqOverrides := info.irqOverrides.push ⟨irq, gsi, flags⟩ }
    else return info
  else return info

/-- `parse_madt`; the outer `none` is a fault. -/
def parseMadt (mem : Readable) (madtPhys : Nat) : Option (Option MadtInfo) :=
  if madtPhys = 0 then some none
  else
    (tableLen mem madtPhys madtSignature madtHeaderLen).bind fun totalLen =>
      match totalLen with
      | none => some none
      | some totalLen => do
        let localApicAddr ← readU32 mem (madtPhys + 36)
        let flags ← readU32 mem (madtPhys + 40)
        let info ← walk 2 (fun eptr => (readU8 mem (eptr + 1)).map BitVec.toNat) (visitMadt mem) madtPhys totalLen
          (totalLen + 1) madtHeaderLen ⟨localApicAddr, flags, .ofList [], .ofList [], .ofList []⟩
        return some info

/-! ### The entries of the table -/

/-- Type and length take a byte each. -/
def madtFormat : EntryFormat Byte where
  headerSize := 2
  entryLen := fun e => (e.getD 1 0).toNat
  headerSize_pos := by decide
  entryLen_append := by
    intro e rest h
    rw [List.getD_eq_getElem?_getD, List.getElem?_append_left (by omega), ← List.getD_eq_getElem?_getD]

def LocalApic.ofEntry (e : List Byte) : Option LocalApic :=
  if e.getD 0 0 = 0 ∧ 8 ≤ e.length then
    some ⟨e.getD 2 0, e.getD 3 0, (BitVec.ofNat 32 (field e 4 4)).getLsbD 0⟩
  else none

def IoApic.ofEntry (e : List Byte) : Option IoApic :=
  if e.getD 0 0 = 1 ∧ 12 ≤ e.length then
    some ⟨e.getD 2 0, BitVec.ofNat 32 (field e 4 4), BitVec.ofNat 32 (field e 8 4)⟩
  else none

def IrqOverride.ofEntry (e : List Byte) : Option IrqOverride :=
  if e.getD 0 0 = 2 ∧ 10 ≤ e.length then
    some ⟨e.getD 3 0, BitVec.ofNat 32 (field e 4 4), BitVec.ofNat 16 (field e 8 2)⟩
  else none

/-- One entry more. -/
def MadtInfo.add (info : MadtInfo) (e : List Byte) : MadtInfo :=
  { info with
    localApics := (LocalApic.ofEntry e).elim info.localApics info.localApics.push
    ioApics := (IoApic.ofEntry e).elim info.ioApics info.ioApics.push
    irqOverrides := (IrqOverride.ofEntry e).elim info.irqOverrides info.irqOverrides.push }

/-- What the entries `es` are collected to: the first ones of each kind. -/
def MadtInfo.ofEntries (localApicAddr flags : BitVec 32) (es : List (List Byte)) : MadtInfo where
  localApicAddr := localApicAddr
  flags := flags
  localApics := .ofList (es.filterMap LocalApic.ofEntry)
  ioApics := .ofList (es.filterMap IoApic.ofEntry)
  irqOverrides := .ofList (es.filterMap IrqOverride.ofEntry)

/-- What the table in the bytes `bs` says. -/
def madtOf (bs : List Byte) : Option MadtInfo :=
  if Valid madtSignature madtHeaderLen bs then
    some (.ofEntries (BitVec.ofNat 32 (field bs 36 4)) (BitVec.ofNat 32 (field bs 40 4))
      (madtFormat.entries (bs.drop madtHeaderLen)))
  else none

theorem visitMadt_eq {mem : Readable} (info : MadtInfo) {p : Nat} {e : List Byte} (h : Holds mem p e)
    (hwf : madtFormat.Wf e) : visitMadt mem info p e.length = some (info.add e) := by
  have hhead : 2 ≤ e.length := hwf.1
  have htype := readU8_eq h (show 0 < e.length by omega)
  unfold visitMadt MadtInfo.add LocalApic.ofEntry IoApic.ofEntry IrqOverride.ofEntry
  simp only [Option.bind_eq_bind, htype, Option.bind_some, Nat.add_assoc, Nat.reduceAdd, Option.pure_def]
  by_cases hla : e.getD 0 0 = 0 ∧ 8 ≤ e.length
  · have hother : ∀ k n, k ≠ 0 → ¬ (e.getD 0 0 = k ∧ n ≤ e.length) := fun k n hk hand => hk (hand.1.symm.trans hla.1)
    simp only [if_pos hla, if_neg (hother 1 12 (by decide)), if_neg (hother 2 10 (by decide)),
      readU32_eq h (show 4 + 4 ≤ e.length by omega), readU8_eq h (show 2 < e.length by omega),
      readU8_eq h (show 3 < e.length by omega), Option.bind_some, Option.elim_some, Option.elim_none]
    split
    · rfl
    · rw [Collected.push_of_full ‹_›]
  · rw [if_neg hla, if_neg hla]
    by_cases hio : e.getD 0 0 = 1 ∧ 12 ≤ e.length
    · have hother : ¬ (e.getD 0 0 = 2 ∧ 10 ≤ e.length) := by
        rintro ⟨htwo, -⟩
        rw [hio.1] at htwo
        exact absurd htwo (by decide)
      simp only [if_pos hio, if_neg hother, readU32_eq h (show 4 + 4 ≤ e.length by omega),
        readU32_eq h (show 8 + 4 ≤ e.length by omega), readU8_eq h (show 2 < e.length by omega), Option.bind_some,
        Option.elim_some, Option.elim_none]
      split
      · rfl
      · rw [Collected.push_of_full ‹_›]
    · rw [if_neg hio, if_neg hio]
      by_cases hiso : e.getD 0 0 = 2 ∧ 10 ≤ e.length
      · simp only [if_pos hiso, readU32_eq h (show 4 + 4 ≤ e.length by omega),
          readU16_eq h (show 8 + 2 ≤ e.length by omega), readU8_eq h (show 3 < e.length by omega), Option.bind_some,
          Option.elim_some, Option.elim_none]
        split
        · rfl
        · rw [Collected.push_of_full ‹_›]
      · rw [if_neg hiso, if_neg hiso]
        rfl

theorem foldl_add (addr flags : BitVec 32) (done es : List (List Byte)) :
    es.foldl MadtInfo.add (.ofEntries addr flags done) = .ofEntries addr flags (done ++ es) := by
  induction es generalizing done with
  | nil => rw [List.append_nil]; rfl
  | cons e es ih =>
    have hone : (MadtInfo.ofEntries addr flags done).add e = .ofEntries addr flags (done ++ [e]) := by
      unfold MadtInfo.add MadtInfo.ofEntries
      simp only
      rw [Collected.elim_push_ofList, Collected.elim_push_ofList, Collected.elim_push_ofList]
    rw [List.foldl_cons, hone, ih, List.append_assoc]
    rfl

/-- The parser reads nothing but the bytes of the table, returns, and finds its entries. -/
theorem parseMadt_eq {mem : Readable} {base : Nat} {bs : List Byte} (hbase : base ≠ 0) (h : Holds mem base bs)
    (hext : Extent bs) : parseMadt mem base = some (madtOf bs) := by
  unfold parseMadt madtOf
  rw [if_neg hbase, tableLen_eq h hext (by decide), Option.bind_some]
  by_cases hvalid : Valid madtSignature madtHeaderLen bs
  · have hlen : 44 ≤ bs.length := by
      have hdeclared : 44 ≤ declaredLen bs := hvalid.2.1
      unfold Extent at hext
      omega
    have hwalk : walk 2 (fun eptr => (readU8 mem (eptr + 1)).map BitVec.toNat) (visitMadt mem) base bs.length
        (bs.length + 1) madtHeaderLen (.ofEntries (BitVec.ofNat 32 (field bs 36 4)) (BitVec.ofNat 32 (field bs 40 4)) []) =
        some (.ofEntries (BitVec.ofNat 32 (field bs 36 4)) (BitVec.ofNat 32 (field bs 40 4))
          (madtFormat.entries (bs.drop madtHeaderLen))) := by
      have hfold := foldl_add (BitVec.ofNat 32 (field bs 36 4)) (BitVec.ofNat 32 (field bs 40 4)) []
        (madtFormat.entries (bs.drop madtHeaderLen))
      rw [← List.nil_append (madtFormat.entries (bs.drop madtHeaderLen)), ← hfold]
      refine walk_eq (F := madtFormat) (fun p r hr hhead => ?_) (fun info p e he hwf => visitMadt_eq info he hwf)
        (h.drop madtHeaderLen) ?_ ?_
      · rw [readU8_eq hr (show 1 < r.length from hhead)]
        rfl
      · rw [List.length_drop]
        unfold madtHeaderLen
        omega
      · rw [List.length_drop]
        omega
    simp only [if_pos hvalid, readU32_eq h (show 36 + 4 ≤ bs.length by omega),
      readU32_eq h (show 40 + 4 ≤ bs.length by omega), Option.bind_eq_bind, Option.bind_some]
    exact congrArg (fun o => o.bind fun info => some (some info)) hwalk
  · rw [if_neg hvalid, if_neg hvalid]

/-! ### Writing a MADT -/

inductive MadtEntry where
  | localApic (a : LocalApic)
  | ioApic (a : IoApic)
  | irqOverride (o : IrqOverride)

namespace MadtEntry

def toLocalApic? : MadtEntry → Option LocalApic
  | .localApic a => some a
  | _ => none

def toIoApic? : MadtEntry → Option IoApic
  | .ioApic a => some a
  | _ => none

def toIrqOverride? : MadtEntry → Option IrqOverride
  | .irqOverride o => some o
  | _ => none

/-- The bytes of an entry; reserved bytes and the bus are 0. -/
def encode : MadtEntry → List Byte
  | .localApic a => [0, 8, a.acpiId, a.apicId] ++ leBytes 4 (if a.enabled then 1 else 0)
  | .ioApic a => [1, 12, a.id, 0] ++ leBytes 4 a.address.toNat ++ leBytes 4 a.gsiBase.toNat
  | .irqOverride o => [2, 10, 0, o.irq] ++ leBytes 4 o.gsi.toNat ++ leBytes 2 o.flags.toNat

theorem length_encode_le (x : MadtEntry) : x.encode.length ≤ 12 := by
  cases x <;> simp [encode, length_leBytes]

theorem wf_encode (x : MadtEntry) : madtFormat.Wf x.encode := by
  cases x <;> simp [EntryFormat.Wf, madtFormat, encode, length_leBytes]

/-- Each kind is found again, and in no other kind's place. -/
theorem ofEntry_encode (x : MadtEntry) :
    LocalApic.ofEntry x.encode = x.toLocalApic? ∧ IoApic.ofEntry x.encode = x.toIoApic? ∧
      IrqOverride.ofEntry x.encode = x.toIrqOverride? := by
  cases x with
  | localApic a =>
    have hfield : field (encode (.localApic a)) 4 4 = (if a.enabled then 1 else 0) % 256 ^ 4 := by
      have hfield := field_leBytes [0, 8, a.acpiId, a.apicId] [] 4 (if a.enabled then 1 else 0)
      rw [List.append_nil] at hfield
      exact hfield
    have hflags : (BitVec.ofNat 32 (field (encode (.localApic a)) 4 4)).getLsbD 0 = a.enabled := by
      rw [hfield]
      cases a.enabled <;> rfl
    refine ⟨?_, rfl, rfl⟩
    unfold LocalApic.ofEntry
    rw [hflags]
    rfl
  | ioApic a =>
    have haddress : BitVec.ofNat 32 (field (encode (.ioApic a)) 4 4) = a.address :=
      ofNat_field_leBytes [1, 12, a.id, 0] (leBytes 4 a.gsiBase.toNat) a.address (by decide)
    have hbase : BitVec.ofNat 32 (field (encode (.ioApic a)) 8 4) = a.gsiBase :=
      ofNat_last_leBytes ([1, 12, a.id, 0] ++ leBytes 4 a.address.toNat) a.gsiBase (by decide)
    refine ⟨rfl, ?_, rfl⟩
    unfold IoApic.ofEntry
    rw [haddress, hbase]
    rfl
  | irqOverride o =>
    have hgsi : BitVec.ofNat 32 (field (encode (.irqOverride o)) 4 4) = o.gsi :=
      ofNat_field_leBytes [2, 10, 0, o.irq] (leBytes 2 o.flags.toNat) o.gsi (by decide)
    have hflags : BitVec.ofNat 16 (field (encode (.irqOverride o)) 8 2) = o.flags :=
      ofNat_last_leBytes ([2, 10, 0, o.irq] ++ leBytes 4 o.gsi.toNat) o.flags (by decide)
    refine ⟨rfl, rfl, ?_⟩
    unfold IrqOverride.ofEntry
    rw [hgsi, hflags]
    rfl

end MadtEntry

/-- The bytes of a MADT. -/
def encodeMadt (revision : Byte) (oem : Vector Byte 26) (localApicAddr flags : BitVec 32) (xs : List MadtEntry) : List Byte :=
  encodeTable madtSignature revision oem
    (leBytes 4 localApicAddr.toNat ++ leBytes 4 flags.toNat ++ (xs.map MadtEntry.encode).flatten)

private theorem length_flatten_le (xs : List MadtEntry) : (xs.map MadtEntry.encode).flatten.length ≤ 12 * xs.length := by
  induction xs with
  | nil => exact Nat.le_refl _
  | cons x xs ih =>
    have hx := x.length_encode_le
    rw [List.map_cons, List.flatten_cons, List.length_append, List.length_cons]
    omega

/-- A MADT that is written is read back. -/
theorem madtOf_encodeMadt (revision : Byte) (oem : Vector Byte 26) (localApicAddr flags : BitVec 32)
    (xs : List MadtEntry) (hlen : xs.length < 2 ^ 24) :
    Extent (encodeMadt revision oem localApicAddr flags xs) ∧
    madtOf (encodeMadt revision oem localApicAddr flags xs) =
      some ⟨localApicAddr, flags, .ofList (xs.filterMap MadtEntry.toLocalApic?),
        .ofList (xs.filterMap MadtEntry.toIoApic?), .ofList (xs.filterMap MadtEntry.toIrqOverride?)⟩ := by
  have hbody := length_flatten_le xs
  unfold encodeMadt
  generalize htail : leBytes 4 localApicAddr.toNat ++ leBytes 4 flags.toNat ++ (xs.map MadtEntry.encode).flatten = tail
  have htotal : 36 + tail.length < 2 ^ 32 ∧ 8 ≤ tail.length := by
    rw [← htail, List.length_append, List.length_append, length_leBytes, length_leBytes]
    omega
  have hdrop : (encodeTable madtSignature revision oem tail).drop 36 = tail := drop_encodeTable rfl
  refine ⟨extent_encodeTable rfl htotal.1, ?_⟩
  have haddr : BitVec.ofNat 32 (field (encodeTable madtSignature revision oem tail) 36 4) = localApicAddr := by
    have hfield := ofNat_field_leBytes [] (leBytes 4 flags.toNat ++ (xs.map MadtEntry.encode).flatten) localApicAddr
      (n := 4) (by decide)
    rw [List.nil_append, ← List.append_assoc, htail] at hfield
    unfold field
    rw [hdrop]
    exact hfield
  have hflags : BitVec.ofNat 32 (field (encodeTable madtSignature revision oem tail) 40 4) = flags := by
    have hfield := ofNat_field_leBytes (leBytes 4 localApicAddr.toNat) ((xs.map MadtEntry.encode).flatten) flags
      (n := 4) (by decide)
    rw [htail, length_leBytes] at hfield
    unfold field
    rw [← List.drop_drop (i := 4) (j := 36), hdrop]
    exact hfield
  have hentries : madtFormat.entries ((encodeTable madtSignature revision oem tail).drop madtHeaderLen) =
      xs.map MadtEntry.encode := by
    have hrest : tail.drop 8 = (xs.map MadtEntry.encode).flatten := by
      rw [← htail]
      exact List.drop_left' (by rw [List.length_append, length_leBytes, length_leBytes])
    unfold madtHeaderLen
    rw [← List.drop_drop (i := 8) (j := 36), hdrop, hrest]
    refine EntryFormat.entries_flatten fun e he => ?_
    obtain ⟨x, -, rfl⟩ := List.mem_map.1 he
    exact x.wf_encode
  unfold madtOf MadtInfo.ofEntries
  rw [if_pos (valid_encodeTable rfl htotal.1 (by unfold madtHeaderLen; omega)), haddr, hflags, hentries,
    List.filterMap_map, List.filterMap_map, List.filterMap_map]
  have hla : LocalApic.ofEntry ∘ MadtEntry.encode = MadtEntry.toLocalApic? := funext fun x => x.ofEntry_encode.1
  have hio : IoApic.ofEntry ∘ MadtEntry.encode = MadtEntry.toIoApic? := funext fun x => x.ofEntry_encode.2.1
  have hiso : IrqOverride.ofEntry ∘ MadtEntry.encode = MadtEntry.toIrqOverride? := funext fun x => x.ofEntry_encode.2.2
  rw [hla, hio, hiso]

end Acpi

end Rost
