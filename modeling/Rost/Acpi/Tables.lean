import Mathlib.Data.BitVec
import Mathlib.Tactic.Ring
import Rost.Kernel.State
import Rost.Lib.Entries

/-!
# ACPI tables

Reading a table of the firmware: signature, declared length and checksum, then a walk over entries that carry their
length.  A read of memory that is not readable is a fault (`none`).  When the memory holds a table (`Holds`), no read
goes beyond its bytes, and the walk visits the entries of the list (`walk_eq`).
-/

namespace Rost

open Lib (EntryFormat)

namespace Acpi

/-- The memory that may be read, through the identity map. -/
abbrev Readable := Nat → Option Byte

/-! ### Reads -/

def bytesAt (mem : Readable) (ptr : Nat) : Nat → Option (List Byte)
  | 0 => some []
  | n + 1 => (mem ptr).bind fun b => (bytesAt mem (ptr + 1) n).map (b :: ·)

def readU8 (mem : Readable) (ptr : Nat) : Option Byte := mem ptr

def readU16 (mem : Readable) (ptr : Nat) : Option (BitVec 16) := (bytesAt mem ptr 2).map fun b => BitVec.ofNat 16 (leNat b)

def readU32 (mem : Readable) (ptr : Nat) : Option (BitVec 32) := (bytesAt mem ptr 4).map fun b => BitVec.ofNat 32 (leNat b)

def readU64 (mem : Readable) (ptr : Nat) : Option (BitVec 64) := (bytesAt mem ptr 8).map fun b => BitVec.ofNat 64 (leNat b)

/-- `sum` and the next bytes, modulo 256. -/
def sumBytes (mem : Readable) (ptr : Nat) : Nat → Byte → Option Byte
  | 0, sum => some sum
  | n + 1, sum => (mem ptr).bind fun b => sumBytes mem (ptr + 1) n (sum + b)

def checksumValid (mem : Readable) (ptr len : Nat) : Option Bool := (sumBytes mem ptr len 0).map fun sum => sum == 0

/-- The checks before a walk: the declared length of a table with this signature, if it is valid. -/
def tableLen (mem : Readable) (phys : Nat) (signature : List Byte) (headerLen : Nat) : Option (Option Nat) := do
  let sig ← bytesAt mem phys 4
  if sig ≠ signature then return none
  let total ← readU32 mem (phys + 4)
  if total.toNat < headerLen then return none
  let valid ← checksumValid mem phys total.toNat
  return if valid then some total.toNat else none

/-- The loop over the entries from `offset` on: an entry is visited with its address and its length, as long as its header
and then the whole entry lie before `stop`. -/
def walk {σ : Type} (headerSize : Nat) (entryLen : Nat → Option Nat) (visit : σ → Nat → Nat → Option σ)
    (base stop : Nat) : Nat → Nat → σ → Option σ
  | 0, _, _ => none
  | fuel + 1, offset, info =>
    if offset + headerSize ≤ stop then
      (entryLen (base + offset)).bind fun len =>
        if len < headerSize then some info
        else if stop < offset + len then some info
        else (visit info (base + offset) len).bind fun info =>
          walk headerSize entryLen visit base stop fuel (offset + len) info
    else some info

/-! ### An array with a count -/

/-- The fixed array of an info structure with the number of its entries. -/
structure Collected (α : Type) (cap : Nat) where
  items : Vector (Option α) cap
  count : Nat

namespace Collected

variable {α : Type} {cap : Nat}

/-- Entries beyond the capacity are dropped. -/
def push (c : Collected α cap) (x : α) : Collected α cap :=
  if h : c.count < cap then ⟨c.items.set c.count (some x) h, c.count + 1⟩ else c

/-- The array with as many elements of `l` as it has room for. -/
def ofList (l : List α) : Collected α cap := ⟨Vector.ofFn fun i => l[i.val]?, min l.length cap⟩

/-- What an iterator over the array returns. -/
def toList (c : Collected α cap) : List α := (c.items.toList.take c.count).filterMap id

theorem push_ofList (l : List α) (x : α) : (ofList l : Collected α cap).push x = ofList (l ++ [x]) := by
  unfold push ofList
  simp only [List.length_append, List.length_singleton]
  split
  · rename_i hroom
    have hlen : min l.length cap = l.length := by omega
    congr 1
    · refine Vector.ext fun i hi => ?_
      rw [Vector.getElem_set, Vector.getElem_ofFn, Vector.getElem_ofFn]
      simp only [hlen]
      by_cases hil : l.length = i
      · rw [if_pos hil, List.getElem?_append_right (by omega), hil, Nat.sub_self]
        rfl
      · rw [if_neg hil]
        rcases Nat.lt_or_ge i l.length with hlt | hge
        · rw [List.getElem?_append_left hlt]
        · rw [List.getElem?_eq_none hge, List.getElem?_eq_none (by simp; omega)]
    · omega
  · rename_i hfull
    congr 1
    · refine Vector.ext fun i hi => ?_
      rw [Vector.getElem_ofFn, Vector.getElem_ofFn, List.getElem?_append_left (by omega)]
    · omega

/-- One round: what `f` finds in `e` is pushed. -/
theorem elim_push_ofList {β : Type} (f : β → Option α) (l : List β) (e : β) :
    (f e).elim (ofList (l.filterMap f) : Collected α cap) (ofList (l.filterMap f)).push =
      ofList ((l ++ [e]).filterMap f) := by
  rw [List.filterMap_append]
  cases he : f e with
  | none => simp [he]
  | some x =>
    rw [Option.elim_some, push_ofList]
    simp [he]

/-- A full array stays as it is. -/
theorem push_of_full {c : Collected α cap} (h : ¬ c.count < cap) (x : α) : c.push x = c := dif_neg h

theorem toList_ofList (l : List α) : (ofList l : Collected α cap).toList = l.take cap := by
  have hitems : (ofList l : Collected α cap).items.toList.take (min l.length cap) = (l.take cap).map some := by
    refine List.ext_getElem? fun i => ?_
    unfold ofList
    rw [List.getElem?_map, List.getElem?_take, List.getElem?_take]
    by_cases hi : i < cap
    · rw [if_pos hi]
      by_cases hl : i < l.length
      · rw [if_pos (by omega), Vector.getElem?_toList, Vector.getElem?_eq_getElem hi, Vector.getElem_ofFn,
          List.getElem?_eq_getElem hl]
        rfl
      · rw [if_neg (by omega), List.getElem?_eq_none (by omega)]
        rfl
    · rw [if_neg hi, if_neg (by omega)]
      rfl
  unfold toList
  show List.filterMap id (_ : List (Option α)) = _
  rw [show (ofList l : Collected α cap).count = min l.length cap from rfl, hitems, List.filterMap_map]
  exact List.filterMap_some

end Collected

/-! ### A table in memory -/

/-- The bytes `bs` stand at `base`; the rest of the memory may be anything, readable or not. -/
def Holds (mem : Readable) (base : Nat) (bs : List Byte) : Prop := ∀ i, i < bs.length → mem (base + i) = bs[i]?

variable {mem : Readable} {base : Nat} {bs : List Byte}

theorem Holds.drop (h : Holds mem base bs) (i : Nat) : Holds mem (base + i) (bs.drop i) := by
  intro j hj
  rw [List.length_drop] at hj
  rw [Nat.add_assoc, h (i + j) (by omega), List.getElem?_drop]

theorem Holds.cons {b : Byte} (h : Holds mem base (b :: bs)) : mem base = some b ∧ Holds mem (base + 1) bs := by
  have hfirst := h 0 (Nat.succ_pos _)
  have hrest := h.drop 1
  exact ⟨hfirst, hrest⟩

theorem bytesAt_eq {n : Nat} (h : Holds mem base bs) (hn : n ≤ bs.length) : bytesAt mem base n = some (bs.take n) := by
  induction n generalizing base bs with
  | zero => rfl
  | succ n ih =>
    cases bs with
    | nil => exact absurd hn (Nat.not_succ_le_zero n)
    | cons b bs =>
      obtain ⟨hfirst, hrest⟩ := h.cons
      have hnext := ih hrest (Nat.le_of_succ_le_succ hn)
      unfold bytesAt
      rw [hfirst, Option.bind_some, hnext]
      rfl

theorem sumBytes_eq {n : Nat} (h : Holds mem base bs) (hn : n ≤ bs.length) (sum : Byte) :
    sumBytes mem base n sum = some ((bs.take n).foldl (· + ·) sum) := by
  induction n generalizing base bs sum with
  | zero => rfl
  | succ n ih =>
    cases bs with
    | nil => exact absurd hn (Nat.not_succ_le_zero n)
    | cons b bs =>
      obtain ⟨hfirst, hrest⟩ := h.cons
      unfold sumBytes
      rw [hfirst, Option.bind_some, ih hrest (Nat.le_of_succ_le_succ hn)]
      rfl

theorem readU8_eq {i : Nat} (h : Holds mem base bs) (hi : i < bs.length) :
    readU8 mem (base + i) = some (bs.getD i 0) := by
  unfold readU8
  rw [h i hi, List.getD_eq_getElem?_getD, List.getElem?_eq_getElem hi]
  rfl

theorem readU16_eq {i : Nat} (h : Holds mem base bs) (hi : i + 2 ≤ bs.length) :
    readU16 mem (base + i) = some (BitVec.ofNat 16 (field bs i 2)) := by
  unfold readU16
  rw [bytesAt_eq (h.drop i) (by rw [List.length_drop]; omega)]
  rfl

theorem readU32_eq {i : Nat} (h : Holds mem base bs) (hi : i + 4 ≤ bs.length) :
    readU32 mem (base + i) = some (BitVec.ofNat 32 (field bs i 4)) := by
  unfold readU32
  rw [bytesAt_eq (h.drop i) (by rw [List.length_drop]; omega)]
  rfl

theorem readU64_eq {i : Nat} (h : Holds mem base bs) (hi : i + 8 ≤ bs.length) :
    readU64 mem (base + i) = some (BitVec.ofNat 64 (field bs i 8)) := by
  unfold readU64
  rw [bytesAt_eq (h.drop i) (by rw [List.length_drop]; omega)]
  rfl

/-! ### Valid tables -/

/-- The length that a table declares. -/
def declaredLen (bs : List Byte) : Nat := field bs 4 4

/-- The signature is right, the declared length has room for the header, and the bytes add up to 0. -/
def Valid (signature : List Byte) (headerLen : Nat) (bs : List Byte) : Prop :=
  bs.take 4 = signature ∧ headerLen ≤ declaredLen bs ∧ bs.foldl (· + ·) 0 = 0

instance (signature : List Byte) (headerLen : Nat) (bs : List Byte) : Decidable (Valid signature headerLen bs) := by
  unfold Valid
  infer_instance

/-- The bytes of a table: what it declares, and at least signature and length. -/
def Extent (bs : List Byte) : Prop := bs.length = max 8 (declaredLen bs)

theorem leNat_lt (l : List Byte) : leNat l < 256 ^ l.length := by
  induction l with
  | nil => exact Nat.one_pos
  | cons b l ih =>
    have hb := b.isLt
    unfold leNat
    rw [List.length_cons, Nat.pow_succ]
    omega

theorem field_lt (l : List Byte) (off n : Nat) : field l off n < 256 ^ n := by
  have hlen : ((l.drop off).take n).length ≤ n := by
    rw [List.length_take]
    omega
  exact Nat.lt_of_lt_of_le (leNat_lt _) (Nat.pow_le_pow_right (by decide) hlen)

theorem tableLen_eq {signature : List Byte} {headerLen : Nat} (h : Holds mem base bs) (hext : Extent bs)
    (hhead : 8 ≤ headerLen) :
    tableLen mem base signature headerLen = some (if Valid signature headerLen bs then some bs.length else none) := by
  unfold Extent at hext
  have hlt : declaredLen bs < 2 ^ 32 := field_lt bs 4 4
  have htotal : (BitVec.ofNat 32 (field bs 4 4)).toNat = declaredLen bs := by
    rw [BitVec.toNat_ofNat]
    exact Nat.mod_eq_of_lt hlt
  unfold tableLen Valid
  rw [bytesAt_eq h (by omega), readU32_eq h (by omega)]
  simp only [Option.bind_eq_bind, Option.bind_some, htotal]
  by_cases hsig : bs.take 4 = signature
  · simp only [hsig, ne_eq, not_true, if_false, true_and]
    by_cases hlen : declaredLen bs < headerLen
    · simp only [hlen, if_true, Nat.not_le.2 hlen, false_and, if_false]
      rfl
    · have hall : bs.length = declaredLen bs := by omega
      simp only [hlen, if_false, Nat.not_lt.1 hlen, true_and]
      unfold checksumValid
      rw [sumBytes_eq h (by omega), ← hall, List.take_length]
      simp
  · simp only [hsig, ne_eq, not_false_eq_true, if_true, false_and, if_false]
    rfl

/-- The walk visits the entries of the list, and returns. -/
theorem walk_eq {σ : Type} {F : EntryFormat Byte} {entryLen : Nat → Option Nat} {visit : σ → Nat → Nat → Option σ}
    {add : σ → List Byte → σ} {base stop : Nat}
    (hlen : ∀ p r, Holds mem p r → F.headerSize ≤ r.length → entryLen p = some (F.entryLen r))
    (hvisit : ∀ info p e, Holds mem p e → F.Wf e → visit info p e.length = some (add info e))
    {offset fuel : Nat} {r : List Byte} {info : σ} (h : Holds mem (base + offset) r)
    (hstop : offset + r.length = stop) (hfuel : r.length < fuel) :
    walk F.headerSize entryLen visit base stop fuel offset info = some ((F.entries r).foldl add info) := by
  induction fuel generalizing offset r info with
  | zero => exact absurd hfuel (Nat.not_lt_zero _)
  | succ fuel ih =>
    have hpos := F.headerSize_pos
    unfold walk
    by_cases hhead : F.headerSize ≤ r.length
    · rw [if_pos (by omega), hlen _ _ h hhead, Option.bind_some]
      by_cases hfits : F.Fits r
      · have hmin := hfits.2.1
        have hmax := hfits.2.2
        have hentry : Holds mem (base + offset) (r.take (F.entryLen r)) := by
          intro i hi
          rw [List.length_take] at hi
          rw [h i (by omega), List.getElem?_take_of_lt (by omega)]
        have hwhole : (r.take (F.entryLen r)).length = F.entryLen r := by
          rw [List.length_take]
          omega
        have hone := hvisit info _ _ hentry (EntryFormat.wf_take hfits)
        rw [hwhole] at hone
        have hnext : Holds mem (base + (offset + F.entryLen r)) (r.drop (F.entryLen r)) := by
          rw [← Nat.add_assoc]
          exact h.drop _
        -- neither test of the source stops the walk
        rw [if_neg (by omega), if_neg (by omega), hone, Option.bind_some,
          ih hnext (by rw [List.length_drop]; omega) (by rw [List.length_drop]; omega),
          EntryFormat.entries_of_fits hfits, List.foldl_cons]
      · -- the entry is too short, or goes beyond the table
        rw [EntryFormat.entries_of_not_fits hfits]
        unfold EntryFormat.Fits at hfits
        split
        · rfl
        · rw [if_pos (by omega)]
          rfl
    · have hfits : ¬ F.Fits r := fun hf => hhead hf.1
      rw [if_neg (by omega), EntryFormat.entries_of_not_fits hfits]
      rfl

/-! ### Writing a table -/

/-- A table: signature, length, revision, the checksum that makes the bytes add up to 0, the vendor's fields, and what is
particular to the table. -/
def encodeTable (signature : List Byte) (revision : Byte) (oem : Vector Byte 26) (tail : List Byte) : List Byte :=
  let front := signature ++ leBytes 4 (36 + tail.length) ++ [revision]
  let rest := oem.toList ++ tail
  front ++ [-(front ++ rest).foldl (· + ·) 0] ++ rest

theorem field_leBytes (front rest : List Byte) (n v : Nat) :
    field (front ++ leBytes n v ++ rest) front.length n = v % 256 ^ n := by
  have hlen := length_leBytes n v
  unfold field
  rw [List.append_assoc, List.drop_left' rfl, List.take_left' hlen, leNat_leBytes]

/-- A field that is written is read back. -/
theorem ofNat_field_leBytes {w n : Nat} (front rest : List Byte) (v : BitVec w) (hw : 2 ^ w = 256 ^ n) :
    BitVec.ofNat w (field (front ++ leBytes n v.toNat ++ rest) front.length n) = v := by
  have hv : v.toNat < 256 ^ n := by
    have hlt := v.isLt
    omega
  rw [field_leBytes, Nat.mod_eq_of_lt hv, BitVec.ofNat_toNat, BitVec.setWidth_eq]

/-- The same for the last field. -/
theorem ofNat_last_leBytes {w n : Nat} (front : List Byte) (v : BitVec w) (hw : 2 ^ w = 256 ^ n) :
    BitVec.ofNat w (field (front ++ leBytes n v.toNat) front.length n) = v := by
  have hfield := ofNat_field_leBytes front [] v hw
  rw [List.append_nil] at hfield
  exact hfield

private theorem foldl_add_eq (l : List Byte) (a : Byte) : l.foldl (· + ·) a = a + l.foldl (· + ·) 0 := by
  induction l generalizing a with
  | nil => exact (add_zero a).symm
  | cons b l ih =>
    rw [List.foldl_cons, List.foldl_cons, ih (a + b), ih (0 + b), zero_add, add_assoc]

section

variable {signature : List Byte} {revision : Byte} {oem : Vector Byte 26} {tail : List Byte}

theorem length_encodeTable (hsig : signature.length = 4) :
    (encodeTable signature revision oem tail).length = 36 + tail.length := by
  unfold encodeTable
  simp only [List.length_append, length_leBytes, Vector.length_toList, List.length_cons, List.length_nil, hsig]
  omega

theorem declaredLen_encodeTable (hsig : signature.length = 4) (hlen : 36 + tail.length < 2 ^ 32) :
    declaredLen (encodeTable signature revision oem tail) = 36 + tail.length := by
  unfold declaredLen encodeTable
  simp only [List.append_assoc]
  rw [← List.append_assoc, ← hsig, field_leBytes, hsig]
  exact Nat.mod_eq_of_lt hlen

theorem extent_encodeTable (hsig : signature.length = 4) (hlen : 36 + tail.length < 2 ^ 32) :
    Extent (encodeTable signature revision oem tail) := by
  unfold Extent
  rw [length_encodeTable hsig, declaredLen_encodeTable hsig hlen]
  omega

theorem drop_encodeTable (hsig : signature.length = 4) :
    (encodeTable signature revision oem tail).drop 36 = tail := by
  unfold encodeTable
  simp only
  rw [← List.append_assoc]
  refine List.drop_left' ?_
  simp only [List.length_append, length_leBytes, Vector.length_toList, List.length_cons, List.length_nil, hsig]

theorem valid_encodeTable {headerLen : Nat} (hsig : signature.length = 4) (hlen : 36 + tail.length < 2 ^ 32)
    (hhead : headerLen ≤ 36 + tail.length) :
    Valid signature headerLen (encodeTable signature revision oem tail) := by
  refine ⟨?_, ?_, ?_⟩
  · unfold encodeTable
    simp only [List.append_assoc]
    exact List.take_left' hsig
  · rw [declaredLen_encodeTable hsig hlen]
    exact hhead
  · unfold encodeTable
    simp only
    generalize signature ++ leBytes 4 (36 + tail.length) ++ [revision] = front
    generalize oem.toList ++ tail = rest
    rw [List.foldl_append, List.foldl_append, foldl_add_eq rest, List.foldl_cons, List.foldl_nil, List.foldl_append,
      foldl_add_eq rest (front.foldl (· + ·) 0)]
    ring

end

end Acpi

end Rost
