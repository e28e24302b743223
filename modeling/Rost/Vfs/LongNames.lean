import Rost.Vfs.Volumes
import Mathlib.Data.List.GetD

/-!
# Long names

A long name stands in front of the short entry of its file, in entries of 13 units each, the last of them first.  `scan_dir`
puts the units together and keeps a byte of each.  It looks at the low byte only, takes `0x7F` as it is and `0xFFFF` for the
end, so it gets a name right exactly if the name has no unit for which this makes a difference (`longName_iff`).
-/

namespace Rost.Vfs

namespace Fat32

/-! ### The layout -/

/-- Where unit `j` stands in an entry. -/
def unitOffset (j : Nat) : Nat := if j < 5 then 1 + 2 * j else if j < 11 then 14 + 2 * (j - 5) else 28 + 2 * (j - 11)

/-- The unit at a place in the entries of a name: behind the name there is a NUL, and then padding. -/
def paddedUnit (name : List (BitVec 16)) (p : Nat) : BitVec 16 :=
  if p < name.length then name.getD p 0 else if p = name.length then 0 else 0xFFFF

/-- The number of entries with 13 units each. -/
def entryCount (name : List (BitVec 16)) : Nat := (name.length + 12) / 13

/-- The long-name entry `seq` of a name. -/
structure IsLongEntry (name : List (BitVec 16)) (seq : Nat) (e : Nat → Byte) : Prop where
  number : e 0 = BitVec.ofNat 8 (if seq = entryCount name then seq + 0x40 else seq)
  attr : e 11 = 0x0F
  units : ∀ j < 13, e (unitOffset j + 1) ++ e (unitOffset j) = paddedUnit name (13 * (seq - 1) + j)

/-- The entries of a name from `seq` down to the first. -/
inductive LongEntries (name : List (BitVec 16)) : Nat → List (Nat → Byte) → Prop
  | nil : LongEntries name 0 []
  | cons {seq : Nat} {e : Nat → Byte} {es : List (Nat → Byte)} (h : IsLongEntry name (seq + 1) e)
      (hrest : LongEntries name seq es) : LongEntries name (seq + 1) (e :: es)

/-- The entry of a file or of a directory other than `.` and `..`. -/
structure IsShortEntry (e : Nat → Byte) : Prop where
  not_end : e 0 ≠ 0x00
  not_deleted : e 0 ≠ 0xE5
  not_dot : e 0 ≠ 0x2E
  no_label : e 11 &&& 0x08 = 0

/-- What a unit is to be shown as. -/
def charOf (x : BitVec 16) : Byte := if 0x20 ≤ x.toNat ∧ x.toNat ≤ 0x7E then x.setWidth 8 else 0x5F

/-- A unit that stops the reader. -/
def Stops (x : BitVec 16) : Prop := x = 0 ∨ x = 0xFFFF

instance (x : BitVec 16) : Decidable (Stops x) := inferInstanceAs (Decidable (_ ∨ _))

/-- A unit that is read right: it does not stop the reader, it is not `0x7F`, and if it has a high byte then its low byte is
not the code of a character other than `_`. -/
def Legible (x : BitVec 16) : Prop :=
  ¬ Stops x ∧ x ≠ 0x7F ∧ (x.toNat < 256 ∨ x.toNat % 256 < 0x20 ∨ 0x80 ≤ x.toNat % 256 ∨ x.toNat % 256 = 0x5F)

instance (x : BitVec 16) : Decidable (Legible x) := inferInstanceAs (Decidable (_ ∧ _))

/-- The byte that the reader keeps of a unit. -/
def readUnit (x : BitVec 16) : Byte := if 0x20 ≤ x.toNat % 256 ∧ x.toNat % 256 < 0x80 then x.setWidth 8 else 0x5F

/-- The record of an entry under a name. -/
def recordOf (name : Bytes) (e : Nat → Byte) : DirRecord :=
  ⟨name, decide (e 11 &&& 0x10 ≠ 0), le e 28 4, le e 20 2 * 2 ^ 16 + le e 26 2⟩

/-- The records among entries that follow one another. -/
def scanSlots : List (Nat → Byte) → Lfn → List DirRecord × Option Lfn
  | [], l => ([], some l)
  | e :: es, l =>
    match readEntry l e with
    | none => ([], none)
    | some (l, r) => (r.toList ++ (scanSlots es l).1, (scanSlots es l).2)

/-- The entries in the clusters of a directory. -/
def slotsOf (disk : Disk) (v : Volume) (cs : List Nat) : List (Nat → Byte) :=
  cs.flatMap fun c => (List.range v.spc).flatMap fun i => (List.range 16).map fun ent j =>
    ((disk.readSector (v.dataLba + (c - 2) * v.spc + i)).getD fun _ => 0) (ent * 32 + j)

/-! ### Units -/

theorem toNat_setWidth8 (x : BitVec 16) : (x.setWidth 8).toNat = x.toNat % 256 := BitVec.toNat_setWidth 8 x

theorem readUnit_ne_zero (x : BitVec 16) : readUnit x ≠ 0 := by
  unfold readUnit
  split
  · intro hzero
    have hnat := congrArg BitVec.toNat hzero
    rw [toNat_setWidth8] at hnat
    have hmod : x.toNat % 256 = 0 := hnat
    omega
  · decide

theorem legible_iff (x : BitVec 16) : Legible x ↔ ¬ Stops x ∧ readUnit x = charOf x := by
  have hlt := x.isLt
  have hdel : x = 0x7F ↔ x.toNat = 0x7F := BitVec.toNat_inj.symm
  have hunder : x.setWidth 8 = (0x5F : Byte) ↔ x.toNat % 256 = 0x5F := by
    rw [← BitVec.toNat_inj, toNat_setWidth8]
    rfl
  unfold Legible readUnit charOf
  refine and_congr_right fun _ => ?_
  rw [Ne, hdel]
  by_cases hread : 0x20 ≤ x.toNat % 256 ∧ x.toNat % 256 < 0x80
  · rw [if_pos hread]
    by_cases hshown : 0x20 ≤ x.toNat ∧ x.toNat ≤ 0x7E
    · rw [if_pos hshown]
      exact iff_of_true (by omega) rfl
    · rw [if_neg hshown, hunder]
      omega
  · rw [if_neg hread]
    rw [if_neg (by omega)]
    exact iff_of_true (by omega) rfl

/-- The two bytes of a unit. -/
theorem unit_bytes {hi lo : Byte} {x : BitVec 16} (h : hi ++ lo = x) : lo = x.setWidth 8 ∧ x.toNat = hi.toNat * 256 + lo.toNat := by
  subst h
  have hnat : (hi ++ lo).toNat = hi.toNat * 256 + lo.toNat := by
    rw [BitVec.toNat_append, ← Nat.shiftLeft_add_eq_or_of_lt lo.isLt, Nat.shiftLeft_eq]
  refine ⟨?_, hnat⟩
  apply BitVec.eq_of_toNat_eq
  rw [toNat_setWidth8, hnat]
  have := lo.isLt
  omega

/-- What the reader makes of the two bytes of a unit. -/
theorem stops_iff_bytes {hi lo : Byte} {x : BitVec 16} (h : hi ++ lo = x) :
    Stops x ↔ (lo = 0 ∧ hi = 0) ∨ (lo = 0xFF ∧ hi = 0xFF) := by
  obtain ⟨-, hnat⟩ := unit_bytes h
  have hlo := lo.isLt
  have hhi := hi.isLt
  unfold Stops
  simp only [← BitVec.toNat_inj, hnat]
  change hi.toNat * 256 + lo.toNat = 0 ∨ hi.toNat * 256 + lo.toNat = 65535 ↔
    (lo.toNat = 0 ∧ hi.toNat = 0) ∨ (lo.toNat = 255 ∧ hi.toNat = 255)
  omega

/-! ### The buffer -/

section Buffer

variable {name : List (BitVec 16)} {seq d : Nat} {e : Nat → Byte} {es : List (Nat → Byte)} {l : Lfn}

/-- No unit from the start of the entry up to this place stops the reader. -/
def Open (name : List (BitVec 16)) (d : Nat) : Prop := ∀ p, 13 * (d / 13) ≤ p → p ≤ d → ¬ Stops (paddedUnit name p)

/-- The entries behind the first `seq` have been read. -/
structure Filled (name : List (BitVec 16)) (seq : Nat) (buf : Nat → Byte) : Prop where
  stored : ∀ d < 255, 13 * seq ≤ d → d < 13 * entryCount name → Open name d → buf d = readUnit (paddedUnit name d)
  blank : ∀ d < 255, ¬ (13 * seq ≤ d ∧ d < 13 * entryCount name ∧ Open name d) → buf d = 0

theorem filled_zero : Filled name (entryCount name) fun _ => 0 := ⟨fun d _ hle hlt => by omega, fun _ _ _ => rfl⟩

theorem length_lfnChars (e : Nat → Byte) : (lfnChars e).length = 13 := rfl

theorem lfnChars_eq (e : Nat → Byte) :
    lfnChars e = (List.range 13).map fun j => (e (unitOffset j), e (unitOffset j + 1)) := rfl

/-- The elements before the first that fails. -/
theorem getElem?_takeWhile {α : Type} (p : α → Bool) (l : List α) (k : Nat) :
    (l.takeWhile p)[k]? = if ∀ j ≤ k, l[j]?.all p = true then l[k]? else none := by
  induction l generalizing k with
  | nil => simp
  | cons a l ih =>
    by_cases ha : p a = true
    · rw [List.takeWhile_cons_of_pos ha]
      cases k with
      | zero =>
        rw [if_pos fun j hj => ?_]
        · rfl
        · rw [Nat.le_zero.1 hj]
          exact ha
      | succ k =>
        rw [List.getElem?_cons_succ, ih, List.getElem?_cons_succ]
        refine if_congr ⟨fun h j hj => ?_, fun h j hj => ?_⟩ rfl rfl
        · cases j with
          | zero => exact ha
          | succ j => exact h j (by omega)
        · exact h (j + 1) (by omega)
    · rw [List.takeWhile_cons_of_neg ha, List.getElem?_nil, if_neg]
      exact fun h => ha (h 0 (Nat.zero_le k))

/-- What an entry of the name gives at a place. -/
theorem getElem?_lfnChars (h : IsLongEntry name seq e) {k : Nat} (hk : k < 13) :
    ((lfnChars e).takeWhile fun c => !(c.1 = 0 && c.2 = 0) && !(c.1 = 0xFF && c.2 = 0xFF))[k]? =
      if ∀ j ≤ k, ¬ Stops (paddedUnit name (13 * (seq - 1) + j)) then some (e (unitOffset k), e (unitOffset k + 1)) else none := by
  have hget : ∀ j ≤ k, (lfnChars e)[j]? = some (e (unitOffset j), e (unitOffset j + 1)) := by
    intro j hj
    rw [lfnChars_eq, List.getElem?_map, List.getElem?_range (by omega)]
    rfl
  rw [getElem?_takeWhile, hget k le_rfl]
  refine if_congr (forall_congr' fun j => forall_congr' fun hj => ?_) rfl rfl
  rw [hget j hj, stops_iff_bytes (h.units j (by omega)), Option.all_some]
  simp
  tauto

theorem entryCount_le (hlen : name.length ≤ 255) : entryCount name ≤ 20 := by
  unfold entryCount
  omega

/-- The number of a long-name entry. -/
theorem number_facts {s : Nat} (hs : s < 21) (hpos : 0 < s) :
    (BitVec.ofNat 8 s ≠ 0x00 ∧ BitVec.ofNat 8 s ≠ 0xE5 ∧ BitVec.ofNat 8 s &&& 0x40 = 0 ∧ (BitVec.ofNat 8 s).toNat % 32 = s) ∧
    (BitVec.ofNat 8 (s + 0x40) ≠ 0x00 ∧ BitVec.ofNat 8 (s + 0x40) ≠ 0xE5 ∧ BitVec.ofNat 8 (s + 0x40) &&& 0x40 ≠ 0 ∧
      (BitVec.ofNat 8 (s + 0x40)).toNat % 32 = s) := by
  have hall : ∀ s : Fin 21, 0 < s.val →
      (BitVec.ofNat 8 s ≠ 0x00 ∧ BitVec.ofNat 8 s ≠ 0xE5 ∧ BitVec.ofNat 8 s &&& 0x40 = 0 ∧ (BitVec.ofNat 8 s).toNat % 32 = s) ∧
      (BitVec.ofNat 8 (s + 0x40) ≠ 0x00 ∧ BitVec.ofNat 8 (s + 0x40) ≠ 0xE5 ∧ BitVec.ofNat 8 (s + 0x40) &&& 0x40 ≠ 0 ∧
        (BitVec.ofNat 8 (s + 0x40)).toNat % 32 = s) := by decide
  exact hall ⟨s, hs⟩ hpos

theorem IsLongEntry.number_mod (h : IsLongEntry name seq e) (hpos : 0 < seq) (hseq : seq < 21) : (e 0).toNat % 32 = seq := by
  rw [h.number]
  split
  · exact (number_facts hseq hpos).2.2.2.2
  · exact (number_facts hseq hpos).1.2.2.2

/-- One entry more is read. -/
theorem Filled.store (h : Filled name (seq + 1) l.buf) (he : IsLongEntry name (seq + 1) e) (hseq : seq + 1 ≤ entryCount name)
    (hlen : name.length ≤ 255) : Filled name seq (l.store e).buf := by
  have hcount := entryCount_le hlen
  have hnum := he.number_mod (Nat.succ_pos seq) (by omega)
  -- the entry changes its 13 places only, which were blank
  have hbuf : ∀ d < 255, (13 * seq ≤ d ∧ d < 13 * (seq + 1) ∧ Open name d → (l.store e).buf d = readUnit (paddedUnit name d)) ∧
      (¬ (13 * seq ≤ d ∧ d < 13 * (seq + 1) ∧ Open name d) → (l.store e).buf d = l.buf d) := by
    intro d hd
    unfold Lfn.store
    simp only [hnum, Nat.add_sub_cancel]
    rw [if_pos ⟨by omega, by omega⟩]
    simp only
    by_cases hle : seq * 13 ≤ d
    · rw [if_pos ⟨hle, hd⟩]
      by_cases hin : d < 13 * (seq + 1)
      · have hopen : (∀ j ≤ d - seq * 13, ¬ Stops (paddedUnit name (13 * (seq + 1 - 1) + j))) ↔ Open name d := by
          have hbase : 13 * (d / 13) = 13 * seq := by omega
          unfold Open
          rw [hbase, Nat.add_sub_cancel]
          refine ⟨fun hall p hp hpd => ?_, fun hall j hj => hall _ (by omega) (by omega)⟩
          have := hall (p - 13 * seq) (by omega)
          rwa [Nat.add_sub_cancel' hp] at this
        rw [getElem?_lfnChars he (by omega)]
        by_cases hop : Open name d
        · rw [if_pos (hopen.2 hop)]
          refine ⟨fun _ => ?_, fun hnot => absurd ⟨by omega, hin, hop⟩ hnot⟩
          have hbytes := unit_bytes (he.units (d - seq * 13) (by omega))
          have hplace : 13 * (seq + 1 - 1) + (d - seq * 13) = d := by omega
          rw [hplace] at hbytes
          have hlow : (e (unitOffset (d - seq * 13))).toNat = (paddedUnit name d).toNat % 256 := by
            rw [hbytes.1, toNat_setWidth8]
          unfold readUnit
          rw [← hlow, ← hbytes.1]
        · rw [if_neg (mt hopen.1 hop)]
          exact ⟨fun h => absurd h.2.2 hop, fun _ => rfl⟩
      · rw [List.getElem?_eq_none]
        · exact ⟨fun h => absurd h.2.1 hin, fun _ => rfl⟩
        · refine (List.takeWhile_prefix _).length_le.trans ?_
          rw [length_lfnChars]
          omega
    · rw [if_neg fun h => hle h.1]
      exact ⟨fun h => absurd h.1 (by omega), fun _ => rfl⟩
  refine ⟨fun d hd hle hlt hop => ?_, fun d hd hnot => ?_⟩
  · by_cases hin : d < 13 * (seq + 1)
    · exact (hbuf d hd).1 ⟨hle, hin, hop⟩
    · rw [(hbuf d hd).2 fun h => hin h.2.1]
      exact h.stored d hd (by omega) hlt hop
  · rw [(hbuf d hd).2 fun h => hnot ⟨h.1, by omega, h.2.2⟩]
    exact h.blank d hd fun h => hnot ⟨by omega, h.2⟩

/-- The units before the first that stops the reader. -/
def readable (name : List (BitVec 16)) : List (BitVec 16) := name.takeWhile fun x => !decide (Stops x)

theorem takeWhile_map_range {α : Type} (f : Nat → α) (p : α → Bool) {n k : Nat} (hk : k ≤ n) (hbefore : ∀ i < k, p (f i) = true)
    (hat : k < n → p (f k) = false) : ((List.range n).map f).takeWhile p = (List.range k).map f := by
  obtain ⟨m, rfl⟩ := Nat.exists_eq_add_of_le hk
  rw [List.range_add, List.map_append, List.takeWhile_append_of_pos]
  · cases m with
    | zero => simp
    | succ m =>
      rw [List.range_succ_eq_map, List.map_cons, List.map_cons, List.takeWhile_cons_of_neg, List.append_nil]
      rw [Nat.add_zero, hat (by omega)]
      exact Bool.false_ne_true
  · intro a ha
    obtain ⟨i, hi, rfl⟩ := List.mem_map.1 ha
    exact hbefore i (List.mem_range.1 hi)

/-- When all entries have been read, the buffer holds what comes before the first unit that stops the reader. -/
theorem Filled.name_eq (h : Filled name 0 l.buf) (hlen : name.length ≤ 255) : l.name = (readable name).map readUnit := by
  have hprefix : readable name <+: name := List.takeWhile_prefix _
  have hle := hprefix.length_le
  have hgo : ∀ i < (readable name).length, paddedUnit name i = (readable name).getD i 0 ∧ ¬ Stops (paddedUnit name i) := by
    intro i hi
    have hunit : paddedUnit name i = (readable name)[i] := by
      unfold paddedUnit
      rw [if_pos (by omega), List.getD_eq_getElem _ _ (by omega), hprefix.getElem hi]
    have hlive := List.mem_takeWhile_imp (List.getElem_mem hi)
    refine ⟨by rw [hunit, List.getD_eq_getElem _ _ hi], ?_⟩
    rw [hunit]
    simpa using hlive
  have hstored : ∀ i < (readable name).length, l.buf i = readUnit ((readable name).getD i 0) := by
    intro i hi
    rw [← (hgo i hi).1]
    exact h.stored i (by omega) (by omega) (by unfold entryCount; omega) fun p _ hp => (hgo p (by omega)).2
  unfold Lfn.name
  rw [takeWhile_map_range l.buf _ (hle.trans hlen)]
  · refine List.ext_getElem (by simp) fun i hi _ => ?_
    rw [List.length_map, List.length_range] at hi
    simp only [List.getElem_map, List.getElem_range]
    rw [hstored i hi, List.getD_eq_getElem _ _ hi]
  · intro i hi
    rw [hstored i hi]
    simpa using readUnit_ne_zero _
  · intro hlt
    rw [h.blank _ hlt]
    · rfl
    · rintro ⟨-, hin, hop⟩
      refine hop (readable name).length (by omega) le_rfl ?_
      by_cases hall : (readable name).length = name.length
      · unfold paddedUnit
        rw [if_neg (by omega), if_pos hall]
        exact .inl rfl
      · unfold paddedUnit
        rw [if_pos (by omega), List.getD_eq_getElem _ _ (by omega)]
        have hnone : (readable name)[(readable name).length]? = none := List.getElem?_eq_none le_rfl
        have hsome : name[(readable name).length]? = some name[(readable name).length] := List.getElem?_eq_getElem (by omega)
        by_contra hlive
        -- otherwise the reader would go on behind this unit
        have hall : ∀ j ≤ (readable name).length, name[j]?.all (fun x => !decide (Stops x)) = true := by
          intro j hj
          obtain hlt | rfl := Nat.lt_or_eq_of_le hj
          · have hunit := hgo j hlt
            rw [hunit.1, List.getD_eq_getElem _ _ hlt, hprefix.getElem hlt] at hunit
            rw [List.getElem?_eq_getElem (by omega), Option.all_some, decide_eq_false hunit.2]
            rfl
          · rw [hsome, Option.all_some, decide_eq_false hlive]
            rfl
        have hget := getElem?_takeWhile (fun x => !decide (Stops x)) name (readable name).length
        rw [if_pos hall, hsome] at hget
        cases hnone.symm.trans hget

end Buffer

/-! ### Entries that follow one another -/

section Slots

variable {name : List (BitVec 16)} {seq : Nat} {e : Nat → Byte} {es pre : List (Nat → Byte)} {l l' : Lfn}

theorem store_found (l : Lfn) (e : Nat → Byte) : (l.store e).found = l.found := by
  unfold Lfn.store
  simp only
  split <;> rfl

/-- The entry that is stored first starts a name. -/
theorem readEntry_first (he : IsLongEntry name seq e) (hpos : 0 < seq) (hseq : seq < 21) (hlast : seq = entryCount name)
    (l : Lfn) : readEntry l e = some (Lfn.store ⟨fun _ => 0, true⟩ e, none) := by
  have hnum := (number_facts hseq hpos).2
  have hzero := he.number
  rw [if_pos hlast] at hzero
  unfold readEntry
  rw [if_neg (by rw [hzero]; exact hnum.1), if_neg (by rw [hzero]; exact hnum.2.1), if_pos he.attr,
    if_pos (by rw [hzero]; exact hnum.2.2.1)]

/-- The others are added to it. -/
theorem readEntry_more (he : IsLongEntry name seq e) (hpos : 0 < seq) (hseq : seq < 21) (hlast : seq ≠ entryCount name)
    (hfound : l.found = true) : readEntry l e = some (l.store e, none) := by
  have hnum := (number_facts hseq hpos).1
  have hzero := he.number
  rw [if_neg hlast] at hzero
  unfold readEntry
  rw [if_neg (by rw [hzero]; exact hnum.1), if_neg (by rw [hzero]; exact hnum.2.1), if_pos he.attr,
    if_neg (by rw [hzero]; exact not_not_intro hnum.2.2.1), if_pos hfound]

/-- The short entry takes the name that has been read. -/
theorem readEntry_short (he : IsShortEntry e) (hfound : l.found = true) :
    readEntry l e = some ({ l with found := false },
      if (if l.name ≠ [] then l.name else sfnName e) = [] then none
      else some (recordOf (if l.name ≠ [] then l.name else sfnName e) e)) := by
  have hattr : e 11 ≠ 0x0F := by
    intro heq
    have hlabel := he.no_label
    rw [heq] at hlabel
    exact absurd hlabel (by decide)
  unfold readEntry
  rw [if_neg he.not_end, if_neg he.not_deleted, if_neg hattr, if_neg fun h => h.1 he.no_label, if_neg he.not_dot]
  simp only [hfound, true_and]
  rfl

private theorem scanSlots_more (h : LongEntries name seq es) (hlt : seq < entryCount name) (hlen : name.length ≤ 255)
    (hfound : l.found = true) (hfilled : Filled name seq l.buf) :
    ∃ l', l'.found = true ∧ Filled name 0 l'.buf ∧ ∀ rest, scanSlots (es ++ rest) l = scanSlots rest l' := by
  have hcount := entryCount_le hlen
  induction h generalizing l with
  | nil => exact ⟨l, hfound, hfilled, fun _ => rfl⟩
  | @cons seq e es he _ ih =>
    have hread := readEntry_more he (Nat.succ_pos seq) (by omega) (by omega) hfound
    obtain ⟨l', hfound', hfilled', hscan⟩ :=
      ih (by omega) (by rw [store_found]; exact hfound) (hfilled.store he (by omega) hlen)
    refine ⟨l', hfound', hfilled', fun rest => ?_⟩
    rw [List.cons_append, scanSlots, hread]
    exact hscan rest

/-- The entries of a name leave it in the buffer. -/
theorem scanSlots_name (h : LongEntries name (entryCount name) es) (hne : name ≠ []) (hlen : name.length ≤ 255) (l : Lfn) :
    ∃ l', l'.found = true ∧ l'.name = (readable name).map readUnit ∧ ∀ rest, scanSlots (es ++ rest) l = scanSlots rest l' := by
  have hcount := entryCount_le hlen
  have hpos : 0 < entryCount name := by
    have := List.length_pos_iff_ne_nil.2 hne
    unfold entryCount
    omega
  obtain ⟨seq, hseq⟩ : ∃ seq, entryCount name = seq + 1 := ⟨entryCount name - 1, by omega⟩
  rw [hseq] at h
  cases h with
  | @cons _ e es he hrest =>
    have hread := readEntry_first he (Nat.succ_pos seq) (by omega) hseq.symm l
    have hblank : Filled name (seq + 1) (⟨fun _ => 0, true⟩ : Lfn).buf := hseq ▸ filled_zero
    obtain ⟨l', hfound, hfilled, hscan⟩ := scanSlots_more hrest (by omega) hlen (store_found _ e) (hblank.store he (by omega) hlen)
    refine ⟨l', hfound, hfilled.name_eq hlen, fun rest => ?_⟩
    rw [List.cons_append, scanSlots, hread]
    exact hscan rest

/-- What is in the buffer makes no difference if no name is being read. -/
private theorem readEntry_congr (h : l.found = false) (h' : l'.found = false) (e : Nat → Byte) :
    (readEntry l e = none ∧ readEntry l' e = none) ∨ ∃ t t' r, readEntry l e = some (t, r) ∧ readEntry l' e = some (t', r) ∧
      (t = t' ∨ t.found = false ∧ t'.found = false) := by
  unfold readEntry
  by_cases hend : e 0 = 0x00
  · rw [if_pos hend, if_pos hend]
    exact .inl ⟨rfl, rfl⟩
  rw [if_neg hend, if_neg hend]
  refine .inr ?_
  by_cases hdeleted : e 0 = 0xE5
  · rw [if_pos hdeleted, if_pos hdeleted]
    exact ⟨_, _, _, rfl, rfl, .inr ⟨rfl, rfl⟩⟩
  rw [if_neg hdeleted, if_neg hdeleted]
  by_cases hattr : e 11 = 0x0F
  · rw [if_pos hattr, if_pos hattr]
    by_cases hfirst : e 0 &&& 0x40 ≠ 0
    · rw [if_pos hfirst, if_pos hfirst]
      exact ⟨_, _, _, rfl, rfl, .inl rfl⟩
    · rw [if_neg hfirst, if_neg hfirst, h, h', if_neg Bool.false_ne_true, if_neg Bool.false_ne_true]
      exact ⟨_, _, _, rfl, rfl, .inr ⟨h, h'⟩⟩
  rw [if_neg hattr, if_neg hattr]
  by_cases hlabel : e 11 &&& 0x08 ≠ 0 ∧ e 11 &&& 0x10 = 0
  · rw [if_pos hlabel, if_pos hlabel]
    exact ⟨_, _, _, rfl, rfl, .inr ⟨rfl, rfl⟩⟩
  rw [if_neg hlabel, if_neg hlabel]
  by_cases hdot : e 0 = 0x2E
  · rw [if_pos hdot, if_pos hdot]
    exact ⟨_, _, _, rfl, rfl, .inr ⟨rfl, rfl⟩⟩
  rw [if_neg hdot, if_neg hdot]
  simp only [h, h', Bool.false_eq_true, false_and, if_false]
  exact ⟨_, _, _, rfl, rfl, .inr ⟨rfl, rfl⟩⟩

theorem scanSlots_congr (h : l.found = false) (h' : l'.found = false) (es : List (Nat → Byte)) :
    (scanSlots es l).1 = (scanSlots es l').1 := by
  induction es generalizing l l' with
  | nil => rfl
  | cons e es ih =>
    unfold scanSlots
    obtain ⟨hread, hread'⟩ | ⟨t, t', r, hread, hread', hsame⟩ := readEntry_congr h h' e
    · rw [hread, hread']
    · rw [hread, hread']
      simp only
      obtain rfl | ⟨ht, ht'⟩ := hsame
      · rfl
      · rw [ih ht ht']

theorem scanSlots_append (es es' : List (Nat → Byte)) (l : Lfn) : scanSlots (es ++ es') l = match scanSlots es l with
    | (rs, none) => (rs, none)
    | (rs, some t) => (rs ++ (scanSlots es' t).1, (scanSlots es' t).2) := by
  induction es generalizing l with
  | nil => rfl
  | cons e es ih =>
    cases hread : readEntry l e with
    | none => simp only [List.cons_append, scanSlots, hread]
    | some p =>
      simp only [List.cons_append, scanSlots, hread, ih]
      cases hscan : scanSlots es p.1 with
      | mk rs t =>
        cases t with
        | none => rfl
        | some t => simp only [List.append_assoc]

/-- Entries before the end of the directory. -/
theorem scanSlots_live (hlive : ∀ e ∈ es, e 0 ≠ 0x00) (l : Lfn) : ∃ t, (scanSlots es l).2 = some t := by
  induction es generalizing l with
  | nil => exact ⟨l, rfl⟩
  | cons e es ih =>
    have hsome : readEntry l e ≠ none := mt readEntry_eq_none_iff.1 (hlive e List.mem_cons_self)
    obtain ⟨p, hread⟩ := Option.ne_none_iff_exists'.1 hsome
    unfold scanSlots
    rw [hread]
    exact ih (fun e he => hlive e (List.mem_cons_of_mem _ he)) p.1

/-- A name with its short entry gives one record, and what follows is read as if it came first. -/
theorem scanSlots_entries {short : Nat → Byte} (h : LongEntries name (entryCount name) es) (hne : name ≠ [])
    (hlen : name.length ≤ 255) (hshort : IsShortEntry short) (hpre : ∀ e ∈ pre, e 0 ≠ 0x00) (post : List (Nat → Byte)) :
    (scanSlots (pre ++ (es ++ short :: post)) .none).1 = (scanSlots pre .none).1 ++
      ((if readable name = [] then if sfnName short = [] then [] else [recordOf (sfnName short) short]
        else [recordOf ((readable name).map readUnit) short]) ++ (scanSlots post .none).1) := by
  obtain ⟨t, ht⟩ := scanSlots_live hpre .none
  have hpair : scanSlots pre .none = ((scanSlots pre .none).1, some t) := Prod.ext rfl ht
  obtain ⟨l', hfound, hname, hlong⟩ := scanSlots_name h hne hlen t
  rw [scanSlots_append, hpair]
  simp only
  rw [hlong, scanSlots, readEntry_short hshort hfound, hname]
  have hrest := scanSlots_congr (show ({ l' with found := false } : Lfn).found = false from rfl) (rfl : Lfn.none.found = false) post
  by_cases hnil : readable name = []
  · rw [if_pos hnil]
    simp only [hnil, List.map_nil, ne_eq, not_true_eq_false, if_false, hrest]
    by_cases hsfn : sfnName short = []
    · rw [if_pos hsfn, if_pos hsfn]
      rfl
    · rw [if_neg hsfn, if_neg hsfn]
      rfl
  · have hmap : (readable name).map readUnit ≠ [] := fun h => hnil (List.map_eq_nil_iff.1 h)
    rw [if_neg hnil]
    simp only [hmap, ne_eq, not_false_eq_true, if_true, if_false, hrest]
    rfl

theorem recordOf_inj {a b : Bytes} (h : recordOf a e = recordOf b e) : a = b := congrArg DirRecord.name h

theorem readable_eq_nil_iff (hne : name ≠ []) : readable name = [] ↔ ∃ x ∈ name.head?, Stops x := by
  cases name with
  | nil => exact absurd rfl hne
  | cons x name =>
    unfold readable
    by_cases hx : Stops x
    · rw [List.takeWhile_cons_of_neg (by simpa using hx)]
      exact iff_of_true rfl ⟨x, rfl, hx⟩
    · rw [List.takeWhile_cons_of_pos (by simpa using hx)]
      refine iff_of_false (List.cons_ne_nil _ _) ?_
      rintro ⟨y, hy, hstops⟩
      cases hy
      exact hx hstops

/-- What is read is what is to be shown exactly if every unit is read right. -/
theorem map_readable_iff : (readable name).map readUnit = name.map charOf ↔ ∀ x ∈ name, Legible x := by
  have hprefix : readable name <+: name := List.takeWhile_prefix _
  have hall : readable name = name ↔ ∀ x ∈ name, ¬ Stops x := by
    unfold readable
    rw [List.takeWhile_eq_self_iff]
    simp
  constructor
  · intro h x hx
    have hsame : readable name = name := hprefix.eq_of_length (by simpa using congrArg List.length h)
    rw [hsame, List.map_inj_left] at h
    exact (legible_iff x).2 ⟨hall.1 hsame x hx, h x hx⟩
  · intro h
    rw [hall.2 fun x hx => (h x hx).1, List.map_inj_left]
    exact fun x hx => ((legible_iff x).1 (h x hx)).2

end Slots

/-! ### The directory -/

section Directory

variable {disk : Disk} {v : Volume} {n c x fuel base : Nat} {cs cs' is : List Nat}

theorem scanEntries_eq (sec : Nat → Byte) (is : List Nat) (l : Lfn) :
    scanEntries sec is l = scanSlots (is.map fun i j => sec (i * 32 + j)) l := by
  induction is generalizing l with
  | nil => rfl
  | cons i is ih =>
    unfold scanEntries
    rw [List.map_cons]
    unfold scanSlots
    cases readEntry l fun j => sec (i * 32 + j) with
    | none => rfl
    | some p =>
      obtain ⟨t, r⟩ := p
      simp only [ih]

theorem scanSectors_eq (hread : ∀ i ∈ is, base + i < 2 ^ 32 ∧ (disk.readSector (base + i)).isSome = true) (l : Lfn) :
    scanSectors disk base is l = some (scanSlots (is.flatMap fun i => (List.range 16).map fun ent j =>
      ((disk.readSector (base + i)).getD fun _ => 0) (ent * 32 + j)) l) := by
  induction is generalizing l with
  | nil => rfl
  | cons i is ih =>
    obtain ⟨hlt, hsome⟩ := hread i List.mem_cons_self
    obtain ⟨sec, hsec⟩ := Option.isSome_iff_exists.1 hsome
    have hadd : add32 base i = some (base + i) := if_pos hlt
    unfold scanSectors
    rw [hadd, List.flatMap_cons, scanSlots_append]
    simp only [Option.bind_eq_bind, Option.bind_some, hsec, scanEntries_eq, Option.getD_some]
    cases hscan : scanSlots ((List.range 16).map fun ent j => sec (ent * 32 + j)) l with
    | mk rs t =>
      cases t with
      | none => rfl
      | some t =>
        simp only
        rw [ih (fun i hi => hread i (List.mem_cons_of_mem _ hi)) t]
        rfl

/-- The sectors of the clusters are read one behind the other. -/
theorem scanChain_of_chain (hwf : WellFormed disk v n) (hlba : v.fatLba < 2 ^ 16) (h : Chain disk v n c cs)
    (hfuel : cs.length < fuel) (l : Lfn) : scanChain disk v fuel c l = some (scanSlots (slotsOf disk v cs) l).1 := by
  have hcount := hwf.count
  have heoc : eoc < 2 ^ 32 := by decide
  have hsectors : ∀ {c}, IsCluster n c → ∀ l, scanSectors disk (v.dataLba + (c - 2) * v.spc) (List.range v.spc) l =
      some (scanSlots (slotsOf disk v [c]) l) := by
    intro c hc l
    rw [scanSectors_eq fun i hi => ?_]
    · simp [slotsOf]
    · have hlt := lt_sectors_of_isCluster hc (List.mem_range.1 hi)
      exact ⟨hlt.trans hwf.sectors, hwf.readable _ hlt⟩
  induction h generalizing fuel l with
  | @last c e hrange hentry hend =>
    obtain ⟨fuel, rfl⟩ : ∃ k, fuel = k + 2 := ⟨fuel - 2, by simp at hfuel; omega⟩
    unfold IsCluster at hrange
    unfold scanChain
    rw [if_neg (by omega), clusToLba_of_isCluster hwf hrange]
    simp only [Option.bind_eq_bind, Option.bind_some, hsectors hrange]
    cases hscan : scanSlots (slotsOf disk v [c]) l with
    | mk rs t =>
      cases t with
      | none => rfl
      | some t =>
        simp only
        rw [fatNext_of_entry hlba (by omega) hentry]
        unfold scanChain
        simp [hend]
  | @link c c' cs hrange hentry h ih =>
    obtain ⟨fuel, rfl⟩ : ∃ k, fuel = k + 1 := ⟨fuel - 1, by omega⟩
    have hslots : slotsOf disk v (c :: cs) = slotsOf disk v [c] ++ slotsOf disk v cs := by simp [slotsOf]
    unfold IsCluster at hrange
    unfold scanChain
    rw [if_neg (by omega), clusToLba_of_isCluster hwf hrange, hslots, scanSlots_append]
    simp only [Option.bind_eq_bind, Option.bind_some, hsectors hrange]
    cases hscan : scanSlots (slotsOf disk v [c]) l with
    | mk rs t =>
      cases t with
      | none => rfl
      | some t =>
        simp only
        rw [fatNext_of_entry hlba (by omega) hentry, Option.bind_some, ih (by simpa using hfuel) t]
        rfl

/-! A chain does not come back to one of its clusters. -/

theorem Chain.unique (hcount : n + 2 ≤ eoc) (h : Chain disk v n c cs) (h' : Chain disk v n c cs') : cs = cs' := by
  induction h generalizing cs' with
  | last hrange hentry hend =>
    cases h' with
    | last => rfl
    | link _ hentry' hrest =>
      have hnext := hrest.isCluster
      rw [hentry, Option.some_inj] at hentry'
      unfold IsCluster at hnext
      omega
  | link hrange hentry hrest ih =>
    cases h' with
    | last _ hentry' hend =>
      have hnext := hrest.isCluster
      rw [hentry, Option.some_inj] at hentry'
      unfold IsCluster at hnext
      omega
    | link _ hentry' hrest' =>
      rw [hentry, Option.some_inj] at hentry'
      subst hentry'
      rw [ih hrest']

theorem Chain.of_mem (h : Chain disk v n c cs) (hx : x ∈ cs) : ∃ cs', Chain disk v n x cs' ∧ cs'.length ≤ cs.length := by
  induction h with
  | last hrange hentry hend =>
    rw [List.mem_singleton.1 hx]
    exact ⟨_, .last hrange hentry hend, le_rfl⟩
  | link hrange hentry hrest ih =>
    rcases List.mem_cons.1 hx with rfl | hx
    · exact ⟨_, .link hrange hentry hrest, le_rfl⟩
    · obtain ⟨cs', hchain, hle⟩ := ih hx
      exact ⟨cs', hchain, hle.trans (Nat.le_succ _)⟩

theorem Chain.nodup (hcount : n + 2 ≤ eoc) (h : Chain disk v n c cs) : cs.Nodup := by
  induction h with
  | last => exact List.nodup_singleton _
  | link hrange hentry hrest ih =>
    refine List.nodup_cons.2 ⟨fun hmem => ?_, ih⟩
    obtain ⟨cs', hchain, hle⟩ := hrest.of_mem hmem
    rw [hchain.unique hcount (.link hrange hentry hrest), List.length_cons] at hle
    omega

theorem Chain.length_lt (hcount : n + 2 ≤ eoc) (h : Chain disk v n c cs) : cs.length < 2 ^ 28 := by
  have hsub : cs ⊆ List.range (n + 2) := by
    intro x hx
    obtain ⟨cs', hchain, -⟩ := h.of_mem hx
    exact List.mem_range.2 hchain.isCluster.2
  have hle := ((h.nodup hcount).subperm hsub).length_le
  rw [List.length_range] at hle
  unfold eoc at hcount
  omega

theorem scanDir_of_chain (hwf : WellFormed disk v n) (hlba : v.fatLba < 2 ^ 16) (h : Chain disk v n c cs) :
    scanDir disk v c = some (scanSlots (slotsOf disk v cs) .none).1 :=
  scanChain_of_chain hwf hlba h (h.length_lt hwf.count) .none

end Directory

end Fat32

namespace Fat32State

open Blk (Driver)
open Fat32 (Volume Chain WellFormed LongEntries IsShortEntry Legible Stops charOf readUnit readable recordOf entryCount
  scanSlots slotsOf sfnName legible_iff)

variable {d : Driver} {disk : Disk} {s : Fat32State} {n c fuel : Nat} {cs : List Nat}

/-- The directory at a chain is read to its end. -/
theorem scanDir_of_chain (hd : Serves d disk) (hs : Mirrors disk s) (hvalid : s.valid = true)
    (hwf : WellFormed disk s.volume n) (hchain : Chain disk s.volume n c cs) (hfuel : 2 ^ 28 ≤ fuel) :
    ∃ t, scanDir d fuel c s = .ok ((scanSlots (slotsOf disk s.volume cs) .none).1, t) := by
  have hpure := Fat32.scanDir_of_chain hwf (hs.fatLba_lt hvalid) hchain
  have hready : Ready disk s c := by
    have hlt := Fat32.lt_sectors_of_isCluster hchain.isCluster (hs.parsed hvalid).spc_pos
    have hbound := hwf.sectors
    refine .inr fun hmax => ?_
    rw [Fat32.clusToLba_of_isCluster hwf hchain.isCluster, Option.some_inj] at hmax
    unfold maxU32 at hmax
    omega
  obtain ⟨rs, t, hok, hsome, -⟩ | ⟨f, -, hnone, -⟩ := scanDir_simulates hd hs hvalid hready hfuel
  · rw [hpure, Option.some_inj] at hsome
    rw [hsome]
    exact ⟨t, hok⟩
  · rw [hpure] at hnone
    cases hnone

/-- A name of 1 to 255 units that stands in front of a short entry is reported once and as it is to be shown, exactly if every
unit is one that is read right, or the first unit stops the reader and the short name is what was to be shown. -/
theorem longName_iff (hd : Serves d disk) (hs : Reached d s) (hvalid : s.valid = true) (hwf : WellFormed disk s.volume n)
    (hchain : Chain disk s.volume n c cs) (hfuel : 2 ^ 28 ≤ fuel) {name : List (BitVec 16)} (hne : name ≠ [])
    (hlen : name.length ≤ 255) {pre longs post : List (Nat → Byte)} {short : Nat → Byte}
    (hslots : slotsOf disk s.volume cs = pre ++ (longs ++ short :: post)) (hpre : ∀ e ∈ pre, e 0 ≠ 0x00)
    (hlongs : LongEntries name (entryCount name) longs) (hshort : IsShortEntry short) :
    (∃ t, scanDir d fuel c s = .ok ((scanSlots pre .none).1 ++ recordOf (name.map charOf) short :: (scanSlots post .none).1, t)) ↔
      (∀ x ∈ name, Legible x) ∨ (∃ x ∈ name.head?, Stops x) ∧ sfnName short = name.map charOf := by
  obtain ⟨t, hscan⟩ := scanDir_of_chain hd (mirrors_of_reached hd hs) hvalid hwf hchain hfuel
  have hrecords := Fat32.scanSlots_entries hlongs hne hlen hshort hpre post
  rw [hscan, hslots, hrecords]
  have hmap : name.map charOf ≠ [] := fun h => hne (List.map_eq_nil_iff.1 h)
  generalize hX : (if readable name = [] then if sfnName short = [] then [] else [recordOf (sfnName short) short]
    else [recordOf ((readable name).map readUnit) short]) = found
  have hone : (∃ t', Except.ok ((scanSlots pre .none).1 ++ (found ++ (scanSlots post .none).1), t) =
      (Except.ok ((scanSlots pre .none).1 ++ recordOf (name.map charOf) short :: (scanSlots post .none).1, t') :
        Except Fault (List Fat32.DirRecord × Fat32State))) ↔ found = [recordOf (name.map charOf) short] := by
    constructor
    · rintro ⟨t', heq⟩
      have hlists := congrArg Prod.fst (Except.ok.inj heq)
      exact List.append_cancel_right (List.append_cancel_left hlists)
    · rintro rfl
      exact ⟨t, rfl⟩
  rw [hone, ← hX]
  by_cases hnil : readable name = []
  · -- the short name stands in
    have hstops := (Fat32.readable_eq_nil_iff hne).1 hnil
    have hbad : ¬ ∀ x ∈ name, Legible x := by
      obtain ⟨x, hx, hstop⟩ := hstops
      exact fun hall => (hall x (List.mem_of_mem_head? hx)).1 hstop
    rw [if_pos hnil]
    by_cases hsfn : sfnName short = []
    · rw [if_pos hsfn, hsfn]
      refine iff_of_false (fun h => by cases h) ?_
      rintro (hall | ⟨-, heq⟩)
      · exact hbad hall
      · exact hmap heq.symm
    · rw [if_neg hsfn]
      constructor
      · exact fun h => .inr ⟨hstops, Fat32.recordOf_inj (List.cons.inj h).1⟩
      · rintro (hall | ⟨-, heq⟩)
        · exact absurd hall hbad
        · rw [heq]
  · have hlive : ¬ ∃ x ∈ name.head?, Stops x := mt (Fat32.readable_eq_nil_iff hne).2 hnil
    rw [if_neg hnil, ← Fat32.map_readable_iff]
    constructor
    · exact fun h => .inl (Fat32.recordOf_inj (List.cons.inj h).1)
    · rintro (heq | ⟨hstops, -⟩)
      · rw [heq]
      · exact absurd hstops hlive

/-- A root directory with one file, whose long name is the unit with the bytes `lo` and `hi`. -/
def nameSector (lo hi : Byte) (i : Nat) : Byte :=
  if i = 0 then 0x41
  else if i = 1 then lo
  else if i = 2 then hi
  else if i = 11 then 0x0F
  else if (5 ≤ i ∧ i < 11) ∨ (14 ≤ i ∧ i < 26) ∨ (28 ≤ i ∧ i < 32) then 0xFF
  else if i = 32 then 0x41
  else if 33 ≤ i ∧ i < 44 then 0x20
  else 0

def nameDisk (lo hi : Byte) : Disk where
  present := true
  readSector
    | 2 => some (nameSector lo hi)
    | lba => fileDisk.readSector lba

theorem exists_mounted (lo hi : Byte) : ∃ s, Reached (exactDriver (nameDisk lo hi)) s ∧ s.valid = true ∧
    s.volume = ⟨1, 1, 2, 2⟩ := by
  have hfound : Fat32.available (nameDisk lo hi) = some (some ⟨1, 1, 2, 2⟩) := rfl
  rcases available_of (serves_exact (nameDisk lo hi)) mirrors_uninit with
    ⟨hnone, -⟩ | ⟨hnone, -⟩ | ⟨t, hdisk, hav, -, hvalid, -⟩
  · cases hnone.symm.trans hfound
  · cases hnone.symm.trans hfound
  · exact ⟨t, .available .start hav, hvalid, by simpa using hdisk.symm.trans hfound⟩

theorem wellFormed_nameDisk (lo hi : Byte) : WellFormed (nameDisk lo hi) ⟨1, 1, 2, 2⟩ 2 where
  volume := rfl
  count := by decide
  sectors := by decide
  readable lba hlba := by
    have hlt : lba < 4 := hlba
    obtain rfl | rfl | rfl | rfl : lba = 0 ∨ lba = 1 ∨ lba = 2 ∨ lba = 3 := by omega
    all_goals rfl
  root := ⟨by decide, by decide⟩

theorem chain_nameDisk (lo hi : Byte) : Chain (nameDisk lo hi) ⟨1, 1, 2, 2⟩ 2 2 [2] :=
  .last ⟨by decide, by decide⟩ rfl (by decide)

/-- The entries behind the name and its short entry. -/
def restOf (lo hi : Byte) : List (Nat → Byte) := (slotsOf (nameDisk lo hi) ⟨1, 1, 2, 2⟩ [2]).drop 2

theorem slotsOf_nameDisk (lo hi : Byte) : slotsOf (nameDisk lo hi) ⟨1, 1, 2, 2⟩ [2] =
    [] ++ ([fun j => nameSector lo hi (0 * 32 + j)] ++ (fun j => nameSector lo hi (1 * 32 + j)) :: restOf lo hi) := rfl

theorem longEntries_nameDisk {lo hi : Byte}
    (h : ∀ j < 13, nameSector lo hi (0 * 32 + (Fat32.unitOffset j + 1)) ++ nameSector lo hi (0 * 32 + Fat32.unitOffset j) =
      Fat32.paddedUnit [hi ++ lo] (13 * 0 + j)) :
    LongEntries [hi ++ lo] (entryCount [hi ++ lo]) [fun j => nameSector lo hi (0 * 32 + j)] := by
  have hcount : entryCount [hi ++ lo] = 0 + 1 := by
    unfold entryCount
    rw [List.length_singleton]
  rw [hcount]
  refine .cons ⟨?_, (by decide : (0x0F : Byte) = 0x0F), h⟩ .nil
  rw [if_pos hcount.symm]
  exact (by decide : (0x41 : Byte) = BitVec.ofNat 8 (0 + 1 + 0x40))

theorem isShortEntry_nameDisk (lo hi : Byte) : IsShortEntry fun j => nameSector lo hi (1 * 32 + j) :=
  ⟨(by decide : (0x41 : Byte) ≠ 0x00), (by decide : (0x41 : Byte) ≠ 0xE5), (by decide : (0x41 : Byte) ≠ 0x2E),
    (by decide : (0x20 : Byte) &&& 0x08 = 0)⟩

theorem longName_a : ∃ s t, scanDir (exactDriver (nameDisk 0x61 0)) (2 ^ 28) 2 s =
    .ok ((scanSlots [] .none).1 ++ recordOf [0x61] (fun j => nameSector 0x61 0 (1 * 32 + j)) ::
      (scanSlots (restOf 0x61 0) .none).1, t) := by
  obtain ⟨s, hreached, hvalid, hvolume⟩ := exists_mounted 0x61 0
  have hiff := longName_iff (serves_exact (nameDisk 0x61 0)) hreached hvalid (hvolume ▸ wellFormed_nameDisk 0x61 0)
    (hvolume ▸ chain_nameDisk 0x61 0) le_rfl (List.cons_ne_nil _ _) (by decide) (hvolume ▸ slotsOf_nameDisk 0x61 0)
    (fun e he => by cases he) (longEntries_nameDisk (by decide)) (isShortEntry_nameDisk 0x61 0)
  have hshown : [(0 : Byte) ++ (0x61 : Byte)].map charOf = [0x61] := by decide
  have hlegible : ∀ x ∈ [(0 : Byte) ++ (0x61 : Byte)], Legible x := by
    intro x hx
    rw [List.mem_singleton.1 hx]
    decide
  rw [hshown] at hiff
  exact ⟨s, hiff.2 (.inl hlegible)⟩

/-- The letter U+0141 is reported as `A`. -/
theorem longName_stroke : ∃ s, Reached (exactDriver (nameDisk 0x41 1)) s ∧ s.valid = true ∧
    WellFormed (nameDisk 0x41 1) s.volume 2 ∧ Chain (nameDisk 0x41 1) s.volume 2 2 [2] ∧
    slotsOf (nameDisk 0x41 1) s.volume [2] =
      [] ++ ([fun j => nameSector 0x41 1 (0 * 32 + j)] ++ (fun j => nameSector 0x41 1 (1 * 32 + j)) :: restOf 0x41 1) ∧
    LongEntries [0x0141] (entryCount [0x0141]) [fun j => nameSector 0x41 1 (0 * 32 + j)] ∧
    IsShortEntry (fun j => nameSector 0x41 1 (1 * 32 + j)) ∧ [(0x0141 : BitVec 16)].map charOf = [0x5F] ∧
    ∀ fuel, 2 ^ 28 ≤ fuel → ∃ t, scanDir (exactDriver (nameDisk 0x41 1)) fuel 2 s =
      .ok ([recordOf [0x41] fun j => nameSector 0x41 1 (1 * 32 + j)], t) := by
  obtain ⟨s, hreached, hvalid, hvolume⟩ := exists_mounted 0x41 1
  have hd := serves_exact (nameDisk 0x41 1)
  have hunit : (1 : Byte) ++ (0x41 : Byte) = (0x0141 : BitVec 16) := by decide
  have hentries : LongEntries [0x0141] (entryCount [0x0141]) [fun j => nameSector 0x41 1 (0 * 32 + j)] := by
    rw [← hunit]
    exact longEntries_nameDisk (by decide)
  refine ⟨s, hreached, hvalid, hvolume ▸ wellFormed_nameDisk 0x41 1, hvolume ▸ chain_nameDisk 0x41 1,
    hvolume ▸ slotsOf_nameDisk 0x41 1, hentries, isShortEntry_nameDisk 0x41 1, by decide, fun fuel hfuel => ?_⟩
  have hrecords : (scanSlots (slotsOf (nameDisk 0x41 1) ⟨1, 1, 2, 2⟩ [2]) .none).1 =
      [recordOf [0x41] fun j => nameSector 0x41 1 (1 * 32 + j)] := by decide +kernel
  rw [← hrecords, ← hvolume]
  exact scanDir_of_chain hd (mirrors_of_reached hd hreached) hvalid (hvolume ▸ wellFormed_nameDisk 0x41 1)
    (hvolume ▸ chain_nameDisk 0x41 1) hfuel

end Fat32State

end Rost.Vfs
