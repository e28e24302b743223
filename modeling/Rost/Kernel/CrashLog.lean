import Rost.Basic
import Rost.Lib.Circular

/-!
# The crash log

A page of memory that survives a warm reset: a header and a ring of 16 records.  `write` runs in the exception handlers
of a dying kernel, `drain` in the next boot, on whatever the reset has left there.  An array access outside its bounds
is a panic (`none`).

After `init` and any writes the ring is the end of what was written (`Holds`); `drain` reads it from the oldest record
on and clears the page.
-/

namespace Rost

open Lib.Circular (Recent window slots slots_eq update_slots)

namespace CrashLog

def headerMagic : Word := 0xC0DECAFEDEADBEEF
def recordMagic : Word := 0xE440DEADCAFE0001
def maxRecords : Nat := 16

structure ErrorRecord where
  magic : Word
  vector : Word
  tick : Word
  pid : Word
  rip : Word
  rsp : Word
  rflags : Word
  cr2 : Word
deriving DecidableEq

/-- The page as `repr(C)` lays it out; every content of the memory is one. -/
structure CrashLogRegion where
  headerMagic : Word
  writeIndex : Word
  count : Word
  pad : Vector Word 5
  records : Vector ErrorRecord maxRecords

/-- What `write_bytes` leaves. -/
def zeroed : CrashLogRegion := ⟨0, 0, 0, Vector.replicate 5 0, Vector.replicate maxRecords ⟨0, 0, 0, 0, 0, 0, 0, 0⟩⟩

/-! ### Operations -/

/-- Stamp the header; the records stay as they are. -/
def init (r : CrashLogRegion) : CrashLogRegion :=
  { r with headerMagic := headerMagic, writeIndex := 0, count := 0 }

/-- A record as it is stored. -/
def stamp (record : ErrorRecord) : ErrorRecord := { record with magic := recordMagic }

def write (r : CrashLogRegion) (record : ErrorRecord) : Option CrashLogRegion :=
  let idx := r.writeIndex.toNat % maxRecords
  if h : idx < maxRecords then
    some
      { r with
        records := r.records.set idx (stamp record) h
        writeIndex := (r.writeIndex + 1) % 16
        count := if r.count = BitVec.allOnes 64 then r.count else r.count + 1
        headerMagic := headerMagic }
  else none

/-- A call of the callback: the number of records before it, the total, and the record. -/
structure Call where
  seen : Nat
  total : Nat
  record : ErrorRecord
deriving DecidableEq

/-- The slot that `drain` reads in round `i`. -/
def drainIndex (start count i : Word) : Nat := (start + 16 - count + i).toNat % maxRecords

/-- The rounds from `i` on, `n` of them; the calls made so far come first. -/
def drainLoop (r : CrashLogRegion) (count : Word) : Nat → Nat → List Call → Option (List Call)
  | 0, _, calls => some calls
  | n + 1, i, calls => do
    let record ← r.records[drainIndex r.writeIndex count (BitVec.ofNat 64 i)]?
    if record.magic ≠ recordMagic then drainLoop r count n (i + 1) calls
    else drainLoop r count n (i + 1) (calls ++ [⟨calls.length, r.count.toNat, record⟩])

/-- `count.min(MAX_RECORDS)` -/
def stored (r : CrashLogRegion) : Word := if r.count ≤ 16 then r.count else 16

/-- The region that is left, the number of records, and the calls. -/
def drain (r : CrashLogRegion) : Option (CrashLogRegion × Nat × List Call) :=
  if r.headerMagic ≠ headerMagic then some (r, 0, [])
  else if stored r = 0 then some (r, 0, [])
  else (drainLoop r (stored r) (stored r).toNat 0 []).map fun calls => (zeroed, calls.length, calls)

/-- The records `rs`, one after the other. -/
def writes (r : CrashLogRegion) (rs : List ErrorRecord) : Option CrashLogRegion := rs.foldlM write r

/-! ### The ring -/

theorem maxRecords_pos : 0 < maxRecords := by decide

/-- The page is the end of the records `rs`, written since `init`. -/
structure Holds (r : CrashLogRegion) (rs : List ErrorRecord) : Prop where
  header : r.headerMagic = headerMagic
  writeIndex : r.writeIndex.toNat = rs.length % 16
  count : r.count.toNat = min rs.length (2 ^ 64 - 1)
  ring : Recent maxRecords (slots maxRecords_pos r.records) (rs.length - 16) (min rs.length 16) (rs.map stamp)

theorem holds_init (r : CrashLogRegion) : Holds (init r) [] :=
  ⟨rfl, rfl, rfl, Recent.nil maxRecords _ 0⟩

/-- A new record goes to a free slot, or to the oldest one. -/
private theorem recent_write {f : Nat → ErrorRecord} {rs : List ErrorRecord}
    (h : Recent maxRecords f (rs.length - 16) (min rs.length 16) (rs.map stamp)) (record : ErrorRecord) :
    Recent maxRecords (Function.update f (rs.length % 16 % 16) (stamp record)) (rs.length + 1 - 16)
      (min (rs.length + 1) 16) ((rs ++ [record]).map stamp) := by
  rw [List.map_append, List.map_singleton]
  rcases Nat.lt_or_ge rs.length 16 with hlt | hge
  · have hpush := h.push (show min rs.length 16 < 16 by omega) (stamp record)
    have hslot : (rs.length - 16 + min rs.length 16) % maxRecords = rs.length % 16 % 16 := by
      unfold maxRecords
      omega
    rw [hslot] at hpush
    rw [show rs.length + 1 - 16 = rs.length - 16 by omega, show min (rs.length + 1) 16 = min rs.length 16 + 1 by omega]
    exact hpush
  · have hpush := h.push_full maxRecords_pos (show min rs.length 16 = 16 by omega) (stamp record)
    have hslot : (rs.length - 16) % maxRecords = rs.length % 16 % 16 := by
      unfold maxRecords
      omega
    rw [hslot] at hpush
    rw [show rs.length + 1 - 16 = rs.length - 16 + 1 by omega, show min (rs.length + 1) 16 = min rs.length 16 by omega]
    exact hpush

private theorem toNat_saturate (c : Word) {n : Nat} (h : c.toNat = min n (2 ^ 64 - 1)) :
    (if c = BitVec.allOnes 64 then c else c + 1).toNat = min (n + 1) (2 ^ 64 - 1) := by
  split
  · rename_i heq
    have hall : c.toNat = 2 ^ 64 - 1 := by
      rw [heq]
      rfl
    omega
  · rename_i hne
    have hlt : c.toNat ≠ 2 ^ 64 - 1 := fun heq => hne (BitVec.eq_of_toNat_eq heq)
    have hone : (c + 1).toNat = (c.toNat + 1) % 2 ^ 64 := BitVec.toNat_add ..
    omega

theorem Holds.write {r : CrashLogRegion} {rs : List ErrorRecord} (h : Holds r rs) (record : ErrorRecord) :
    ∃ r', CrashLog.write r record = some r' ∧ Holds r' (rs ++ [record]) := by
  have hidx : r.writeIndex.toNat % maxRecords < maxRecords := Nat.mod_lt _ maxRecords_pos
  have hlen : (rs ++ [record]).length = rs.length + 1 := by simp
  refine ⟨_, dif_pos hidx, rfl, ?_, ?_, ?_⟩
  · have hnext : ((r.writeIndex + 1) % 16).toNat = (r.writeIndex.toNat + 1) % 2 ^ 64 % 16 := by
      rw [BitVec.toNat_umod, BitVec.toNat_add]
      rfl
    have hidx := h.writeIndex
    show ((r.writeIndex + 1) % 16).toNat = _
    rw [hlen, hnext]
    omega
  · rw [hlen]
    exact toNat_saturate r.count h.count
  · rw [hlen]
    refine (recent_write h.ring record).congr maxRecords_pos fun i hi => ?_
    rw [← h.writeIndex]
    exact update_slots maxRecords_pos r.records hidx (stamp record) hi

theorem writes_holds {r : CrashLogRegion} {rs : List ErrorRecord} (h : Holds r rs) (more : List ErrorRecord) :
    ∃ r', writes r more = some r' ∧ Holds r' (rs ++ more) := by
  induction more generalizing r rs with
  | nil => exact ⟨r, rfl, by rw [List.append_nil]; exact h⟩
  | cons record more ih =>
    obtain ⟨r₁, hwrite, hr₁⟩ := h.write record
    obtain ⟨r₂, hrest, hr₂⟩ := ih hr₁
    refine ⟨r₂, ?_, by rw [List.append_cons]; exact hr₂⟩
    unfold writes at hrest ⊢
    rw [List.foldlM_cons, hwrite]
    exact hrest

/-! ### Draining -/

/-- The record of round `i`. -/
def visited (r : CrashLogRegion) (count : Word) (i : Nat) : ErrorRecord :=
  slots maxRecords_pos r.records (drainIndex r.writeIndex count (BitVec.ofNat 64 i))

/-- The calls for the records `rs`, after those made so far. -/
def callsFor (total : Nat) (calls : List Call) : List ErrorRecord → List Call
  | [] => calls
  | record :: rs =>
    if record.magic ≠ recordMagic then callsFor total calls rs
    else callsFor total (calls ++ [⟨calls.length, total, record⟩]) rs

/-- The loop stays inside the ring, whatever the header says. -/
theorem drainLoop_eq (r : CrashLogRegion) (count : Word) (n i : Nat) (calls : List Call) :
    drainLoop r count n i calls =
      some (callsFor r.count.toNat calls ((List.range n).map fun k => visited r count (i + k))) := by
  induction n generalizing i calls with
  | zero => rfl
  | succ n ih =>
    have hget : r.records[drainIndex r.writeIndex count (BitVec.ofNat 64 i)]? = some (visited r count i) := by
      have hmod : drainIndex r.writeIndex count (BitVec.ofNat 64 i) % maxRecords =
          drainIndex r.writeIndex count (BitVec.ofNat 64 i) := Nat.mod_mod _ _
      have hslot := slots_eq maxRecords_pos r.records (drainIndex r.writeIndex count (BitVec.ofNat 64 i))
      rw [hmod] at hslot
      exact hslot
    have hrest : (List.range (n + 1)).map (fun k => visited r count (i + k)) =
        visited r count i :: (List.range n).map fun k => visited r count (i + 1 + k) := by
      rw [List.range_succ_eq_map, List.map_cons, List.map_map]
      refine congrArg _ (List.map_congr_left fun k _ => ?_)
      show visited r count (i + (k + 1)) = _
      rw [Nat.add_assoc, Nat.add_comm 1 k]
    unfold drainLoop
    rw [hget, hrest]
    show (if _ then _ else _) = some (callsFor r.count.toNat calls (_ :: _))
    unfold callsFor
    split
    · exact ih (i + 1) calls
    · exact ih (i + 1) _

theorem length_callsFor (total : Nat) (calls : List Call) (rs : List ErrorRecord) :
    (callsFor total calls rs).length ≤ calls.length + rs.length := by
  induction rs generalizing calls with
  | nil => exact Nat.le_refl _
  | cons record rs ih =>
    unfold callsFor
    rw [List.length_cons]
    split
    · have := ih calls
      omega
    · have := ih (calls ++ [⟨calls.length, total, record⟩])
      rw [List.length_append, List.length_singleton] at this
      omega

theorem mem_callsFor {total : Nat} {calls : List Call} {rs : List ErrorRecord} {c : Call}
    (h : c ∈ callsFor total calls rs) : c ∈ calls ∨ c.record ∈ rs := by
  induction rs generalizing calls with
  | nil => exact Or.inl h
  | cons record rs ih =>
    unfold callsFor at h
    split at h
    · rcases ih h with hc | hc
      · exact Or.inl hc
      · exact Or.inr (List.mem_cons_of_mem _ hc)
    · rcases ih h with hc | hc
      · rcases List.mem_append.1 hc with hc | hc
        · exact Or.inl hc
        · rw [List.mem_singleton.1 hc]
          exact Or.inr List.mem_cons_self
      · exact Or.inr (List.mem_cons_of_mem _ hc)

/-- Stamped records are all passed on, numbered from the first. -/
theorem callsFor_stamped (total : Nat) (calls : List Call) (rs : List ErrorRecord) :
    callsFor total calls (rs.map stamp) =
      calls ++ (rs.map stamp).mapIdx fun i record => ⟨calls.length + i, total, record⟩ := by
  induction rs generalizing calls with
  | nil => simp [callsFor]
  | cons record rs ih =>
    have hnext : ∀ i, (calls ++ [(⟨calls.length, total, stamp record⟩ : Call)]).length + i = calls.length + (i + 1) := by
      intro i
      rw [List.length_append, List.length_singleton]
      omega
    have hmagic : ¬ (stamp record).magic ≠ recordMagic := fun hne => hne rfl
    rw [List.map_cons]
    unfold callsFor
    rw [if_neg hmagic, ih, List.mapIdx_cons, List.append_assoc]
    simp only [hnext]
    rfl

/-- The rounds of `drain` over the records `rs`. -/
private theorem visited_eq {r : CrashLogRegion} {rs : List ErrorRecord} (h : Holds r rs) {count : Word}
    (hcount : count.toNat = min rs.length 16) :
    (List.range count.toNat).map (fun k => visited r count (0 + k)) = (rs.map stamp).rtake 16 := by
  have hring := h.ring.window
  have hidx := h.writeIndex
  rw [hcount]
  refine Eq.trans (List.map_congr_left fun k hk => ?_) hring
  have hk := List.mem_range.1 hk
  show slots maxRecords_pos r.records _ = slots maxRecords_pos r.records _
  congr 1
  unfold drainIndex
  rw [BitVec.toNat_add, BitVec.toNat_sub, BitVec.toNat_add, hidx, hcount, BitVec.toNat_ofNat, Nat.zero_add]
  unfold maxRecords
  show ((2 ^ 64 - min rs.length 16 + (rs.length % 16 + 16) % 2 ^ 64) % 2 ^ 64 + k % 2 ^ 64) % 2 ^ 64 % 16 = _
  omega

theorem toNat_stored (r : CrashLogRegion) : (stored r).toNat = min r.count.toNat 16 := by
  unfold stored
  split
  · rename_i hle
    have : r.count.toNat ≤ 16 := hle
    omega
  · rename_i hgt
    have : ¬ r.count.toNat ≤ 16 := hgt
    show 16 = _
    omega

/-- A page without records, or of another kernel, is left as it is. -/
theorem drain_of_empty {r : CrashLogRegion} (h : r.headerMagic ≠ headerMagic ∨ stored r = 0) :
    drain r = some (r, 0, []) := by
  unfold drain
  split
  · rfl
  · rename_i hmagic
    rw [if_pos (h.resolve_left hmagic)]

/-- Any other page is cleared. -/
theorem drain_of_records {r : CrashLogRegion} (hmagic : r.headerMagic = headerMagic) (hcount : stored r ≠ 0) :
    drain r = some (zeroed,
      (callsFor r.count.toNat [] ((List.range (stored r).toNat).map fun k => visited r (stored r) (0 + k))).length,
      callsFor r.count.toNat [] ((List.range (stored r).toNat).map fun k => visited r (stored r) (0 + k))) := by
  unfold drain
  rw [if_neg (not_not.2 hmagic), if_neg hcount, drainLoop_eq]
  rfl

/-- `drain` returns what `init` and the writes have left, oldest first. -/
theorem drain_holds {r : CrashLogRegion} {rs : List ErrorRecord} (h : Holds r rs) :
    ∃ r', drain r = some (r', min rs.length 16,
        ((rs.rtake 16).map stamp).mapIdx fun i record => ⟨i, min rs.length (2 ^ 64 - 1), record⟩) ∧
      drain r' = some (r', 0, []) := by
  have hstored : (stored r).toNat = min rs.length 16 := by
    rw [toNat_stored, h.count]
    omega
  by_cases hzero : stored r = 0
  · have hnil : rs = [] := by
      rw [hzero] at hstored
      have hlen : 0 = min rs.length 16 := hstored
      exact List.length_eq_zero_iff.1 (by omega)
    have hdrain := drain_of_empty (Or.inr hzero)
    refine ⟨r, ?_, hdrain⟩
    rw [hdrain, hnil]
    rfl
  · have hcalls : (rs.map stamp).rtake 16 = (rs.rtake 16).map stamp := by
      unfold List.rtake
      rw [List.length_map, List.map_drop]
    have hlen : (rs.rtake 16).length = min rs.length 16 := by
      unfold List.rtake
      rw [List.length_drop]
      omega
    have hcleared : zeroed.headerMagic ≠ headerMagic := by decide
    refine ⟨zeroed, ?_, drain_of_empty (Or.inl hcleared)⟩
    rw [drain_of_records h.header hzero, visited_eq h hstored, hcalls, callsFor_stamped, h.count]
    simp [hlen]

/-- On every content of the memory `drain` returns; it passes on at most 16 records, all of them from the ring. -/
theorem drain_total (r : CrashLogRegion) :
    ∃ r' n calls, drain r = some (r', n, calls) ∧ n = calls.length ∧ n ≤ 16 ∧
      ∀ c ∈ calls, ∃ i < 16, r.records[i]? = some c.record := by
  by_cases hempty : r.headerMagic ≠ headerMagic ∨ stored r = 0
  · exact ⟨r, 0, [], drain_of_empty hempty, rfl, by omega, by simp⟩
  · rw [not_or, not_not] at hempty
    refine ⟨_, _, _, drain_of_records hempty.1 hempty.2, rfl, ?_, fun c hc => ?_⟩
    · have hle := length_callsFor r.count.toNat [] ((List.range (stored r).toNat).map fun k => visited r (stored r) (0 + k))
      have hstored := toNat_stored r
      rw [List.length_map, List.length_range, List.length_nil] at hle
      omega
    · rcases mem_callsFor hc with hnone | hmem
      · cases hnone
      · obtain ⟨k, -, hk⟩ := List.mem_map.1 hmem
        have hslot := slots_eq maxRecords_pos r.records (drainIndex r.writeIndex (stored r) (BitVec.ofNat 64 (0 + k)))
        exact ⟨_, Nat.mod_lt _ maxRecords_pos, by rw [← hk]; exact hslot⟩

/-- Whatever the memory held, after `init` and any number of writes `drain` passes on the last 16 records or as many as
there are, oldest first and with the magic stamped, returns their number, and leaves nothing for a second `drain`.  On
any other content of the memory, too, it returns, and reads only records of the ring. -/
theorem crash_log_survives :
    (∀ (m : CrashLogRegion) (rs : List ErrorRecord), ∃ r r', writes (init m) rs = some r ∧
      drain r = some (r', min rs.length 16,
        ((rs.rtake 16).map stamp).mapIdx fun i record => ⟨i, min rs.length (2 ^ 64 - 1), record⟩) ∧
      drain r' = some (r', 0, [])) ∧
    ∀ m : CrashLogRegion, ∃ r n calls, drain m = some (r, n, calls) ∧ n = calls.length ∧ n ≤ 16 ∧
      ∀ c ∈ calls, ∃ i < 16, m.records[i]? = some c.record := by
  refine ⟨fun m rs => ?_, drain_total⟩
  obtain ⟨r, hwrites, hr⟩ := writes_holds (holds_init m) rs
  obtain ⟨r', hdrain, hagain⟩ := drain_holds hr
  exact ⟨r, r', hwrites, hdrain, hagain⟩

end CrashLog

end Rost
