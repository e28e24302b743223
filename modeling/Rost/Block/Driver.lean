import Rost.Basic
import Rost.Lib.Run

/-!
# The block driver

The driver answers reads of up to 40 bytes from a cache of one sector, and has the device read a sector that is not in it.
One read at a time waits for the device; others are refused meanwhile.  Two things go wrong: a sector number is cut to 32
bits, and a completion with an error is taken for none, so that its request is never answered and the driver stays busy
(`System.reads_answered`).
-/

namespace Rost.Block

open Lib (Run exec run_of_exec)
open scoped List

abbrev Bytes := List Byte

def sectorSize : Nat := 512
def chunkSize : Nat := 40

/-- A request `OP_BLK_READ`. -/
structure Request where
  sender : Nat
  lba : Nat
  offset : Nat
deriving DecidableEq

/-- `RESP_BLK_DATA` or `RESP_ERROR`. -/
inductive Reply where
  | data (chunk : Bytes)
  | error (errno : Nat)
deriving DecidableEq

/-- The statics of the driver, and its indices of the queue. -/
structure Driver where
  availIdx : Nat
  usedLast : Nat
  pendingSender : Nat
  pendingLba : Nat
  pendingOffset : Nat
  cacheLba : Nat
  cacheBuf : Nat → Byte
  cacheValid : Bool

/-- What the device writes, and the sector that it has been asked to read. -/
structure Device where
  usedIdx : Nat
  status : Byte
  sectorBuf : Nat → Byte
  reading : Option Nat

/-! ### The driver -/

/-- `n` bytes from `offset` on, 40 at most. -/
def packBytes (src : Nat → Byte) (offset n : Nat) : Bytes :=
  (List.range (min (min (offset + n) sectorSize) (offset + chunkSize) - offset)).map fun i => src (offset + i)

namespace Driver

def serveFromCache (d : Driver) (sender offset : Nat) : Nat × Reply :=
  (sender, .data (packBytes d.cacheBuf offset (min (sectorSize - offset) chunkSize)))

/-- `msg.data[1] as u32` -/
def lbaOf (r : Request) : Nat := r.lba % 2 ^ 32

/-- The sector is in the cache. -/
def hits (d : Driver) (r : Request) : Bool := d.cacheValid && d.cacheLba == lbaOf r

/-- The device is asked for a sector. -/
def submitRead (d : Driver) (dev : Device) (sector : Nat) : Driver × Device :=
  ({ d with availIdx := (d.availIdx + 1) % 2 ^ 16 }, { dev with status := 0xFF, reading := some sector })

/-- The result is the answer, if there is one. -/
def handleRead (d : Driver) (dev : Device) (r : Request) : (Driver × Device) × Option (Nat × Reply) :=
  if sectorSize ≤ r.offset then ((d, dev), some (r.sender, .error 1))
  else if d.hits r then ((d, dev), some (d.serveFromCache r.sender r.offset))
  else if d.pendingSender ≠ 0 then ((d, dev), some (r.sender, .error 16))
  else
    let out := d.submitRead dev (lbaOf r)
    (({ out.1 with pendingSender := r.sender, pendingLba := lbaOf r, pendingOffset := r.offset }, out.2), none)

/-- Whether the device has completed the request without an error. -/
def checkComplete (d : Driver) (dev : Device) : Driver × Bool :=
  if dev.usedIdx = d.usedLast then (d, false) else ({ d with usedLast := dev.usedIdx }, dev.status == 0)

def handleIrqCompletion (d : Driver) (dev : Device) : Driver × Option (Nat × Reply) :=
  if d.pendingSender = 0 then (d, none)
  else
    let out := d.checkComplete dev
    if !out.2 then (out.1, none)
    else
      let d := { out.1 with pendingSender := 0 }
      if dev.status = 0 then
        let d := { d with cacheBuf := dev.sectorBuf, cacheLba := d.pendingLba, cacheValid := true }
        (d, some (d.serveFromCache out.1.pendingSender d.pendingOffset))
      else (d, some (out.1.pendingSender, .error 5))

end Driver

/-- The device completes the read of a sector.  With an error the buffer may hold anything. -/
def Device.complete (disk : Nat → Nat → Byte) (dev : Device) (status : Byte) (other : Nat → Byte) : Option Device :=
  dev.reading.map fun sector =>
    { usedIdx := (dev.usedIdx + 1) % 2 ^ 16
      status := status
      sectorBuf := if status = 0 then disk sector else other
      reading := none }

/-! ### The driver and the device -/

/-- `owed` is the request that has not been answered yet. -/
structure System where
  driver : Driver
  device : Device
  owed : Option Request

/-- A request arrives, or a notification, which any client can send too; or the device completes a read. -/
inductive BlkOp where
  | read (r : Request)
  | notify
  | complete (status : Byte) (other : Nat → Byte)

namespace System

def boot : System :=
  ⟨⟨0, 0, 0, 0, 0, 2 ^ 32 - 1, fun _ => 0, false⟩, ⟨0, 0xFF, fun _ => 0, none⟩, none⟩

/-- The result is the answer that the driver sends, and to whom.  No process has the pid 0. -/
def step (disk : Nat → Nat → Byte) (x : System) : BlkOp → Option (System × Option (Nat × Reply))
  | .read r =>
    if r.sender = 0 then none
    else
      let out := x.driver.handleRead x.device r
      some (⟨out.1.1, out.1.2, if out.2.isNone then some r else x.owed⟩, out.2)
  | .notify =>
    let out := x.driver.handleIrqCompletion x.device
    some ({ x with driver := out.1, owed := if out.2.isSome then none else x.owed }, out.2)
  | .complete status other => (x.device.complete disk status other).map fun dev => ({ x with device := dev }, none)

/-- The bytes of a sector that a request asks for. -/
def chunkAt (disk : Nat → Nat → Byte) (lba offset : Nat) : Bytes :=
  (List.range (min (offset + chunkSize) sectorSize - offset)).map fun i => disk lba (offset + i)

/-- The answer goes to the client, and data are the bytes that it has asked for. -/
def Answers (disk : Nat → Nat → Byte) (r : Request) (answer : Nat × Reply) : Prop :=
  answer.1 = r.sender ∧ ∀ chunk, answer.2 = .data chunk → chunk = chunkAt disk r.lba r.offset

/-- The device has completed the read of a request that has not been answered. -/
def Finished (x : System) : Prop := x.owed ≠ none ∧ x.device.reading = none

/-- The driver takes a miss. -/
def Accepts (x : System) : Prop := x.driver.pendingSender = 0

/-- A request is answered at once, or the device is asked for its sector and it is owed; when the device has read the
sector, the next notification brings the answer, and the driver takes a miss again. -/
def Right (disk : Nat → Nat → Byte) (x : System) (op : BlkOp) (y : System) (answer : Option (Nat × Reply)) : Prop :=
  match op, answer with
  | .read r, some a => Answers disk r a ∧ y.owed = x.owed
  | .read r, none => x.owed = none ∧ y.owed = some r ∧ y.device.reading = some r.lba
  | .notify, some a => x.Finished ∧ (∃ r, x.owed = some r ∧ Answers disk r a) ∧ y.owed = none ∧ y.Accepts
  | .notify, none => ¬ x.Finished ∧ y.owed = x.owed
  | .complete _ _, a => a = none ∧ y.owed = x.owed

/-- Whatever the step leads to is right. -/
def Meets (disk : Nat → Nat → Byte) (x : System) (op : BlkOp) : Prop :=
  ∀ y answer, x.step disk op = some (y, answer) → x.Right disk op y answer

/-- A request whose sector number is cut has the same bytes in the cache, or is refused; and a read that is completed when a
notification comes has no error. -/
def Sound (disk : Nat → Nat → Byte) (x : System) : BlkOp → Prop
  | .read r => r.offset < sectorSize →
      if x.driver.hits r then chunkAt disk (Driver.lbaOf r) r.offset = chunkAt disk r.lba r.offset
      else x.driver.pendingSender = 0 → r.lba < 2 ^ 32
  | .notify => x.Finished → x.device.status = 0
  | .complete _ _ => True

/-! ### The driver and the device agree -/

/-- The cache holds a sector of the disk.  Nothing is pending unless a request is owed; then the device either still reads
its sector, or has read it and the driver has not looked at the used index since. -/
structure Consistent (disk : Nat → Nat → Byte) (x : System) : Prop where
  usedLast_lt : x.driver.usedLast < 2 ^ 16
  cache : x.driver.cacheValid = true → x.driver.cacheBuf = disk x.driver.cacheLba
  idle : x.owed = none → x.driver.pendingSender = 0 ∧ x.device.reading = none ∧ x.device.usedIdx = x.driver.usedLast
  pending : ∀ r, x.owed = some r → r.sender ≠ 0 ∧ r.offset < sectorSize ∧ x.driver.pendingSender = r.sender ∧
    x.driver.pendingLba = r.lba ∧ x.driver.pendingOffset = r.offset
  waiting : ∀ r, x.owed = some r → x.device.reading ≠ none →
    x.device.reading = some r.lba ∧ x.device.usedIdx = x.driver.usedLast
  done : ∀ r, x.owed = some r → x.device.reading = none →
    x.device.usedIdx = (x.driver.usedLast + 1) % 2 ^ 16 ∧ (x.device.status = 0 → x.device.sectorBuf = disk r.lba)

variable {disk : Nat → Nat → Byte} {x y : System} {answer : Option (Nat × Reply)} {r : Request}

theorem consistent_boot (disk : Nat → Nat → Byte) : boot.Consistent disk := by
  refine ⟨by decide, fun h => (by cases h), fun _ => ⟨rfl, rfl, rfl⟩, ?_, ?_, ?_⟩
  · intro r h
    cases h
  · intro r h
    cases h
  · intro r h
    cases h

/-- Something is owed exactly if it is pending. -/
theorem Consistent.owed_eq_none_iff (h : x.Consistent disk) : x.owed = none ↔ x.driver.pendingSender = 0 := by
  constructor
  · exact fun hnone => (h.idle hnone).1
  · intro hzero
    cases howed : x.owed with
    | none => rfl
    | some r =>
      obtain ⟨hsender, -, hpending, -⟩ := h.pending r howed
      rw [hzero] at hpending
      exact absurd hpending.symm hsender

/-- The chunk is cut at 40 bytes and at the end of the sector. -/
theorem packBytes_eq {lba offset : Nat} (h : offset < sectorSize) :
    packBytes (disk lba) offset (min (sectorSize - offset) chunkSize) = chunkAt disk lba offset := by
  have hlen : min (min (offset + min (sectorSize - offset) chunkSize) sectorSize) (offset + chunkSize) - offset =
      min (offset + chunkSize) sectorSize - offset := by
    unfold sectorSize chunkSize at *
    omega
  unfold packBytes chunkAt
  rw [hlen]

/-- What comes of a request. -/
theorem step_read (h : x.Consistent disk) (hstep : x.step disk (.read r) = some (y, answer)) :
    r.sender ≠ 0 ∧
    ((sectorSize ≤ r.offset ∧ y = x ∧ answer = some (r.sender, .error 1)) ∨
     (r.offset < sectorSize ∧ x.driver.hits r = true ∧ y = x ∧
        answer = some (r.sender, .data (chunkAt disk (Driver.lbaOf r) r.offset))) ∨
     (r.offset < sectorSize ∧ x.driver.hits r = false ∧ x.owed ≠ none ∧ y = x ∧ answer = some (r.sender, .error 16)) ∨
     (r.offset < sectorSize ∧ x.driver.hits r = false ∧ x.owed = none ∧ answer = none ∧
        y = ⟨{ x.driver with availIdx := (x.driver.availIdx + 1) % 2 ^ 16, pendingSender := r.sender,
                             pendingLba := Driver.lbaOf r, pendingOffset := r.offset },
          { x.device with status := 0xFF, reading := some (Driver.lbaOf r) }, some r⟩)) := by
  unfold step at hstep
  dsimp only at hstep
  split at hstep
  · cases hstep
  · rename_i hsender
    refine ⟨hsender, ?_⟩
    unfold Driver.handleRead at hstep
    dsimp only at hstep
    by_cases hoff : sectorSize ≤ r.offset
    · rw [if_pos hoff] at hstep
      cases hstep
      exact .inl ⟨hoff, rfl, rfl⟩
    · rw [if_neg hoff] at hstep
      by_cases hhit : x.driver.hits r = true
      · rw [if_pos hhit] at hstep
        cases hstep
        refine .inr (.inl ⟨Nat.not_le.1 hoff, hhit, rfl, ?_⟩)
        unfold Driver.hits at hhit
        rw [Bool.and_eq_true, beq_iff_eq] at hhit
        unfold Driver.serveFromCache
        rw [h.cache hhit.1, hhit.2, packBytes_eq (Nat.not_le.1 hoff)]
      · rw [if_neg hhit] at hstep
        rw [Bool.not_eq_true] at hhit
        by_cases hpending : x.driver.pendingSender ≠ 0
        · rw [if_pos hpending] at hstep
          cases hstep
          exact .inr (.inr (.inl ⟨Nat.not_le.1 hoff, hhit, mt h.owed_eq_none_iff.1 hpending, rfl, rfl⟩))
        · rw [if_neg hpending] at hstep
          cases hstep
          exact .inr (.inr (.inr ⟨Nat.not_le.1 hoff, hhit, h.owed_eq_none_iff.2 (not_not.1 hpending), rfl, rfl⟩))

/-- What comes of a notification. -/
theorem step_notify (h : x.Consistent disk) (hstep : x.step disk .notify = some (y, answer)) :
    (¬ x.Finished ∧ y = x ∧ answer = none) ∨
    (x.Finished ∧ x.device.status ≠ 0 ∧ answer = none ∧ y = { x with driver := { x.driver with usedLast := x.device.usedIdx } }) ∨
    (∃ r, x.owed = some r ∧ x.device.reading = none ∧ x.device.status = 0 ∧
      answer = some (r.sender, .data (chunkAt disk r.lba r.offset)) ∧
      y = ⟨{ x.driver with usedLast := x.device.usedIdx, pendingSender := 0, cacheBuf := disk r.lba, cacheLba := r.lba,
                           cacheValid := true }, x.device, none⟩) := by
  unfold step Driver.handleIrqCompletion Driver.checkComplete at hstep
  dsimp only at hstep
  cases howed : x.owed with
  | none =>
    rw [if_pos (h.idle howed).1] at hstep
    cases hstep
    refine .inl ⟨fun hfin => hfin.1 howed, ?_, rfl⟩
    rw [← howed]
    rfl
  | some r =>
    obtain ⟨hsender, hoff, hpending, hlba, hoffset⟩ := h.pending r howed
    rw [if_neg (by rw [hpending]; exact hsender)] at hstep
    by_cases hreading : x.device.reading = none
    · obtain ⟨hused, hbuf⟩ := h.done r howed hreading
      have hne : x.device.usedIdx ≠ x.driver.usedLast := by
        have hlt := h.usedLast_lt
        omega
      rw [if_neg hne] at hstep
      by_cases hstatus : x.device.status = 0
      · have hbeq : (x.device.status == 0) = true := by simpa using hstatus
        simp only [hbeq, Bool.not_true, Bool.false_eq_true, if_false, if_pos hstatus, Option.isSome_some, if_true] at hstep
        cases hstep
        refine .inr (.inr ⟨r, rfl, hreading, hstatus, ?_, ?_⟩)
        · simp only [Driver.serveFromCache, hbuf hstatus, hoffset, hpending, packBytes_eq hoff]
        · simp only [hbuf hstatus, hlba]
      · have hbne : (x.device.status == 0) = false := by simpa using hstatus
        simp only [hbne, Bool.not_false, if_true, Option.isSome_none, Bool.false_eq_true, if_false] at hstep
        cases hstep
        exact .inr (.inl ⟨⟨by rw [howed]; exact Option.some_ne_none r, hreading⟩, hstatus, rfl, by rw [← howed]⟩)
    · have hused := (h.waiting r howed hreading).2
      simp only [if_pos hused, Bool.not_false, if_true, Option.isSome_none, Bool.false_eq_true, if_false] at hstep
      cases hstep
      exact .inl ⟨fun hfin => hreading hfin.2, rfl, rfl⟩

/-- A completion only lets the device go on. -/
theorem step_complete {status : Byte} {other : Nat → Byte} (hstep : x.step disk (.complete status other) = some (y, answer)) :
    answer = none ∧ ∃ sector, x.device.reading = some sector ∧
      y = { x with device := ⟨(x.device.usedIdx + 1) % 2 ^ 16, status, if status = 0 then disk sector else other, none⟩ } := by
  obtain ⟨dev, hdev, heq⟩ := Option.map_eq_some_iff.1 hstep
  obtain ⟨sector, hreading, rfl⟩ := Option.map_eq_some_iff.1 hdev
  cases heq
  exact ⟨rfl, sector, hreading, rfl⟩

/-- A step that is right is sound, and the other way around. -/
theorem right_iff (h : x.Consistent disk) {op : BlkOp} (hstep : x.step disk op = some (y, answer)) :
    x.Right disk op y answer ↔ x.Sound disk op := by
  cases op with
  | read r =>
    rcases (step_read h hstep).2 with ⟨hoff, rfl, rfl⟩ | ⟨hoff, hhit, rfl, rfl⟩ | ⟨hoff, hhit, howed, rfl, rfl⟩ |
      ⟨hoff, hhit, howed, rfl, rfl⟩
    · refine ⟨fun _ hlt => absurd hlt (Nat.not_lt.2 hoff), fun _ => ⟨⟨rfl, fun chunk hchunk => ?_⟩, rfl⟩⟩
      cases hchunk
    · constructor
      · rintro ⟨⟨-, hdata⟩, -⟩ -
        rw [if_pos hhit]
        exact hdata _ rfl
      · intro hsound
        have hchunk := hsound hoff
        rw [if_pos hhit] at hchunk
        refine ⟨⟨rfl, fun chunk hdata => ?_⟩, rfl⟩
        cases hdata
        exact hchunk
    · constructor
      · rintro - -
        rw [hhit, if_neg Bool.false_ne_true]
        exact fun hzero => absurd (h.owed_eq_none_iff.2 hzero) howed
      · refine fun _ => ⟨⟨rfl, fun chunk hdata => ?_⟩, rfl⟩
        cases hdata
    · constructor
      · rintro ⟨-, -, hreading⟩ -
        rw [hhit, if_neg Bool.false_ne_true]
        intro _
        have hlba : Driver.lbaOf r = r.lba := Option.some.inj hreading
        unfold Driver.lbaOf at hlba
        omega
      · intro hsound
        have hlt := hsound hoff
        rw [hhit, if_neg Bool.false_ne_true] at hlt
        exact ⟨howed, rfl, congrArg some (Nat.mod_eq_of_lt (hlt (h.owed_eq_none_iff.1 howed)))⟩
  | notify =>
    rcases step_notify h hstep with ⟨hfin, rfl, rfl⟩ | ⟨hfin, hstatus, rfl, rfl⟩ | ⟨r, howed, hreading, hstatus, rfl, rfl⟩
    · exact ⟨fun _ hfin' => absurd hfin' hfin, fun _ => ⟨hfin, rfl⟩⟩
    · exact ⟨fun hright => absurd hfin hright.1, fun hsound => absurd (hsound hfin) hstatus⟩
    · refine ⟨fun _ _ => hstatus, fun _ => ⟨⟨?_, hreading⟩, ⟨r, howed, rfl, fun chunk hdata => ?_⟩, rfl, rfl⟩⟩
      · rw [howed]
        exact Option.some_ne_none r
      · cases hdata
        rfl
  | complete status other =>
    obtain ⟨rfl, sector, -, rfl⟩ := step_complete hstep
    exact ⟨fun _ => trivial, fun _ => ⟨rfl, rfl⟩⟩

/-- A right step keeps the driver and the device consistent. -/
theorem Consistent.step (h : x.Consistent disk) {op : BlkOp} (hstep : x.step disk op = some (y, answer))
    (hright : x.Right disk op y answer) : y.Consistent disk := by
  cases op with
  | read r =>
    obtain ⟨hsender, hcase⟩ := step_read h hstep
    rcases hcase with ⟨-, rfl, -⟩ | ⟨-, -, rfl, -⟩ | ⟨-, -, -, rfl, -⟩ | ⟨hoff, -, howed, rfl, rfl⟩
    · exact h
    · exact h
    · exact h
    · have hlba : Driver.lbaOf r = r.lba := Option.some.inj hright.2.2
      refine ⟨h.usedLast_lt, h.cache, fun hnone => (by cases hnone), ?_, ?_, ?_⟩
      · rintro _ ⟨⟩
        exact ⟨hsender, hoff, rfl, hlba, rfl⟩
      · rintro _ ⟨⟩ -
        exact ⟨hright.2.2, (h.idle howed).2.2⟩
      · rintro _ ⟨⟩ hnone
        cases hnone
  | notify =>
    rcases step_notify h hstep with ⟨-, rfl, -⟩ | ⟨hfin, -, rfl, -⟩ | ⟨r, howed, hreading, -, -, rfl⟩
    · exact h
    · exact absurd hfin hright.1
    · refine ⟨?_, fun _ => rfl, fun _ => ⟨rfl, hreading, rfl⟩, ?_, ?_, ?_⟩
      · show x.device.usedIdx < 2 ^ 16
        rw [(h.done r howed hreading).1]
        exact Nat.mod_lt _ (by decide)
      · rintro _ ⟨⟩
      · rintro _ ⟨⟩
      · rintro _ ⟨⟩
  | complete status other =>
    obtain ⟨-, sector, hreading, rfl⟩ := step_complete hstep
    have hne : x.device.reading ≠ none := by
      rw [hreading]
      exact Option.some_ne_none sector
    refine ⟨h.usedLast_lt, h.cache, fun hnone => absurd (h.idle hnone).2.1 hne, h.pending, ?_, ?_⟩
    · exact fun _ _ hnone => absurd rfl hnone
    · intro r howed _
      obtain ⟨hsector, hused⟩ := h.waiting r howed hne
      rw [hreading] at hsector
      cases hsector
      refine ⟨by rw [hused], fun hstatus => ?_⟩
      dsimp only at hstatus ⊢
      rw [if_pos hstatus]

/-- What a step in a consistent state needs to be right. -/
theorem meets_iff (h : x.Consistent disk) (op : BlkOp) (hstep : (x.step disk op).isSome) :
    x.Meets disk op ↔ x.Sound disk op := by
  obtain ⟨⟨y, answer⟩, hy⟩ := Option.isSome_iff_exists.1 hstep
  constructor
  · exact fun hmeets => (right_iff h hy).1 (hmeets y answer hy)
  · exact fun hsound z a hz => (right_iff h hz).2 hsound

/-! ### Every run -/

/-- The client of a request. -/
def requestOf : BlkOp → List Nat
  | .read r => [r.sender]
  | _ => []

/-- Who has asked for something in a run, and who has got an answer. -/
def requests (es : List (BlkOp × Option (Nat × Reply))) : List Nat := es.flatMap fun e => requestOf e.1

def answered (es : List (BlkOp × Option (Nat × Reply))) : List Nat := es.flatMap fun e => (e.2.map Prod.fst).toList

/-- The client that still waits for an answer. -/
def waitingFor (x : System) : List Nat := (x.owed.map Request.sender).toList

/-- A right step answers a client that has asked, or lets one wait. -/
theorem Right.balance {op : BlkOp} (h : x.Right disk op y answer) :
    (x.waitingFor ++ requestOf op).Perm ((answer.map Prod.fst).toList ++ y.waitingFor) := by
  cases op with
  | read r =>
    cases answer with
    | some a =>
      obtain ⟨⟨hsender, -⟩, howed⟩ := h
      simp only [waitingFor, requestOf, howed, Option.map_some, Option.toList_some, hsender]
      exact List.perm_append_comm
    | none =>
      obtain ⟨hnone, hsome, -⟩ := h
      simp [waitingFor, requestOf, hnone, hsome]
  | notify =>
    cases answer with
    | some a =>
      obtain ⟨-, ⟨r, howed, hsender, -⟩, hnone, -⟩ := h
      simp [waitingFor, requestOf, howed, hnone, hsender]
    | none => simp [waitingFor, requestOf, h.2]
  | complete status other =>
    obtain ⟨rfl, howed⟩ := h
    simp [waitingFor, requestOf, howed]

/-- Every client that has asked gets one answer, or still waits for it. -/
theorem answered_once {es : List (BlkOp × Option (Nat × Reply))} (hrun : Run (step disk) (Meets disk) boot es y) :
    (requests es).Perm (answered es ++ y.waitingFor) := by
  refine hrun.history (P := fun es y => (requests es).Perm (answered es ++ y.waitingFor)) ?_ ?_
  swap
  · exact List.Perm.refl []
  intro es x y op answer ih hmeets hstep
  have hbalance := (hmeets y answer hstep).balance
  calc requests (es ++ [(op, answer)])
      = requests es ++ requestOf op := by simp [requests]
    _ ~ (answered es ++ x.waitingFor) ++ requestOf op := ih.append_right _
    _ = answered es ++ (x.waitingFor ++ requestOf op) := List.append_assoc ..
    _ ~ answered es ++ ((answer.map Prod.fst).toList ++ y.waitingFor) := hbalance.append_left _
    _ = answered (es ++ [(op, answer)]) ++ y.waitingFor := by simp [answered]

/-- The steps of a run are right exactly when they are sound, and then every client gets its answer once. -/
theorem reads_answered (disk : Nat → Nat → Byte) {es : List (BlkOp × Option (Nat × Reply))} :
    (Run (step disk) (Meets disk) boot es y ↔ Run (step disk) (Sound disk) boot es y) ∧
      (Run (step disk) (Sound disk) boot es y → (requests es).Perm (answered es ++ y.waitingFor)) := by
  have hiff : Run (step disk) (Meets disk) boot es y ↔ Run (step disk) (Sound disk) boot es y := by
    refine Run.iff_of_invariant (consistent_boot disk) (fun h hstep => meets_iff h _ (by rw [hstep]; rfl)) ?_
    exact fun h hmeets hstep => h.step hstep (hmeets _ _ hstep)
  exact ⟨hiff, fun hrun => answered_once (hiff.2 hrun)⟩

/-- The device fails to read sector 5 for process 3: the notification answers nothing, and never will. -/
theorem read_unanswered : ∃ es x, Run (step fun _ _ => 0) (fun _ _ => True) boot es x ∧ x.Finished ∧
    ¬ x.Meets (fun _ _ => 0) .notify := by
  have hexec : (exec (step fun _ _ => 0) (fun _ _ => True) boot [.read ⟨3, 5, 0⟩, .complete 1 fun _ => 0]).any (fun out =>
      decide (out.1.owed ≠ none ∧ out.1.device.reading = none ∧ (out.1.step (fun _ _ => 0) .notify).map Prod.snd = some none)) =
        true := by decide
  obtain ⟨⟨x, es⟩, hrun, hout⟩ := (Option.any_eq_true _ _).1 hexec
  obtain ⟨howed, hreading, hnotify⟩ := of_decide_eq_true hout
  refine ⟨es, x, run_of_exec hrun, ⟨howed, hreading⟩, fun hmeets => ?_⟩
  obtain ⟨⟨y, answer⟩, hy, heq⟩ := Option.map_eq_some_iff.1 hnotify
  cases heq
  exact (hmeets y none hy).1 ⟨howed, hreading⟩

end System

end Rost.Block
