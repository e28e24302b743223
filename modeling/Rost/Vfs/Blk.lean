import Rost.Vfs.Path

/-!
# Reading sectors from the block driver

A sector is fetched in chunks of up to 40 bytes, each with a request to the block driver, and written into the buffer
chunk by chunk.  When a request fails, the chunks before it stay in the buffer (`readSector_of_holds`).
-/

namespace Rost.Vfs

def sectorSize : Nat := 512

/-- A buffer for one sector. -/
abbrev Sector := Fin sectorSize → Byte

namespace Blk

/-- What a reply `RESP_BLK_DATA` carries: the length of the chunk, and the bytes that are packed into its words. -/
structure Chunk where
  len : Nat
  bytes : Nat → Byte

/-- The block driver, as the server sees it: whether it is registered, and its reply to the request with a number, for
the bytes of a sector from an offset on.  There is none if the call fails, or if the driver replies with an error. -/
structure Driver where
  present : Bool
  reply : Nat → Nat → Nat → Option Chunk

/-- The bytes that are taken from a chunk, when `total` bytes are there already. -/
def Chunk.take (c : Chunk) (total : Nat) : Nat := min (min c.len chunkSize) (sectorSize - total)

/-- `unpack_into` at the place `total` of the buffer. -/
def unpackInto (buf : Sector) (total n : Nat) (bytes : Nat → Byte) : Sector := fun i =>
  if total ≤ i ∧ i < total + n then bytes (i - total) else buf i

/-- The requests for a sector, from the byte `total` on: the number of the next request, the buffer, and whether it is
filled.  Every round but the last brings a byte, so 512 of them are enough. -/
def readLoop (d : Driver) (lba : Nat) : Nat → Nat → Nat → Sector → Nat × Sector × Bool
  | 0, calls, total, buf => (calls, buf, decide (sectorSize ≤ total))
  | fuel + 1, calls, total, buf =>
    if sectorSize ≤ total then (calls, buf, true)
    else
      match d.reply calls lba total with
      | none => (calls + 1, buf, false)
      | some c =>
        if c.take total = 0 then (calls + 1, buf, false)
        else readLoop d lba fuel (calls + 1) (total + c.take total) (unpackInto buf total (c.take total) c.bytes)

def readSector (d : Driver) (lba calls : Nat) (buf : Sector) : Nat × Sector × Bool :=
  if d.present then readLoop d lba sectorSize calls 0 buf else (calls, buf, false)

/-- The bytes of a sector that the driver delivers before a request fails. -/
def deliveredFrom (d : Driver) (lba : Nat) : Nat → Nat → Nat → Nat
  | 0, _, total => total
  | fuel + 1, calls, total =>
    if sectorSize ≤ total then total
    else
      match d.reply calls lba total with
      | none => total
      | some c => if c.take total = 0 then total else deliveredFrom d lba fuel (calls + 1) (total + c.take total)

def delivered (d : Driver) (lba calls : Nat) : Nat := if d.present then deliveredFrom d lba sectorSize calls 0 else 0

/-! ### Drivers that tell the truth -/

/-- What the driver delivers of a sector is what the device holds. -/
def Holds (d : Driver) (device : Nat → Nat → Byte) : Prop :=
  ∀ n lba off c, d.reply n lba off = some c → ∀ j < c.take off, c.bytes j = device lba (off + j)

/-- The first `t` bytes of the buffer have been replaced by those of a sector. -/
def filled (buf : Sector) (sec : Nat → Byte) (t : Nat) : Sector := fun i => if i < t then sec i else buf i

section Loop

variable {d : Driver} {device : Nat → Nat → Byte} {lba fuel calls total : Nat} {buf : Sector} {sec : Nat → Byte}

private theorem unpackInto_filled {n : Nat} {bytes : Nat → Byte} (h : ∀ j < n, bytes j = sec (total + j)) :
    unpackInto (filled buf sec total) total n bytes = filled buf sec (total + n) := by
  funext i
  unfold unpackInto filled
  by_cases hin : total ≤ i ∧ i < total + n
  · rw [if_pos hin, if_pos hin.2, h _ (by omega)]
    congr 1
    omega
  · rw [if_neg hin]
    by_cases hlt : (i : Nat) < total
    · rw [if_pos hlt, if_pos (by omega)]
    · rw [if_neg hlt, if_neg (by omega)]

theorem take_le (c : Chunk) (total : Nat) : c.take total ≤ sectorSize - total := Nat.min_le_right _ _

/-- The buffer holds what has been delivered, and the read succeeds if that is the whole sector. -/
theorem readLoop_of_holds (h : Holds d device) (hfuel : sectorSize - total ≤ fuel) (htotal : total ≤ sectorSize) :
    ∃ calls', readLoop d lba fuel calls total (filled buf (device lba) total) =
      (calls', filled buf (device lba) (deliveredFrom d lba fuel calls total),
        decide (deliveredFrom d lba fuel calls total = sectorSize)) := by
  induction fuel generalizing calls total with
  | zero =>
    refine ⟨calls, ?_⟩
    unfold readLoop deliveredFrom
    congr 2
    exact decide_eq_decide.2 (by omega)
  | succ fuel ih =>
    unfold readLoop deliveredFrom
    by_cases hdone : sectorSize ≤ total
    · rw [if_pos hdone, if_pos hdone, decide_eq_true (by omega)]
      exact ⟨calls, rfl⟩
    · rw [if_neg hdone, if_neg hdone]
      cases hreply : d.reply calls lba total with
      | none =>
        simp only
        rw [decide_eq_false (by omega)]
        exact ⟨calls + 1, rfl⟩
      | some c =>
        simp only
        by_cases hempty : c.take total = 0
        · simp only [if_pos hempty]
          rw [decide_eq_false (by omega)]
          exact ⟨calls + 1, rfl⟩
        · have hle := take_le c total
          simp only [if_neg hempty]
          rw [unpackInto_filled (h _ _ _ _ hreply)]
          exact ih (by omega) (by omega)

theorem readSector_of_holds (h : Holds d device) (lba calls : Nat) (buf : Sector) :
    ∃ calls', readSector d lba calls buf =
      (calls', filled buf (device lba) (delivered d lba calls), decide (delivered d lba calls = sectorSize)) := by
  unfold readSector delivered
  by_cases hpresent : d.present = true
  · rw [if_pos hpresent, if_pos hpresent]
    have hzero : filled buf (device lba) 0 = buf := by
      funext i
      exact if_neg (Nat.not_lt_zero _)
    have hloop : ∃ calls', readLoop d lba sectorSize calls 0 (filled buf (device lba) 0) = _ :=
      readLoop_of_holds h (by omega) (Nat.zero_le _)
    rw [hzero] at hloop
    exact hloop
  · rw [if_neg hpresent, if_neg hpresent]
    refine ⟨calls, ?_⟩
    rw [decide_eq_false (by decide)]
    congr 2

end Loop

end Blk

end Rost.Vfs
