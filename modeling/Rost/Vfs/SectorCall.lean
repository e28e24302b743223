import Rost.Kernel.Call
import Rost.Lib.Words
import Rost.Lib.ByteMemory
import Rost.Vfs.Blk

/-!
# Reading sectors through the registers

`read_sector` on the memory of the server: the request and the reply share one message, and `call` hands its address to
`SYS_CALL` in `rsi` only.  The kernel writes the reply to the address in `rdx`, which `call` leaves as it is.  A sector
is read from every driver that serves it exactly when that register holds the address of the message at every call
(`readSector_iff`).
-/

namespace Rost.Vfs.SectorCall

open Lib (ByteMemory byteOf unpackWords)
open Lib.ByteMemory (load store)

/-! ### The system call -/

/-- Why `SYS_CALL` returns without a reply. -/
inductive Refusal where
  | enosys
  | eagain
  | edeadlk
  | etimedout
deriving DecidableEq

def Refusal.code : Refusal → Word
  | .enosys => Rost.enosys
  | .eagain => Rost.eagain
  | .edeadlk => Rost.edeadlk
  | .etimedout => Rost.etimedout

/-- `SYS_CALL` on the memory of its caller, with the request at `a1` and room for the reply at `a2`; there is none if
`a2` cannot be written, since the page fault halts the kernel. -/
def sysCall (writable : Word → Bool) (self : Nat) (answer : Message → Except Refusal Message) (m : ByteMemory)
    (a1 a2 : Word) : Option (ByteMemory × Word) :=
  if !validateUserPtr a1 messageSize messageAlign then some (m, einval)
  else if !validateUserPtr a2 messageSize messageAlign then some (m, einval)
  else
    match answer { Message.ofBytes (load m a1.toNat messageSize) with sender := self } with
    | .error r => some (m, r.code)
    | .ok reply => if writable a2 then some (store m a2.toNat reply.toBytes, 0) else none

end Rost.Vfs.SectorCall

namespace Rost.Kernel

/-- The reply of `SYS_CALL`, at once or after the caller has waited, is written to `a2`; both pointers are checked. -/
theorem sysCall_reply_at {k k' : Kernel} {a0 a1 a2 a3 : Word} :
    (k.sysCall a0 a1 a2 a3 = some (k', .value 0) → validateUserPtr a1 messageSize messageAlign = true ∧
      validateUserPtr a2 messageSize messageAlign = true ∧
      ∃ reply : Message, k.mem.storeBytes k.cr3 a2 reply.toBytes = some k'.mem) ∧
    (k.finishCall a2 = some (k', .value 0) →
      ∃ reply : Message, k.mem.storeBytes k.cr3 a2 reply.toBytes = some k'.mem) := by
  constructor
  · intro h
    have hptr₁ : validateUserPtr a1 messageSize messageAlign = true := by
      by_contra hbad
      unfold sysCall at h
      rw [if_pos (by simpa using hbad)] at h
      cases h
    have hptr₂ : validateUserPtr a2 messageSize messageAlign = true := by
      by_contra hbad
      unfold sysCall at h
      rw [if_neg (by simpa using hptr₁), if_pos (by simpa using hbad)] at h
      cases h
    refine ⟨hptr₁, hptr₂, ?_⟩
    rcases sysCall_cases h with ⟨-, -, _, reply, hback, -⟩ | ⟨hret, -⟩ | ⟨⟨v, hv, hret⟩, -⟩
    · exact ⟨reply, hback.2⟩
    · cases hret
    · exact absurd (Ret.value.inj hret).symm hv
  · intro h
    rcases finishCall_cases h with ⟨-, ⟨-, reply, hback⟩ | ⟨hret, -⟩⟩
    · exact ⟨reply, hback.2⟩
    · cases hret

end Rost.Kernel

namespace Rost.Vfs.SectorCall

open Lib (ByteMemory byteOf unpackWords)
open Lib.ByteMemory (load store)

/-! ### The loop -/

def opBlkRead : Word := 0x50
def respBlkData : Word := 0x90

/-- The address space of the server: where the message and the buffer of `read_sector` stand, and where a message can be
written. -/
structure Frame where
  self : Nat
  msg : Word
  buf : Word
  writable : Word → Bool
  msg_valid : validateUserPtr msg messageSize messageAlign = true
  msg_writable : writable msg = true
  apart : msg.toNat + messageSize ≤ buf.toNat ∨ buf.toNat + sectorSize ≤ msg.toNat

/-- The block driver behind the kernel: the result of looking it up, and what comes of the call with a number. -/
structure Service where
  pid : Word
  answer : Nat → Message → Except Refusal Message

def request (lba : BitVec 32) (total : Nat) : Message :=
  ⟨0, #v[opBlkRead, lba.setWidth 64, BitVec.ofNat 64 total, 0, 0, 0, 0, 0]⟩

/-- The message as the server reads it. -/
def message (f : Frame) (m : ByteMemory) : Message := Message.ofBytes (load m f.msg.toNat messageSize)

def chunkLen (reply : Message) (total : Nat) : Nat := min (min (reply.getData 2).toNat chunkSize) (sectorSize - total)

/-- `unpack_into` at the place `total` of the buffer. -/
def unpackInto (f : Frame) (m : ByteMemory) (total n : Nat) (reply : Message) : ByteMemory :=
  store m (f.buf.toNat + total) (unpackWords (reply.data.toList.drop 3) n)

/-- What becomes of `read_sector`; `running` is a loop that has not come to its end. -/
inductive Outcome where
  | ended (ok : Bool) (m : ByteMemory)
  | halted
  | running

theorem Outcome.ended_ne_running (ok : Bool) (m : ByteMemory) : ended ok m ≠ running := fun h => by cases h

theorem Outcome.halted_ne_running : halted ≠ running := fun h => by cases h

/-- The requests for a sector, from the byte `total` on, with the number of the next call; `rdx` is what the register
holds at each call. -/
def readLoop (f : Frame) (rdx : Nat → Word) (s : Service) (lba : BitVec 32) :
    Nat → Nat → Nat → ByteMemory → Nat × Outcome
  | 0, calls, total, m => (calls, if sectorSize ≤ total then .ended true m else .running)
  | fuel + 1, calls, total, m =>
    if sectorSize ≤ total then (calls, .ended true m)
    else
      match sysCall f.writable f.self (s.answer calls) (store m f.msg.toNat (request lba total).toBytes) f.msg
        (rdx calls) with
      | none => (calls + 1, .halted)
      | some (m, ret) =>
        if ret ≠ 0 then (calls + 1, .ended false m)
        else if (message f m).getData 0 ≠ respBlkData then (calls + 1, .ended false m)
        else if chunkLen (message f m) total = 0 then (calls + 1, .ended false m)
        else
          readLoop f rdx s lba fuel (calls + 1) (total + chunkLen (message f m) total)
            (unpackInto f m total (chunkLen (message f m) total) (message f m))

def readSector (f : Frame) (rdx : Nat → Word) (s : Service) (lba : BitVec 32) (m : ByteMemory) : Nat × Outcome :=
  if s.pid = BitVec.ofNat 64 u64Max then (0, .ended false m) else readLoop f rdx s lba sectorSize 0 0 m

/-- A reply that carries bytes of a sector from an offset on. -/
def Carries (reply : Message) (sec : Nat → Byte) (off : Nat) : Prop :=
  reply.getData 0 = respBlkData ∧ 1 ≤ (reply.getData 2).toNat ∧ (reply.getData 2).toNat ≤ chunkSize ∧
    ∀ j < (reply.getData 2).toNat, off + j < sectorSize → byteOf (reply.getData (3 + j / 8)) (j % 8) = sec (off + j)

/-- The driver is there, and it answers every request with the bytes of the device. -/
def Serves (s : Service) (device : Nat → Nat → Byte) : Prop :=
  s.pid ≠ BitVec.ofNat 64 u64Max ∧
    ∀ n req, req.getData 0 = opBlkRead → (req.getData 2).toNat < sectorSize →
      ∃ reply, s.answer n req = .ok reply ∧ Carries reply (device (req.getData 1).toNat) (req.getData 2).toNat

/-! ### The number of calls -/

section Loop

variable {f : Frame} {rdx : Nat → Word} {s : Service} {device : Nat → Nat → Byte} {lba : BitVec 32} {sec : Nat → Byte}

theorem chunkLen_le (reply : Message) (total : Nat) : chunkLen reply total ≤ sectorSize - total := Nat.min_le_right _ _

/-- A round either ends the loop or brings a byte. -/
private theorem readLoop_ends {fuel calls total : Nat} (hfuel : sectorSize - total ≤ fuel) (htotal : total ≤ sectorSize)
    (hcalls : calls ≤ total) (m : ByteMemory) :
    (readLoop f rdx s lba fuel calls total m).1 ≤ sectorSize ∧ (readLoop f rdx s lba fuel calls total m).2 ≠ .running := by
  induction fuel generalizing calls total m with
  | zero =>
    unfold readLoop
    rw [if_pos (by omega)]
    exact ⟨by omega, Outcome.ended_ne_running _ _⟩
  | succ fuel ih =>
    unfold readLoop
    by_cases hdone : sectorSize ≤ total
    · rw [if_pos hdone]
      exact ⟨by omega, Outcome.ended_ne_running _ _⟩
    · rw [if_neg hdone]
      have hnext : calls + 1 ≤ sectorSize := by omega
      cases sysCall f.writable f.self (s.answer calls) (store m f.msg.toNat (request lba total).toBytes) f.msg
        (rdx calls) with
      | none => exact ⟨hnext, Outcome.halted_ne_running⟩
      | some r =>
        obtain ⟨m₁, ret⟩ := r
        have hle := chunkLen_le (message f m₁) total
        simp only
        split
        · exact ⟨hnext, Outcome.ended_ne_running _ _⟩
        · split
          · exact ⟨hnext, Outcome.ended_ne_running _ _⟩
          · split
            · exact ⟨hnext, Outcome.ended_ne_running _ _⟩
            · exact ih (by omega) (by omega) (by omega) _

/-! ### A register that holds the address of the message -/

private theorem getData_of_data {a b : Message} (h : a.data = b.data) (i : Nat) : a.getData i = b.getData i := by
  unfold Message.getData
  rw [h]

/-- What is written to the message is read from it. -/
private theorem data_message_store (m : ByteMemory) (msg : Message) :
    (message f (store m f.msg.toNat msg.toBytes)).data = msg.data := by
  have hload := ByteMemory.load_store_self m f.msg.toNat msg.toBytes
  rw [Message.length_toBytes] at hload
  unfold message
  rw [hload]
  exact Message.data_ofBytes_toBytes msg

/-- The message that the driver receives for a request. -/
private theorem data_received (f : Frame) (m : ByteMemory) (lba : BitVec 32) (total : Nat) :
    ({ message f (store m f.msg.toNat (request lba total).toBytes) with sender := f.self } : Message).data =
      (request lba total).data := data_message_store m _

private theorem byteOf_drop (msg : Message) {j : Nat} (hj : j < chunkSize) :
    byteOf ((msg.data.toList.drop 3).getD (j / 8) 0) (j % 8) = byteOf (msg.getData (3 + j / 8)) (j % 8) := by
  have hlt : 3 + j / 8 < dataFields := by
    unfold chunkSize at hj
    unfold dataFields
    omega
  have hlen : 3 + j / 8 < msg.data.toList.length := by rwa [Vector.length_toList]
  unfold Message.getData
  rw [dif_pos hlt, List.getD_eq_getElem?_getD, List.getElem?_drop, List.getElem?_eq_getElem hlen, Option.getD_some,
    Vector.getElem_toList]

private theorem unpackInto_apply (f : Frame) (m : ByteMemory) (total : Nat) {n : Nat} (reply : Message) (hn : n ≤ chunkSize) :
    (∀ i < total, unpackInto f m total n reply (f.buf.toNat + i) = m (f.buf.toNat + i)) ∧
      ∀ j < n, unpackInto f m total n reply (f.buf.toNat + (total + j)) = byteOf (reply.getData (3 + j / 8)) (j % 8) := by
  have hlen : (unpackWords (reply.data.toList.drop 3) n).length = n := by simp [unpackWords]
  constructor
  · intro i hi
    exact ByteMemory.sameOutside_store _ _ _ _ (.inl (by omega))
  · intro j hj
    unfold unpackInto store
    rw [hlen, if_pos (by omega), show f.buf.toNat + (total + j) - (f.buf.toNat + total) = j by omega,
      ← byteOf_drop reply (lt_of_lt_of_le hj hn)]
    unfold unpackWords
    rw [List.getD_eq_getElem?_getD, List.getElem?_map, List.getElem?_range hj]
    rfl

/-- A call with the address of the message in the register brings bytes of the sector, and leaves those before them. -/
private theorem readLoop_round (lba : BitVec 32) (hs : Serves s device) {calls total : Nat} (hrdx : rdx calls = f.msg)
    (htotal : total < sectorSize) (m : ByteMemory) :
    ∃ n m', 1 ≤ n ∧ n ≤ sectorSize - total ∧
      (∀ fuel, readLoop f rdx s lba (fuel + 1) calls total m = readLoop f rdx s lba fuel (calls + 1) (total + n) m') ∧
      (∀ i < total, m' (f.buf.toNat + i) = m (f.buf.toNat + i)) ∧
      ∀ j < n, m' (f.buf.toNat + (total + j)) = device lba.toNat (total + j) := by
  have hdata := data_received f m lba total
  have htot : ((request lba total).getData 2).toNat = total := by
    show (BitVec.ofNat 64 total).toNat = total
    rw [BitVec.toNat_ofNat, Nat.mod_eq_of_lt (by unfold sectorSize at htotal; omega)]
  have hlba : ((request lba total).getData 1).toNat = lba.toNat := by
    show (lba.setWidth 64).toNat = lba.toNat
    rw [BitVec.toNat_setWidth, Nat.mod_eq_of_lt (lt_trans lba.isLt (by decide))]
  obtain ⟨reply, hanswer, hresp, hpos, hle, hbytes⟩ := hs.2 calls _ (getData_of_data hdata 0) (by
    rw [getData_of_data hdata 2, htot]
    exact htotal)
  rw [getData_of_data hdata 1, getData_of_data hdata 2, htot, hlba] at hbytes
  -- the reply takes the place of the request
  obtain ⟨m₁, hm₁⟩ : ∃ m₁, m₁ = store (store m f.msg.toNat (request lba total).toBytes) f.msg.toNat reply.toBytes :=
    ⟨_, rfl⟩
  have hcall : sysCall f.writable f.self (s.answer calls) (store m f.msg.toNat (request lba total).toBytes) f.msg f.msg =
      some (m₁, 0) := by
    unfold sysCall
    rw [if_neg (by simp [f.msg_valid]), if_neg (by simp [f.msg_valid])]
    unfold message at hanswer
    rw [hanswer, hm₁]
    exact if_pos f.msg_writable
  have hread : (message f m₁).data = reply.data := by
    rw [hm₁]
    exact data_message_store _ _
  have hlen : chunkLen (message f m₁) total = min (reply.getData 2).toNat (sectorSize - total) := by
    unfold chunkLen
    rw [getData_of_data hread, Nat.min_eq_left hle]
  have hn : chunkLen (message f m₁) total ≤ chunkSize := by
    rw [hlen]
    exact le_trans (Nat.min_le_left _ _) hle
  obtain ⟨hbefore, hin⟩ := unpackInto_apply f m₁ total (message f m₁) hn
  refine ⟨chunkLen (message f m₁) total, unpackInto f m₁ total (chunkLen (message f m₁) total) (message f m₁), ?_,
    chunkLen_le _ _, fun fuel => ?_, fun i hi => ?_, fun j hj => ?_⟩
  · rw [hlen]
    omega
  · rw [readLoop, if_neg (Nat.not_le.2 htotal), hrdx, hcall]
    simp only
    rw [if_neg (not_not_intro rfl), if_neg (not_not_intro ((getData_of_data hread 0).trans hresp)), if_neg (by omega)]
  · rw [hbefore i hi, hm₁]
    have hout := f.apart
    have hbuf : f.buf.toNat + i < f.msg.toNat ∨ f.msg.toNat + messageSize ≤ f.buf.toNat + i := by omega
    rw [ByteMemory.sameOutside_store _ _ _ _ (by rwa [Message.length_toBytes]),
      ByteMemory.sameOutside_store _ _ _ _ (by rwa [Message.length_toBytes])]
  · rw [hin j hj, getData_of_data hread]
    exact hbytes j (by omega) (by omega)

private theorem readLoop_serves (hs : Serves s device) {fuel calls total : Nat} (hfuel : sectorSize - total ≤ fuel)
    (htotal : total ≤ sectorSize) (hcalls : calls ≤ total) (hrdx : ∀ n < sectorSize, rdx n = f.msg) {m : ByteMemory}
    (hm : ∀ i < total, m (f.buf.toNat + i) = device lba.toNat i) :
    ∃ calls' m', readLoop f rdx s lba fuel calls total m = (calls', .ended true m') ∧
      ∀ i < sectorSize, m' (f.buf.toNat + i) = device lba.toNat i := by
  induction fuel generalizing calls total m with
  | zero =>
    have hend : total = sectorSize := by omega
    refine ⟨calls, m, ?_, hend ▸ hm⟩
    unfold readLoop
    rw [if_pos hend.ge]
  | succ fuel ih =>
    by_cases hdone : sectorSize ≤ total
    · have hend : total = sectorSize := by omega
      refine ⟨calls, m, ?_, hend ▸ hm⟩
      unfold readLoop
      rw [if_pos hdone]
    · obtain ⟨n, m', hpos, hle, hround, hbefore, hin⟩ :=
        readLoop_round lba hs (hrdx calls (by omega)) (Nat.not_le.1 hdone) m
      rw [hround]
      refine ih (by omega) (by omega) (by omega) fun i hi => ?_
      by_cases hlt : i < total
      · rw [hbefore i hlt, hm i hlt]
      · have hat := hin (i - total) (by omega)
        rwa [Nat.add_sub_cancel' (Nat.not_lt.1 hlt)] at hat

/-! ### A register that holds something else -/

def zeroByte : Message := ⟨1, #v[respBlkData, 512, 1, 0, 0, 0, 0, 0]⟩

/-- A driver that answers with one byte of an empty disk at a time. -/
def zeros : Service := ⟨1, fun _ _ => .ok zeroByte⟩

theorem serves_zeros : Serves zeros fun _ _ => 0 := by
  refine ⟨by decide, fun n req _ _ => ⟨_, rfl, rfl, by decide, by decide, fun j hj _ => ?_⟩⟩
  have hj : j = 0 := Nat.lt_one_iff.1 hj
  subst hj
  rfl

private theorem mod_of_validateUserPtr {ptr : Word} (h : validateUserPtr ptr messageSize messageAlign = true) :
    ptr.toNat % 8 = 0 := by
  unfold validateUserPtr at h
  split at h
  · cases h
  · split at h
    · cases h
    · rename_i hand
      have hand := congrArg BitVec.toNat (not_not.1 hand)
      rwa [BitVec.toNat_and, show (BitVec.ofNat 64 messageAlign - 1).toNat = 2 ^ 3 - 1 from rfl,
        Nat.and_two_pow_sub_one_eq_mod] at hand

private theorem getData_message (f : Frame) (m : ByteMemory) :
    (message f m).getData 0 = BitVec.ofNat 64 (leNat (load m (f.msg.toNat + 8) 8)) := by
  rw [← ByteMemory.take_drop_load (n := messageSize) m f.msg.toNat (by decide)]
  rfl

/-- A reply of `zeros` that is not written over the request itself does not look like one. -/
private theorem getData_message_stray (f : Frame) (m : ByteMemory) (lba : BitVec 32) (total : Nat) {a : Word}
    (ha : validateUserPtr a messageSize messageAlign = true) (hne : a ≠ f.msg) :
    (message f (store (store m f.msg.toNat (request lba total).toBytes) a.toNat zeroByte.toBytes)).getData 0 ≠
      respBlkData := by
  have halign := mod_of_validateUserPtr ha
  have halign' := mod_of_validateUserPtr f.msg_valid
  have hlen := Message.length_toBytes zeroByte
  have hsize : messageSize = 72 := rfl
  rw [getData_message]
  by_cases hout : f.msg.toNat + 8 + 8 ≤ a.toNat ∨ a.toNat + messageSize ≤ f.msg.toNat + 8
  · -- the word of the request is still there
    rw [(ByteMemory.sameOutside_store _ a.toNat zeroByte.toBytes).load_eq (by rwa [hlen]), ← getData_message,
      getData_of_data (data_message_store m (request lba total))]
    show opBlkRead ≠ respBlkData
    decide
  · obtain ⟨k, hk⟩ : ∃ k, f.msg.toNat + 8 = a.toNat + 8 * k := ⟨(f.msg.toNat + 8 - a.toNat) / 8, by omega⟩
    have hne' : a.toNat ≠ f.msg.toNat := fun h => hne (BitVec.eq_of_toNat_eq h)
    rw [hk, ByteMemory.load_store_inside _ _ (by omega)]
    have hword : ∀ k < 9, k ≠ 1 → BitVec.ofNat 64 (leNat ((zeroByte.toBytes.drop (8 * k)).take 8)) ≠ respBlkData := by
      decide
    exact hword k (by omega) (by omega)

/-- The loop of byte-sized chunks does not succeed when the register holds something else at a call that is to come. -/
private theorem readLoop_stray {fuel total : Nat} {n : Nat} (hn : n < sectorSize) (hrdx : rdx n ≠ f.msg) (hle : total ≤ n)
    (m m' : ByteMemory) : (readLoop f rdx zeros lba fuel total total m).2 ≠ .ended true m' := by
  induction fuel generalizing total m with
  | zero =>
    unfold readLoop
    rw [if_neg (by omega)]
    exact fun h => by cases h
  | succ fuel ih =>
    unfold readLoop
    rw [if_neg (by omega)]
    by_cases hhere : rdx total = f.msg
    · have hlt : total < n := lt_of_le_of_ne hle fun h => hrdx (h ▸ hhere)
      obtain ⟨m₁, hcall, hread⟩ : ∃ m₁, sysCall f.writable f.self (zeros.answer total)
          (store m f.msg.toNat (request lba total).toBytes) f.msg (rdx total) = some (m₁, 0) ∧
          (message f m₁).data = zeroByte.data := by
        refine ⟨_, ?_, data_message_store (store m f.msg.toNat (request lba total).toBytes) zeroByte⟩
        unfold sysCall
        rw [hhere, if_neg (by simp [f.msg_valid]), if_neg (by simp [f.msg_valid])]
        exact if_pos f.msg_writable
      rw [hcall]
      simp only
      have hresp : (message f m₁).getData 0 = respBlkData := getData_of_data hread 0
      have hone : chunkLen (message f m₁) total = 1 := by
        unfold chunkLen
        rw [getData_of_data hread]
        show min (min 1 chunkSize) (sectorSize - total) = 1
        unfold chunkSize
        omega
      rw [if_neg (not_not_intro rfl), if_neg (not_not_intro hresp), hone,
        if_neg (by decide)]
      exact ih (by omega) _
    · unfold sysCall
      rw [if_neg (by simp [f.msg_valid])]
      by_cases hvalid : validateUserPtr (rdx total) messageSize messageAlign = true
      · rw [if_neg (by simp [hvalid])]
        by_cases hwrite : f.writable (rdx total) = true
        · simp only [zeros, if_pos hwrite]
          rw [if_neg (not_not_intro rfl), if_pos (getData_message_stray f m lba total hvalid hhere)]
          exact fun h => by cases h
        · simp only [zeros, if_neg hwrite]
          exact fun h => by cases h
      · rw [if_pos (by simpa using hvalid)]
        simp only
        rw [if_pos (by decide)]
        exact fun h => by cases h

/-! ### Sectors from every driver -/

/-- The server reads a sector from every driver that serves it. -/
def ReadsSectors (f : Frame) (rdx : Nat → Word) : Prop :=
  ∀ s device, Serves s device → ∀ lba m, ∃ calls m', readSector f rdx s lba m = (calls, .ended true m') ∧
    ∀ i < sectorSize, m' (f.buf.toNat + i) = device lba.toNat i

private theorem not_readsSectors {n : Nat} (hn : n < sectorSize) (hrdx : rdx n ≠ f.msg) : ¬ ReadsSectors f rdx := by
  intro h
  obtain ⟨calls, m', hread, -⟩ := h zeros _ serves_zeros 0 fun _ => 0
  unfold readSector at hread
  rw [if_neg serves_zeros.1] at hread
  exact readLoop_stray hn hrdx (Nat.zero_le n) (fun _ => 0) m' (congrArg Prod.snd hread)

/-- A sector is read from every driver that serves it exactly when `rdx` holds the address of the message at every call
that may be needed; whatever the replies are, the loop ends after 512 calls at most. -/
theorem readsSectors_iff (f : Frame) (rdx : Nat → Word) :
    (ReadsSectors f rdx ↔ ∀ n < sectorSize, rdx n = f.msg) ∧
      ∀ s lba m, (readSector f rdx s lba m).1 ≤ sectorSize ∧ (readSector f rdx s lba m).2 ≠ .running := by
  refine ⟨⟨fun h n hn => ?_, fun hrdx s device hs lba m => ?_⟩, fun s lba m => ?_⟩
  · by_contra hne
    exact not_readsSectors hn hne h
  · unfold readSector
    rw [if_neg hs.1]
    exact readLoop_serves hs (Nat.le_refl _) (Nat.zero_le _) (Nat.le_refl _) hrdx fun i hi => absurd hi (Nat.not_lt_zero i)
  · unfold readSector
    split
    · exact ⟨Nat.zero_le _, Outcome.ended_ne_running _ _⟩
    · exact readLoop_ends (Nat.le_refl _) (Nat.zero_le _) (Nat.le_refl _) m

end Loop

/-! ### A register that is left as it was -/

/-- A message and a buffer below each other. -/
def stackFrame : Frame where
  self := 7
  msg := 0x7ff000
  buf := 0x7ff800
  writable := fun _ => true
  msg_valid := by decide
  msg_writable := rfl
  apart := by decide

/-- With zero in the register, the first call is refused. -/
theorem not_readsSectors_zero : ¬ ReadsSectors stackFrame fun _ => 0 :=
  not_readsSectors (n := 0) (by decide) (by decide)

end Rost.Vfs.SectorCall
