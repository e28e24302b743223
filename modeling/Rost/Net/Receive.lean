import Rost.Lib.Circular
import Rost.Net.Virtio

/-!
# Receiving frames

The driver posts eight buffers to the receive queue of the card, and posts each of them again when it has read the frame in
it.  The number of the buffer and the length of the frame come from the device, and neither is checked: which elements are
handled well is `recvSafe_iff`.  The loop that drains the queue ends at the first element without a frame, and not only at
the last one (`pollComplete_iff`).
-/

namespace Rost.Net

open Lib (ByteMemory Run exec run_of_exec)
open Lib.Circular (between between_self between_of_ne between_push)

def rxBufCount : Nat := 8

/-- The size of `RX_SCRATCH`. -/
def rxScratchSize : Nat := 1520

/-- The distance of the buffers, which are aligned to pages. -/
def pktBufStride : Nat := 4096

structure VirtqUsedElem where
  id : BitVec 32
  len : BitVec 32

/-- The driver with its receive queue, and the device.  `reads` are the addresses that frames were read from, `consumed`
the ids in the elements that were read, and `posted` the ids that were written to the available ring after it was set
up. -/
structure RxNic where
  mem : ByteMemory
  availRing : Nat → BitVec 16
  availIdx : BitVec 16
  usedRing : Nat → VirtqUsedElem
  usedIdx : BitVec 16
  rxAvailIdx : BitVec 16
  rxUsedLast : BitVec 16
  /-- The next place in the available ring that the device will look at. -/
  devAvail : BitVec 16
  reads : List Nat
  consumed : List Nat
  posted : List Nat

namespace RxNic

/-- The queue is set up, with all buffers posted. -/
def boot (mem : ByteMemory) : RxNic :=
  ⟨mem, fun i => if i < rxBufCount then BitVec.ofNat 16 i else 0, BitVec.ofNat 16 rxBufCount, fun _ => ⟨0, 0⟩, 0,
    BitVec.ofNat 16 rxBufCount, 0, 0, [], [], []⟩

/-! ### The driver -/

/-- The address of `RX_BUFS[i]`. -/
def bufAt (bufs i : Nat) : Nat := bufs + i * pktBufStride

def reenqueueRx (x : RxNic) (descId : Nat) : RxNic :=
  { x with
    availRing := Function.update x.availRing (x.rxAvailIdx.toNat % queueSize) (BitVec.ofNat 16 descId)
    rxAvailIdx := x.rxAvailIdx + 1
    availIdx := x.rxAvailIdx + 1
    posted := x.posted ++ [(BitVec.ofNat 16 descId).toNat] }

/-- `recv_packet_into` with room for `cap` bytes; an index out of bounds is a panic. -/
def recvPacketInto (bufs cap : Nat) (x : RxNic) : Option (RxNic × Option Bytes) :=
  if x.usedIdx = x.rxUsedLast then some (x, none)
  else
    let elem := x.usedRing (x.rxUsedLast.toNat % queueSize)
    let descId := elem.id.toNat
    let totalLen := elem.len.toNat
    let x := { x with rxUsedLast := x.rxUsedLast + 1, consumed := x.consumed ++ [descId] }
    if totalLen ≤ virtioNetHdrSize then some (x.reenqueueRx descId, none)
    else
      let ethLen := totalLen - virtioNetHdrSize
      let copyLen := min ethLen cap
      if rxBufCount ≤ descId then none
      else
        let src := bufAt bufs descId + virtioNetHdrSize
        let x := { x with reads := x.reads ++ (List.range copyLen).map fun i => src + i }
        some (x.reenqueueRx descId, some (x.mem.load src copyLen))

/-- `poll_rx`, with the frames that it hands to `handle_packet`; `none` stands for a panic, or for a loop that has not
ended. -/
def pollRx (bufs : Nat) : Nat → RxNic → Option (RxNic × List Bytes)
  | 0, _ => none
  | fuel + 1, x =>
    match x.recvPacketInto bufs rxScratchSize with
    | none => none
    | some (y, none) => some (y, [])
    | some (y, some frame) => (pollRx bufs fuel y).map fun out => (out.1, frame :: out.2)

/-! ### The device -/

/-- The ids that the device may take. -/
def available (x : RxNic) : List (BitVec 16) := between queueSize x.availRing x.devAvail x.availIdx

/-- The elements that the driver has not read. -/
def unread (x : RxNic) : List VirtqUsedElem := between queueSize x.usedRing x.rxUsedLast x.usedIdx

/-- The device takes a buffer and writes an element, which may hold anything, and so may the memory then. -/
def report (x : RxNic) (id len : BitVec 32) (mem : ByteMemory) : RxNic :=
  { x with
    mem := mem
    usedRing := Function.update x.usedRing (x.usedIdx.toNat % queueSize) ⟨id, len⟩
    usedIdx := x.usedIdx + 1
    devAvail := if x.devAvail = x.availIdx then x.devAvail else x.devAvail + 1 }

end RxNic

/-- The device reports a buffer, and the driver drains the queue. -/
inductive RxOp where
  | report (id len : BitVec 32) (mem : ByteMemory)
  | poll

namespace RxNic

def step (bufs : Nat) (x : RxNic) : RxOp → Option (RxNic × List Bytes)
  | .report id len mem => some (x.report id len mem, [])
  | .poll => x.pollRx bufs (x.unread.length + 1)

/-! ### What is wanted -/

/-- A call returns; it reads only inside one of the buffers, and posts again the ids that it consumes, which are those of
buffers. -/
def RecvSafe (bufs cap : Nat) (x : RxNic) : Prop :=
  ∃ y r ids addrs, x.recvPacketInto bufs cap = some (y, r) ∧ y.consumed = x.consumed ++ ids ∧ y.posted = x.posted ++ ids ∧
    (∀ id ∈ ids, id < rxBufCount) ∧ y.reads = x.reads ++ addrs ∧
    ∃ i < rxBufCount, ∀ a ∈ addrs, bufAt bufs i ≤ a ∧ a < bufAt bufs i + pktBufSize

/-- The loop ends, and has consumed all elements. -/
def PollComplete (bufs : Nat) (x : RxNic) : Prop :=
  ∃ fuel y frames, x.pollRx bufs fuel = some (y, frames) ∧ y.unread = []

/-- Each buffer is available to the device or in an element that has not been read. -/
def Permuted (x : RxNic) : Prop :=
  (x.available.map BitVec.toNat ++ x.unread.map fun e => e.id.toNat).Perm (List.range rxBufCount)

/-- The device reports the buffer that it takes. -/
def ReportsTaken (x : RxNic) : RxOp → Prop
  | .report id _ _ => x.available.head?.map BitVec.toNat = some id.toNat
  | .poll => True

/-- The device reports the buffer that it takes, with a frame in it that fits. -/
def ReportsFrame (x : RxNic) : RxOp → Prop
  | .report id len mem => x.ReportsTaken (.report id len mem) ∧ virtioNetHdrSize < len.toNat ∧ len.toNat ≤ pktBufSize
  | .poll => True

/-! ### One call -/

variable {x y : RxNic} {e : VirtqUsedElem} {rest : List VirtqUsedElem} {bufs cap : Nat}

private theorem queueSize_dvd : queueSize ∣ 2 ^ 16 := by decide

private theorem queueSize_lt : queueSize < 2 ^ 16 := by decide

/-- The state after an element has been consumed whose frame is at the addresses. -/
def passed (x : RxNic) (e : VirtqUsedElem) (addrs : List Nat) : RxNic :=
  ({ x with
    rxUsedLast := x.rxUsedLast + 1
    consumed := x.consumed ++ [e.id.toNat]
    reads := x.reads ++ addrs } : RxNic).reenqueueRx e.id.toNat

/-- The addresses of the frame in a buffer. -/
def frameAddrs (bufs cap : Nat) (e : VirtqUsedElem) : List Nat :=
  (List.range (min (e.len.toNat - virtioNetHdrSize) cap)).map fun i => bufAt bufs e.id.toNat + virtioNetHdrSize + i

theorem recv_of_nil (h : x.unread = []) : x.recvPacketInto bufs cap = some (x, none) := by
  have hidx : x.usedIdx = x.rxUsedLast := by
    by_contra hne
    unfold unread at h
    rw [between_of_ne queueSize_dvd _ (Ne.symm hne)] at h
    cases h
  unfold recvPacketInto
  rw [if_pos hidx]

/-- What a call does with an element: it is short, or its id is out of bounds, or there is a frame in it. -/
theorem recv_of_cons (bufs cap : Nat) (h : x.unread = e :: rest) :
    (e.len.toNat ≤ virtioNetHdrSize ∧ x.recvPacketInto bufs cap = some (x.passed e [], none)) ∨
    (virtioNetHdrSize < e.len.toNat ∧ rxBufCount ≤ e.id.toNat ∧ x.recvPacketInto bufs cap = none) ∨
    (virtioNetHdrSize < e.len.toNat ∧ e.id.toNat < rxBufCount ∧
      ∃ frame, x.recvPacketInto bufs cap = some (x.passed e (frameAddrs bufs cap e), some frame)) := by
  have hne : x.rxUsedLast ≠ x.usedIdx := by
    intro heq
    unfold unread at h
    rw [heq, between_self] at h
    cases h
  have helem : x.usedRing (x.rxUsedLast.toNat % queueSize) = e := by
    unfold unread at h
    rw [between_of_ne queueSize_dvd _ hne] at h
    exact (List.cons.inj h).1
  unfold recvPacketInto
  rw [if_neg (Ne.symm hne), helem]
  dsimp only
  by_cases hshort : e.len.toNat ≤ virtioNetHdrSize
  · rw [if_pos hshort]
    refine .inl ⟨hshort, ?_⟩
    unfold passed
    rw [List.append_nil]
  rw [if_neg hshort]
  by_cases hid : rxBufCount ≤ e.id.toNat
  · rw [if_pos hid]
    exact .inr (.inl ⟨Nat.not_le.1 hshort, hid, rfl⟩)
  · rw [if_neg hid]
    exact .inr (.inr ⟨Nat.not_le.1 hshort, Nat.not_le.1 hid, _, rfl⟩)

theorem unread_passed (h : x.unread = e :: rest) (addrs : List Nat) : (x.passed e addrs).unread = rest := by
  have hne : x.rxUsedLast ≠ x.usedIdx := by
    intro heq
    unfold unread at h
    rw [heq, between_self] at h
    cases h
  unfold unread at h
  rw [between_of_ne queueSize_dvd _ hne] at h
  exact (List.cons.inj h).2

theorem unread_report (h : x.unread.length < queueSize) (id len : BitVec 32) (mem : ByteMemory) :
    (x.report id len mem).unread = x.unread ++ [⟨id, len⟩] := between_push queueSize_dvd queueSize_lt _ _ h

/-- The ids that are consumed and posted are those of the element. -/
private theorem ids_of_passed {addrs ids : List Nat} (hcons : (x.passed e addrs).consumed = x.consumed ++ ids)
    (hids : ∀ id ∈ ids, id < rxBufCount) : e.id.toNat < rxBufCount := by
  have heq : ids = [e.id.toNat] := (List.append_cancel_left hcons).symm
  exact hids _ (by rw [heq]; exact List.mem_singleton_self _)

private theorem posted_passed (addrs : List Nat) (hid : e.id.toNat < rxBufCount) :
    (x.passed e addrs).posted = x.posted ++ [e.id.toNat] := by
  have hmod : (BitVec.ofNat 16 e.id.toNat).toNat = e.id.toNat := by
    unfold rxBufCount at hid
    rw [BitVec.toNat_ofNat, Nat.mod_eq_of_lt (by omega)]
  show x.posted ++ [(BitVec.ofNat 16 e.id.toNat).toNat] = _
  rw [hmod]

/-- A frame is read inside one of the buffers exactly if it ends in its own. -/
private theorem frameAddrs_inside (hid : e.id.toNat < rxBufCount) :
    (∃ i < rxBufCount, ∀ a ∈ frameAddrs bufs cap e, bufAt bufs i ≤ a ∧ a < bufAt bufs i + pktBufSize) ↔
      virtioNetHdrSize + min (e.len.toNat - virtioNetHdrSize) cap ≤ pktBufSize := by
  unfold frameAddrs
  generalize min (e.len.toNat - virtioNetHdrSize) cap = n
  unfold bufAt pktBufSize pktBufStride virtioNetHdrSize
  constructor
  · rintro ⟨i, -, hall⟩
    by_contra hlong
    -- the first address behind the buffer is in no other one
    have hmem : bufs + e.id.toNat * 4096 + 10 + 1516 ∈
        (List.range n).map fun i => bufs + e.id.toNat * 4096 + 10 + i :=
      List.mem_map.2 ⟨1516, List.mem_range.2 (by omega), rfl⟩
    have hin := hall _ hmem
    omega
  · intro hle
    refine ⟨e.id.toNat, hid, fun a ha => ?_⟩
    obtain ⟨k, hk, rfl⟩ := List.mem_map.1 ha
    have hlt := List.mem_range.1 hk
    omega

theorem recvSafe_iff : RecvSafe bufs cap x ↔ ∀ e, x.unread.head? = some e →
    e.id.toNat < rxBufCount ∧ virtioNetHdrSize + min (e.len.toNat - virtioNetHdrSize) cap ≤ pktBufSize := by
  cases hunread : x.unread with
  | nil =>
    refine iff_of_true ?_ fun e he => by cases he
    exact ⟨x, none, [], [], recv_of_nil hunread, (List.append_nil _).symm, (List.append_nil _).symm,
      fun id hid => absurd hid List.not_mem_nil, (List.append_nil _).symm, 0, by decide,
      fun a ha => absurd ha List.not_mem_nil⟩
  | cons e rest =>
    have hhead : (∀ e', (e :: rest).head? = some e' → e'.id.toNat < rxBufCount ∧
        virtioNetHdrSize + min (e'.len.toNat - virtioNetHdrSize) cap ≤ pktBufSize) ↔
        e.id.toNat < rxBufCount ∧ virtioNetHdrSize + min (e.len.toNat - virtioNetHdrSize) cap ≤ pktBufSize :=
      ⟨fun h => h e rfl, fun h e' he' => by cases he'; exact h⟩
    rw [hhead]
    obtain ⟨hshort, hrecv⟩ | ⟨hlong, hid, hrecv⟩ | ⟨hlong, hid, frame, hrecv⟩ := recv_of_cons bufs cap hunread
    · constructor
      · rintro ⟨y, r, ids, addrs, hy, hcons, -, hids, -⟩
        rw [hrecv] at hy
        cases hy
        have hle : min (e.len.toNat - virtioNetHdrSize) cap ≤ e.len.toNat - virtioNetHdrSize := Nat.min_le_left _ _
        unfold pktBufSize
        exact ⟨ids_of_passed hcons hids, by unfold virtioNetHdrSize at *; omega⟩
      · rintro ⟨hid, -⟩
        exact ⟨_, none, [e.id.toNat], [], hrecv, rfl, posted_passed [] hid, fun id h => by rw [List.mem_singleton.1 h]; exact hid,
          rfl, 0, by decide, fun a ha => absurd ha List.not_mem_nil⟩
    · refine iff_of_false ?_ fun h => absurd h.1 (Nat.not_lt.2 hid)
      rintro ⟨y, r, ids, addrs, hy, -⟩
      rw [hrecv] at hy
      cases hy
    · constructor
      · rintro ⟨y, r, ids, addrs, hy, -, -, -, hreads, hinside⟩
        rw [hrecv] at hy
        cases hy
        have haddrs : addrs = frameAddrs bufs cap e := (List.append_cancel_left hreads).symm
        rw [haddrs] at hinside
        exact ⟨hid, (frameAddrs_inside hid).1 hinside⟩
      · rintro ⟨-, hle⟩
        exact ⟨_, some frame, [e.id.toNat], frameAddrs bufs cap e, hrecv, rfl, posted_passed _ hid,
          fun id h => by rw [List.mem_singleton.1 h]; exact hid, rfl, (frameAddrs_inside hid).2 hle⟩

/-! ### The loop -/

theorem pollRx_of_nil (h : x.unread = []) (fuel : Nat) : x.pollRx bufs (fuel + 1) = some (x, []) := by
  unfold pollRx
  rw [recv_of_nil h]

private theorem pollComplete_of_recv_none {y : RxNic} (h : x.recvPacketInto bufs rxScratchSize = some (y, none)) :
    PollComplete bufs x ↔ y.unread = [] := by
  constructor
  · rintro ⟨fuel, z, frames, hpoll, hz⟩
    cases fuel with
    | zero => cases hpoll
    | succ fuel =>
      unfold pollRx at hpoll
      rw [h] at hpoll
      cases hpoll
      exact hz
  · intro hy
    refine ⟨1, y, [], ?_, hy⟩
    unfold pollRx
    rw [h]

private theorem pollComplete_of_recv_some {y : RxNic} {frame : Bytes}
    (h : x.recvPacketInto bufs rxScratchSize = some (y, some frame)) : PollComplete bufs x ↔ PollComplete bufs y := by
  constructor
  · rintro ⟨fuel, z, frames, hpoll, hz⟩
    cases fuel with
    | zero => cases hpoll
    | succ fuel =>
      unfold pollRx at hpoll
      rw [h] at hpoll
      obtain ⟨out, hout, heq⟩ := Option.map_eq_some_iff.1 hpoll
      cases heq
      exact ⟨fuel, out.1, out.2, hout, hz⟩
  · rintro ⟨fuel, z, frames, hpoll, hz⟩
    refine ⟨fuel + 1, z, frame :: frames, ?_, hz⟩
    unfold pollRx
    rw [h]
    dsimp only
    rw [hpoll, Option.map_some]

private theorem pollComplete_iff_aux : ∀ {l : List VirtqUsedElem} {x : RxNic}, x.unread = l →
    (PollComplete bufs x ↔ (∀ e ∈ l, virtioNetHdrSize < e.len.toNat → e.id.toNat < rxBufCount) ∧
      ∀ e ∈ l.dropLast, virtioNetHdrSize < e.len.toNat)
  | [], x, h => by
    refine iff_of_true ⟨1, x, [], pollRx_of_nil h 0, h⟩ ⟨fun e he => ?_, fun e he => ?_⟩
    · exact absurd he List.not_mem_nil
    · exact absurd he List.not_mem_nil
  | e :: rest, x, h => by
    obtain ⟨hshort, hrecv⟩ | ⟨hlong, hid, hrecv⟩ | ⟨hlong, hid, frame, hrecv⟩ :=
      recv_of_cons bufs rxScratchSize h
    · -- the loop ends here
      rw [pollComplete_of_recv_none hrecv, unread_passed h]
      constructor
      · rintro rfl
        refine ⟨fun e' he' hlen => ?_, fun e' he' => absurd he' List.not_mem_nil⟩
        rw [List.mem_singleton.1 he'] at hlen
        omega
      · rintro ⟨-, hdrop⟩
        cases rest with
        | nil => rfl
        | cons e' rest =>
          have hlen := hdrop e (by rw [List.dropLast_cons_cons]; exact List.mem_cons_self)
          omega
    · refine iff_of_false ?_ fun hall => absurd (hall.1 e List.mem_cons_self hlong) (Nat.not_lt.2 hid)
      rintro ⟨fuel, z, frames, hpoll, -⟩
      cases fuel with
      | zero => cases hpoll
      | succ fuel =>
        unfold pollRx at hpoll
        rw [hrecv] at hpoll
        cases hpoll
    · rw [pollComplete_of_recv_some hrecv, pollComplete_iff_aux (unread_passed h _), List.forall_mem_cons]
      have hdrop : (∀ e' ∈ (e :: rest).dropLast, virtioNetHdrSize < e'.len.toNat) ↔
          ∀ e' ∈ rest.dropLast, virtioNetHdrSize < e'.len.toNat := by
        cases rest with
        | nil => exact Iff.rfl
        | cons e' rest =>
          rw [List.dropLast_cons_cons, List.forall_mem_cons]
          exact and_iff_right hlong
      rw [hdrop]
      exact and_congr_left fun _ => (and_iff_right fun _ => hid).symm

theorem pollComplete_iff : PollComplete bufs x ↔
    (∀ e ∈ x.unread, virtioNetHdrSize < e.len.toNat → e.id.toNat < rxBufCount) ∧
    ∀ e ∈ x.unread.dropLast, virtioNetHdrSize < e.len.toNat :=
  pollComplete_iff_aux rfl

/-! ### Buffers that circulate -/

/-- Each buffer has its place, and the index that the device sees is the driver's own. -/
structure Circulates (x : RxNic) : Prop where
  permuted : x.Permuted
  availIdx : x.availIdx = x.rxAvailIdx

theorem unread_boot (mem : ByteMemory) : (boot mem).unread = [] := between_self _ _

theorem circulates_boot (mem : ByteMemory) : (boot mem).Circulates := by
  have havail : (between queueSize (fun i => if i < rxBufCount then BitVec.ofNat 16 i else 0) (0 : BitVec 16)
      (BitVec.ofNat 16 rxBufCount)).map BitVec.toNat = List.range rxBufCount := by decide
  refine ⟨?_, rfl⟩
  unfold Permuted
  rw [unread_boot, List.map_nil, List.append_nil]
  exact List.Perm.of_eq havail

namespace Circulates

theorem length_add (h : x.Circulates) : x.available.length + x.unread.length = rxBufCount := by
  have hlen := h.permuted.length_eq
  rw [List.length_append, List.length_map, List.length_map, List.length_range] at hlen
  exact hlen

/-- An element that has not been read has the id of a buffer. -/
theorem id_lt (h : x.Circulates) (he : e ∈ x.unread) : e.id.toNat < rxBufCount :=
  List.mem_range.1 (h.permuted.subset (List.mem_append_right _ (List.mem_map.2 ⟨e, he, rfl⟩)))

/-- A buffer that has been read is available again. -/
theorem passed (h : x.Circulates) (hunread : x.unread = e :: rest) (addrs : List Nat) : (x.passed e addrs).Circulates := by
  have hid := h.id_lt (e := e) (by rw [hunread]; exact List.mem_cons_self)
  have hlen := h.length_add
  have hmod : (BitVec.ofNat 16 e.id.toNat).toNat = e.id.toNat := by
    unfold rxBufCount at hid
    rw [BitVec.toNat_ofNat, Nat.mod_eq_of_lt (by omega)]
  have havail : (x.passed e addrs).available = x.available ++ [BitVec.ofNat 16 e.id.toNat] := by
    show between queueSize (Function.update x.availRing (x.rxAvailIdx.toNat % queueSize) (BitVec.ofNat 16 e.id.toNat))
      x.devAvail (x.rxAvailIdx + 1) = _
    unfold available at hlen ⊢
    rw [← h.availIdx]
    refine between_push queueSize_dvd queueSize_lt _ _ ?_
    unfold rxBufCount at hlen
    unfold queueSize at *
    omega
  refine ⟨?_, rfl⟩
  have hperm := h.permuted
  unfold Permuted at hperm ⊢
  rw [hunread, List.map_cons] at hperm
  rw [havail, unread_passed hunread, List.map_append, List.map_singleton, hmod, List.append_assoc]
  exact hperm

/-- The buffer that the device takes is in a new element. -/
theorem report (h : x.Circulates) {id len : BitVec 32} {mem : ByteMemory} (htaken : x.ReportsTaken (.report id len mem)) :
    (x.report id len mem).Circulates ∧ (x.report id len mem).unread = x.unread ++ [⟨id, len⟩] := by
  have hlen := h.length_add
  obtain ⟨a, ha, hid⟩ := Option.map_eq_some_iff.1 htaken
  have hne : x.devAvail ≠ x.availIdx := by
    intro heq
    unfold available at ha
    rw [heq, between_self] at ha
    cases ha
  have hcons : x.available = a :: between queueSize x.availRing (x.devAvail + 1) x.availIdx := by
    unfold available at ha ⊢
    rw [between_of_ne queueSize_dvd _ hne] at ha ⊢
    rw [List.head?_cons, Option.some.injEq] at ha
    rw [ha]
  have havail : (x.report id len mem).available = between queueSize x.availRing (x.devAvail + 1) x.availIdx := by
    show between queueSize x.availRing (if x.devAvail = x.availIdx then x.devAvail else x.devAvail + 1) x.availIdx = _
    rw [if_neg hne]
  have hunread : (x.report id len mem).unread = x.unread ++ [⟨id, len⟩] := by
    refine unread_report ?_ id len mem
    unfold rxBufCount at hlen
    unfold queueSize
    omega
  refine ⟨⟨?_, h.availIdx⟩, hunread⟩
  have hperm := h.permuted
  unfold Permuted at hperm ⊢
  rw [hcons, List.map_cons, hid, List.cons_append] at hperm
  rw [havail, hunread, List.map_append, ← List.append_assoc]
  exact (List.perm_append_singleton _ _).trans hperm

/-- The loop ends, and leaves a part of the elements. -/
theorem pollRx (bufs : Nat) {fuel : Nat} (h : x.Circulates) (hfuel : x.unread.length < fuel) :
    ∃ y frames, x.pollRx bufs fuel = some (y, frames) ∧ y.Circulates ∧ ∀ e ∈ y.unread, e ∈ x.unread := by
  induction fuel generalizing x with
  | zero => exact absurd hfuel (Nat.not_lt_zero _)
  | succ fuel ih =>
    cases hunread : x.unread with
    | nil => exact ⟨x, [], pollRx_of_nil hunread fuel, h, fun e he => by rw [hunread] at he; exact he⟩
    | cons e rest =>
      have hid := h.id_lt (e := e) (by rw [hunread]; exact List.mem_cons_self)
      unfold RxNic.pollRx
      obtain ⟨-, hrecv⟩ | ⟨-, hout, -⟩ | ⟨-, -, frame, hrecv⟩ :=
        recv_of_cons bufs rxScratchSize hunread
      · rw [hrecv]
        refine ⟨_, [], rfl, h.passed hunread [], fun e' he' => ?_⟩
        rw [unread_passed hunread] at he'
        exact List.mem_cons_of_mem _ he'
      · exact absurd hid (Nat.not_lt.2 hout)
      · have hpassed := unread_passed hunread (frameAddrs bufs rxScratchSize e)
        obtain ⟨y, frames, hpoll, hy, hsub⟩ := ih (h.passed hunread (frameAddrs bufs rxScratchSize e)) (by
          rw [hpassed]
          rw [hunread, List.length_cons] at hfuel
          omega)
        rw [hrecv]
        dsimp only
        rw [hpoll, Option.map_some]
        refine ⟨y, frame :: frames, rfl, hy, fun e' he' => ?_⟩
        have hmem := hsub e' he'
        rw [hpassed] at hmem
        exact List.mem_cons_of_mem _ hmem

end Circulates

/-- As long as the device reports the buffers that it takes, each buffer keeps its place. -/
theorem circulates_run {mem : ByteMemory} {es : List (RxOp × List Bytes)} (h : Run (step bufs) ReportsTaken (boot mem) es x) :
    x.Circulates := by
  refine h.invariant ?_ (circulates_boot mem)
  rintro t u op r ht hop hstep
  cases op with
  | report id len mem =>
    cases hstep
    exact (ht.report hop).1
  | poll =>
    obtain ⟨y, frames, hpoll, hy, -⟩ := ht.pollRx bufs (Nat.lt_succ_self _)
    change t.pollRx bufs (t.unread.length + 1) = some (u, r) at hstep
    rw [hpoll] at hstep
    cases hstep
    exact hy

/-- When all reports are of frames that fit, so are the elements that have not been read. -/
theorem frames_run {mem : ByteMemory} {es : List (RxOp × List Bytes)} (h : Run (step bufs) ReportsFrame (boot mem) es x) :
    x.Circulates ∧ ∀ e ∈ x.unread, virtioNetHdrSize < e.len.toNat ∧ e.len.toNat ≤ pktBufSize := by
  refine h.invariant (P := fun x => x.Circulates ∧ ∀ e ∈ x.unread, virtioNetHdrSize < e.len.toNat ∧ e.len.toNat ≤ pktBufSize)
    ?_ ⟨circulates_boot mem, fun e he => by rw [unread_boot] at he; cases he⟩
  rintro t u op r ⟨ht, hlen⟩ hop hstep
  cases op with
  | report id len mem =>
    cases hstep
    obtain ⟨hu, hunread⟩ := ht.report hop.1
    refine ⟨hu, fun e he => ?_⟩
    rw [hunread, List.mem_append, List.mem_singleton] at he
    obtain he | rfl := he
    · exact hlen e he
    · exact hop.2
  | poll =>
    obtain ⟨y, frames, hpoll, hy, hsub⟩ := ht.pollRx bufs (Nat.lt_succ_self _)
    change t.pollRx bufs (t.unread.length + 1) = some (u, r) at hstep
    rw [hpoll] at hstep
    cases hstep
    exact ⟨hy, fun e he => hlen e (hsub e he)⟩

/-! ### The receive path -/

/-- A call is safe exactly if the next element, if there is one, has the id of a buffer and a frame that ends in it; the
loop consumes everything exactly if no frame has an id out of bounds, and no element but the last is too short.  When the
device reports the buffers that it takes, these keep their places; and when it reports frames that fit, all calls are safe
and complete. -/
theorem rx_iff (bufs : Nat) :
    (∀ cap x, RecvSafe bufs cap x ↔ ∀ e, x.unread.head? = some e →
      e.id.toNat < rxBufCount ∧ virtioNetHdrSize + min (e.len.toNat - virtioNetHdrSize) cap ≤ pktBufSize) ∧
    (∀ x, PollComplete bufs x ↔ (∀ e ∈ x.unread, virtioNetHdrSize < e.len.toNat → e.id.toNat < rxBufCount) ∧
      ∀ e ∈ x.unread.dropLast, virtioNetHdrSize < e.len.toNat) ∧
    (∀ mem es x, Run (step bufs) ReportsTaken (boot mem) es x → x.Permuted ∧ (x.step bufs .poll).isSome) ∧
    (∀ mem es x, Run (step bufs) ReportsFrame (boot mem) es x →
      x.Permuted ∧ (∀ cap, RecvSafe bufs cap x) ∧ PollComplete bufs x) := by
  refine ⟨fun cap x => recvSafe_iff, fun x => pollComplete_iff, fun mem es x h => ?_, fun mem es x h => ?_⟩
  · have hx := circulates_run h
    obtain ⟨y, frames, hpoll, -⟩ := hx.pollRx bufs (Nat.lt_succ_self _)
    refine ⟨hx.permuted, ?_⟩
    show (x.pollRx bufs (x.unread.length + 1)).isSome = true
    rw [hpoll]
    rfl
  · obtain ⟨hx, hlen⟩ := frames_run h
    refine ⟨hx.permuted, fun cap => recvSafe_iff.2 fun e he => ?_, pollComplete_iff.2 ⟨fun e he _ => hx.id_lt he, fun e he => ?_⟩⟩
    · have hmem : e ∈ x.unread := List.mem_of_mem_head? he
      have hle := (hlen e hmem).2
      have hmin : min (e.len.toNat - virtioNetHdrSize) cap ≤ e.len.toNat - virtioNetHdrSize := Nat.min_le_left _ _
      have hgt := (hlen e hmem).1
      exact ⟨hx.id_lt hmem, by omega⟩
    · exact (hlen e (List.mem_of_mem_dropLast he)).1

/-- A frame of 50 bytes in the first buffer. -/
theorem rx_iff_fifty :
    ((boot fun _ => 0).report 0 60 fun _ => 0).Permuted ∧ (((boot fun _ => 0).report 0 60 fun _ => 0).step 0 .poll).isSome ∧
    RecvSafe 0 rxScratchSize ((boot fun _ => 0).report 0 60 fun _ => 0) ∧
    PollComplete 0 ((boot fun _ => 0).report 0 60 fun _ => 0) := by
  obtain ⟨-, -, htaken, hframe⟩ := rx_iff 0
  have hfirst : (boot fun _ => 0).ReportsTaken (.report 0 60 fun _ => 0) := by
    show (between queueSize (fun i => if i < rxBufCount then BitVec.ofNat 16 i else 0) (0 : BitVec 16)
      (BitVec.ofNat 16 rxBufCount)).head?.map BitVec.toNat = some (0 : BitVec 32).toNat
    decide
  have hrun : Run (step 0) ReportsFrame (boot fun _ => 0) [(.report 0 60 fun _ => 0, [])]
      ((boot fun _ => 0).report 0 60 fun _ => 0) := Run.single ⟨hfirst, by decide, by decide⟩ rfl
  have hrun' : Run (step 0) ReportsTaken (boot fun _ => 0) [(.report 0 60 fun _ => 0, [])]
      ((boot fun _ => 0).report 0 60 fun _ => 0) := Run.single hfirst rfl
  exact ⟨(htaken _ _ _ hrun').1, (htaken _ _ _ hrun').2, (hframe _ _ _ hrun).2.1 _, (hframe _ _ _ hrun).2.2⟩

/-- The device may report a frame that is longer than its buffer, or a buffer that there is not; and a frame behind an empty
element is not received. -/
theorem rx_unchecked :
    ¬ RecvSafe 0 rxScratchSize ((boot fun _ => 0).report 0 2000 fun _ => 0) ∧
    ¬ RecvSafe 0 rxScratchSize ((boot fun _ => 0).report 9 5 fun _ => 0) ∧
    ¬ PollComplete 0 (((boot fun _ => 0).report 0 5 fun _ => 0).report 1 60 fun _ => 0) := by
  have hone : ∀ id len, ((boot fun _ => 0).report id len fun _ => 0).unread = [⟨id, len⟩] := by
    intro id len
    rw [unread_report (by rw [unread_boot]; decide), unread_boot, List.nil_append]
  have htwo : (((boot fun _ => 0).report 0 5 fun _ => 0).report 1 60 fun _ => 0).unread = [⟨0, 5⟩, ⟨1, 60⟩] := by
    rw [unread_report (by rw [hone]; decide), hone, List.singleton_append]
  refine ⟨fun h => ?_, fun h => ?_, fun h => ?_⟩
  · have hlong := (recvSafe_iff.1 h ⟨0, 2000⟩ (by rw [hone]; rfl)).2
    exact absurd hlong (by decide)
  · have hid := (recvSafe_iff.1 h ⟨9, 5⟩ (by rw [hone]; rfl)).1
    exact absurd hid (by decide)
  · have hlen := (pollComplete_iff.1 h).2 ⟨0, 5⟩ (by rw [htwo]; exact List.mem_cons_self)
    exact absurd hlen (by decide)

end RxNic

end Rost.Net
