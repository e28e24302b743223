import Rost.Net.Wire
import Rost.Lib.ByteMemory
import Rost.Lib.Run
import Mathlib.Logic.Function.Basic

/-!
# Sending frames

The transmit queue of the network card has 256 descriptors and free-running 16-bit indices.  Each frame takes two
descriptors, of its header and of its bytes; up to 128 frames are in flight.  The descriptors and the rings are right for
every delay of the device (`Nic.queued_run`).  But all frames share one buffer, so a frame that the device has not read yet
is overwritten by the next (`Nic.frames_sent`).
-/

namespace Rost.Net

open Lib (ByteMemory Run exec run_of_exec)

def queueSize : Nat := 256
def pktBufSize : Nat := 1526
def virtioNetHdrSize : Nat := 10

/-- `VRING_DESC_F_NEXT`: the chain goes on. -/
def descFNext : Nat := 1

structure VirtqDesc where
  addr : Nat
  len : Nat
  flags : Nat
  next : Nat

/-- Where the header and the buffer for sending stand in physical memory. -/
structure TxBuffers where
  hdr : Nat
  buf : Nat
  apart : hdr + virtioNetHdrSize ≤ buf ∨ buf + pktBufSize ≤ hdr

/-- The driver with its queue in memory, and the device.  `sent` are the frames that were accepted, and `wire` the frames
that the device has put on the wire. -/
structure Nic where
  mem : ByteMemory
  desc : Nat → VirtqDesc
  availRing : Nat → Nat
  availIdx : Nat
  usedIdx : Nat
  txDescIdx : Nat
  txAvailIdx : Nat
  txUsedLast : Nat
  /-- The next place in the available ring that the device will look at. -/
  devAvail : Nat
  sent : List Bytes
  wire : List Bytes

namespace Nic

/-- The queue is set up and empty; the memory may hold anything. -/
def boot (mem : ByteMemory) : Nic := ⟨mem, fun _ => ⟨0, 0, 0, 0⟩, fun _ => 0, 0, 0, 0, 0, 0, 0, [], []⟩

/-! ### The driver -/

def reclaimTx (x : Nic) : Nic := { x with txUsedLast := x.usedIdx }

/-- `tx_avail_idx.wrapping_sub(tx_used_last)` -/
def inFlight (x : Nic) : Nat := (x.txAvailIdx + 2 ^ 16 - x.txUsedLast) % 2 ^ 16

def sendPacket (tx : TxBuffers) (x : Nic) (data : Bytes) : Nic × Bool :=
  if pktBufSize - virtioNetHdrSize < data.length then (x, false)
  else
    let x := x.reclaimTx
    if queueSize / 2 ≤ x.inFlight then (x, false)
    else
      let d0 := x.txDescIdx % queueSize
      let d1 := (x.txDescIdx + 1) % queueSize
      let desc := Function.update x.desc d0 ⟨tx.hdr, virtioNetHdrSize, descFNext, d1⟩
      let txAvailIdx := (x.txAvailIdx + 1) % 2 ^ 16
      ({ x with
         mem := (x.mem.fill tx.hdr virtioNetHdrSize 0).store tx.buf data
         desc := Function.update desc d1 ⟨tx.buf, data.length, 0, 0⟩
         availRing := Function.update x.availRing (x.txAvailIdx % queueSize) d0
         txAvailIdx := txAvailIdx
         availIdx := txAvailIdx
         txDescIdx := (x.txDescIdx + 2) % 2 ^ 16 % queueSize }, true)

/-! ### The device -/

/-- The bytes of a chain of at most `fuel` descriptors. -/
def gather (x : Nic) : Nat → Nat → Bytes
  | 0, _ => []
  | fuel + 1, i =>
    x.mem.load (x.desc i).addr (x.desc i).len ++
      if (x.desc i).flags % 2 = descFNext then x.gather fuel (x.desc i).next else []

/-- What the device reads for a place in the available ring. -/
def chainAt (x : Nic) (slot : Nat) : Bytes := x.gather queueSize (x.availRing (slot % queueSize))

/-- The device takes the next chain, and puts what follows the header on the wire. -/
def transmit (x : Nic) : Option Nic :=
  if x.devAvail = x.availIdx then none
  else some { x with
    wire := x.wire ++ [(x.chainAt x.devAvail).drop virtioNetHdrSize]
    devAvail := (x.devAvail + 1) % 2 ^ 16 }

/-- The device reports the oldest chain that it has taken and not reported. -/
def complete (x : Nic) : Option Nic :=
  if x.usedIdx = x.devAvail then none else some { x with usedIdx := (x.usedIdx + 1) % 2 ^ 16 }

end Nic

/-- The driver sends or looks at the used index, and the device takes a chain or reports one. -/
inductive NicOp where
  | send (data : Bytes)
  | reclaim
  | transmit
  | complete

namespace Nic

/-- The result is that of `send_packet`. -/
def step (tx : TxBuffers) (x : Nic) : NicOp → Option (Nic × Option Bool)
  | .send data =>
    let out := x.sendPacket tx data
    some (if out.2 then { out.1 with sent := x.sent ++ [data] } else out.1, some out.2)
  | .reclaim => some (x.reclaimTx, none)
  | .transmit => x.transmit.map fun y => (y, none)
  | .complete => x.complete.map fun y => (y, none)

/-- The frames on the wire are those that were sent, in order and once each; for a frame in flight the device will read an
empty header and the bytes that were passed; and when there is nothing left to take, all frames are on the wire. -/
structure Delivers (x : Nic) : Prop where
  wire : x.wire <+: x.sent
  chain : ∀ k f, x.wire.length ≤ k → x.sent[k]? = some f → x.chainAt k = List.replicate virtioNetHdrSize 0 ++ f
  drained : x.devAvail = x.availIdx → x.wire = x.sent

/-- The step leads to a state in which the frames are delivered. -/
def Meets (tx : TxBuffers) (x : Nic) (op : NicOp) : Prop := ∀ y r, x.step tx op = some (y, r) → y.Delivers

/-- The frame is not too long, and there is room for it. -/
def Takes (x : Nic) (data : Bytes) : Prop :=
  data.length ≤ pktBufSize - virtioNetHdrSize ∧ x.reclaimTx.inFlight < queueSize / 2

/-- A frame that is taken agrees with every frame in flight, as far as both reach. -/
def Agrees (x : Nic) : NicOp → Prop
  | .send data => x.Takes data → ∀ k f, x.wire.length ≤ k → x.sent[k]? = some f →
      f.take data.length = data.take f.length
  | _ => True

/-! ### The queue -/

/-- The indices count the frames that were sent and taken, and the descriptors of the frames in flight are in place.  `c` is
the number of frames that the device has reported. -/
structure Queued (tx : TxBuffers) (x : Nic) (c : Nat) : Prop where
  used_le : c ≤ x.wire.length
  wire_le : x.wire.length ≤ x.sent.length
  sent_le : x.sent.length ≤ c + queueSize / 2
  availIdx : x.availIdx = x.sent.length % 2 ^ 16
  txAvailIdx : x.txAvailIdx = x.sent.length % 2 ^ 16
  txDescIdx : x.txDescIdx = 2 * x.sent.length % queueSize
  devAvail : x.devAvail = x.wire.length % 2 ^ 16
  usedIdx : x.usedIdx = c % 2 ^ 16
  ring : ∀ k, x.wire.length ≤ k → k < x.sent.length → x.availRing (k % queueSize) = 2 * k % queueSize
  header : ∀ k, x.wire.length ≤ k → k < x.sent.length →
    x.desc (2 * k % queueSize) = ⟨tx.hdr, virtioNetHdrSize, descFNext, (2 * k + 1) % queueSize⟩
  payload : ∀ k f, x.wire.length ≤ k → x.sent[k]? = some f → x.desc ((2 * k + 1) % queueSize) = ⟨tx.buf, f.length, 0, 0⟩
  length_le : ∀ f ∈ x.sent, f.length ≤ pktBufSize - virtioNetHdrSize
  zeros : x.wire.length < x.sent.length → x.mem.load tx.hdr virtioNetHdrSize = List.replicate virtioNetHdrSize 0

variable {tx : TxBuffers} {x y : Nic} {c : Nat}

theorem queued_boot (mem : ByteMemory) : (boot mem).Queued tx 0 := by
  constructor
  case payload =>
    intro k f _ hf
    cases hf
  case length_le =>
    intro f hf
    cases hf
  case ring | header =>
    intro k _ hk
    exact absurd hk (Nat.not_lt_zero k)
  case zeros => exact fun h => absurd h (Nat.lt_irrefl 0)
  all_goals simp [boot]

/-- Looking at the used index changes nothing else. -/
theorem Queued.reclaimTx (h : x.Queued tx c) : x.reclaimTx.Queued tx c :=
  ⟨h.used_le, h.wire_le, h.sent_le, h.availIdx, h.txAvailIdx, h.txDescIdx, h.devAvail, h.usedIdx, h.ring, h.header,
    h.payload, h.length_le, h.zeros⟩

/-- The driver sees the frames that the device has not reported. -/
theorem Queued.inFlight_eq (h : x.Queued tx c) : x.reclaimTx.inFlight = x.sent.length - c := by
  have hused := h.used_le
  have hwire := h.wire_le
  have hsent := h.sent_le
  unfold inFlight Nic.reclaimTx
  dsimp only
  rw [h.txAvailIdx, h.usedIdx]
  unfold queueSize at hsent
  omega

/-- What the device reads for a frame in flight. -/
theorem Queued.chainAt_eq (h : x.Queued tx c) {k : Nat} {f : Bytes} (hk : x.wire.length ≤ k) (hf : x.sent[k]? = some f) :
    x.chainAt k = List.replicate virtioNetHdrSize 0 ++ x.mem.load tx.buf f.length := by
  obtain ⟨hlt, -⟩ := List.getElem?_eq_some_iff.1 hf
  have hzeros := h.zeros (by omega)
  have hfuel : ∀ i, x.gather queueSize i = x.gather (254 + 2) i := fun _ => rfl
  unfold chainAt
  rw [hfuel, h.ring k hk hlt]
  unfold gather
  rw [h.header k hk hlt]
  dsimp only
  rw [if_pos (by decide), hzeros]
  unfold gather
  rw [h.payload k f hk hf]
  dsimp only
  rw [if_neg (by decide), List.append_nil]

/-- The place in the ring is found by the running index too. -/
theorem chainAt_mod (x : Nic) (k : Nat) : x.chainAt (k % 2 ^ 16) = x.chainAt k := by
  have hslot : k % 2 ^ 16 % queueSize = k % queueSize := by
    unfold queueSize
    omega
  unfold chainAt
  rw [hslot]

/-! ### The steps -/

/-- The state after a frame has been taken. -/
def taken (tx : TxBuffers) (x : Nic) (data : Bytes) : Nic :=
  { x.reclaimTx with
    mem := (x.mem.fill tx.hdr virtioNetHdrSize 0).store tx.buf data
    desc := Function.update (Function.update x.desc (x.txDescIdx % queueSize)
      ⟨tx.hdr, virtioNetHdrSize, descFNext, (x.txDescIdx + 1) % queueSize⟩)
      ((x.txDescIdx + 1) % queueSize) ⟨tx.buf, data.length, 0, 0⟩
    availRing := Function.update x.availRing (x.txAvailIdx % queueSize) (x.txDescIdx % queueSize)
    txAvailIdx := (x.txAvailIdx + 1) % 2 ^ 16
    availIdx := (x.txAvailIdx + 1) % 2 ^ 16
    txDescIdx := (x.txDescIdx + 2) % 2 ^ 16 % queueSize
    sent := x.sent ++ [data] }

theorem step_send (tx : TxBuffers) (x : Nic) (data : Bytes) :
    (x.Takes data ∧ x.step tx (.send data) = some (x.taken tx data, some true)) ∨
    (¬ x.Takes data ∧ (x.step tx (.send data) = some (x, some false) ∨
      x.step tx (.send data) = some (x.reclaimTx, some false))) := by
  unfold step sendPacket Takes
  dsimp only
  by_cases hlen : pktBufSize - virtioNetHdrSize < data.length
  · rw [if_pos hlen]
    exact .inr ⟨fun h => by omega, .inl rfl⟩
  · rw [if_neg hlen]
    by_cases hfull : queueSize / 2 ≤ x.reclaimTx.inFlight
    · rw [if_pos hfull]
      exact .inr ⟨fun h => by omega, .inr rfl⟩
    · rw [if_neg hfull]
      exact .inl ⟨⟨by omega, by omega⟩, rfl⟩

/-- The new bytes do not reach into the header. -/
theorem load_hdr_store {m : ByteMemory} {data : Bytes} (h : data.length ≤ pktBufSize - virtioNetHdrSize) :
    ((m.fill tx.hdr virtioNetHdrSize 0).store tx.buf data).load tx.hdr virtioNetHdrSize =
      List.replicate virtioNetHdrSize 0 := by
  have hapart := tx.apart
  unfold pktBufSize virtioNetHdrSize at *
  rw [(ByteMemory.sameOutside_store _ tx.buf data).load_eq (by omega)]
  refine List.ext_getElem (by simp) fun k hk hk' => ?_
  simp only [ByteMemory.load, ByteMemory.fill, List.getElem_map, List.getElem_range, List.getElem_replicate]
  rw [List.length_replicate] at hk'
  rw [if_pos (by omega)]

/-- The header does not reach into the buffer. -/
theorem load_buf_fill {m : ByteMemory} {n : Nat} (h : n ≤ pktBufSize) :
    (m.fill tx.hdr virtioNetHdrSize 0).load tx.buf n = m.load tx.buf n := by
  have hapart := tx.apart
  exact (ByteMemory.sameOutside_fill m tx.hdr virtioNetHdrSize 0).load_eq (by omega)

/-- A frame that is taken gets its own descriptors and its own place in the ring. -/
theorem Queued.taken (h : x.Queued tx c) {data : Bytes} (htakes : x.Takes data) : (x.taken tx data).Queued tx c := by
  have hroom := htakes.2
  rw [h.inFlight_eq] at hroom
  have hused := h.used_le
  have hwire := h.wire_le
  have hsent := h.sent_le
  have hdesc := h.txDescIdx
  have havail := h.txAvailIdx
  generalize hn : x.sent.length = n at *
  have hlen : (x.taken tx data).sent.length = n + 1 := by
    unfold Nic.taken
    simp [hn]
  have hd0 : x.txDescIdx % queueSize = 2 * n % queueSize := by
    rw [hdesc]
    unfold queueSize
    omega
  have hd1 : (x.txDescIdx + 1) % queueSize = (2 * n + 1) % queueSize := by
    rw [hdesc]
    unfold queueSize
    omega
  have hslot : x.txAvailIdx % queueSize = n % queueSize := by
    rw [havail]
    unfold queueSize
    omega
  have happend : ∀ {k f}, (x.sent ++ [data])[k]? = some f → (k < n ∧ x.sent[k]? = some f) ∨ (k = n ∧ f = data) := by
    intro k f hf
    by_cases hk : k < n
    · rw [List.getElem?_append_left (by omega)] at hf
      exact .inl ⟨hk, hf⟩
    · rw [List.getElem?_append_right (by omega)] at hf
      obtain ⟨hzero, heq⟩ := List.getElem?_eq_some_iff.1 hf
      rw [List.length_singleton] at hzero
      simp only [List.getElem_singleton] at heq
      exact .inr ⟨by omega, heq.symm⟩
  -- the slots of the frames in flight are others
  have hring : ∀ k, x.wire.length ≤ k → k < n → k % queueSize ≠ n % queueSize := by
    intro k hk hlt
    unfold queueSize at hroom ⊢
    omega
  have hslots : ∀ k, x.wire.length ≤ k → k < n →
      2 * k % queueSize ≠ 2 * n % queueSize ∧ (2 * k + 1) % queueSize ≠ (2 * n + 1) % queueSize := by
    intro k hk hlt
    unfold queueSize at hroom ⊢
    omega
  constructor
  case used_le => exact hused
  case wire_le =>
    rw [hlen]
    exact Nat.le_succ_of_le hwire
  case sent_le =>
    rw [hlen]
    unfold queueSize at hroom ⊢
    omega
  case availIdx | txAvailIdx =>
    rw [hlen]
    show (x.txAvailIdx + 1) % 2 ^ 16 = _
    omega
  case txDescIdx =>
    rw [hlen]
    show (x.txDescIdx + 2) % 2 ^ 16 % queueSize = 2 * (n + 1) % queueSize
    unfold queueSize at hdesc ⊢
    omega
  case devAvail => exact h.devAvail
  case usedIdx => exact h.usedIdx
  case ring =>
    intro k hk hlt
    rw [hlen] at hlt
    show Function.update x.availRing (x.txAvailIdx % queueSize) (x.txDescIdx % queueSize) (k % queueSize) =
      2 * k % queueSize
    have hk' : x.wire.length ≤ k := hk
    rw [hslot, hd0]
    by_cases heq : k = n
    · rw [heq, Function.update_self]
    · rw [Function.update_of_ne (hring k hk' (by omega))]
      exact h.ring k hk' (by omega)
  case header =>
    intro k hk hlt
    rw [hlen] at hlt
    have hk' : x.wire.length ≤ k := hk
    show Function.update (Function.update x.desc _ _) _ _ (2 * k % queueSize) = _
    rw [hd0, hd1, Function.update_of_ne (by unfold queueSize; omega)]
    by_cases heq : k = n
    · rw [heq, Function.update_self]
    · rw [Function.update_of_ne (hslots k hk' (by omega)).1]
      exact h.header k hk' (by omega)
  case payload =>
    intro k f hk hf
    have hk' : x.wire.length ≤ k := hk
    show Function.update (Function.update x.desc _ _) _ _ ((2 * k + 1) % queueSize) = _
    rw [hd0, hd1]
    rcases happend hf with ⟨hlt, hold⟩ | ⟨rfl, rfl⟩
    · rw [Function.update_of_ne (hslots k hk' hlt).2, Function.update_of_ne (by unfold queueSize; omega)]
      exact h.payload k f hk' hold
    · rw [Function.update_self]
  case length_le =>
    intro f hf
    rcases List.mem_append.1 hf with hold | hnew
    · exact h.length_le f hold
    · rw [List.mem_singleton.1 hnew]
      exact htakes.1
  case zeros =>
    intro _
    exact load_hdr_store htakes.1

/-- The device takes a frame only if one is in flight. -/
theorem Queued.transmit (h : x.Queued tx c) (hy : x.transmit = some y) :
    y.Queued tx c ∧ ∃ f, x.sent[x.wire.length]? = some f ∧ y.sent = x.sent ∧ y.mem = x.mem ∧
      y.wire = x.wire ++ [(x.chainAt x.wire.length).drop virtioNetHdrSize] := by
  unfold Nic.transmit at hy
  split at hy
  · cases hy
  · rename_i hne
    rw [Option.some.injEq] at hy
    have hlt : x.wire.length < x.sent.length := by
      rcases Nat.lt_or_ge x.wire.length x.sent.length with hlt | hge
      · exact hlt
      · have heq : x.wire.length = x.sent.length := Nat.le_antisymm h.wire_le hge
        exact absurd (by rw [h.devAvail, h.availIdx, heq]) hne
    have hlen : y.wire.length = x.wire.length + 1 := by
      rw [← hy]
      simp
    have hget : x.sent[x.wire.length]? = some x.sent[x.wire.length] := List.getElem?_eq_getElem hlt
    refine ⟨?_, _, hget, by rw [← hy], by rw [← hy], by rw [← hy, h.devAvail, chainAt_mod]⟩
    have hused := h.used_le
    have hdev := h.devAvail
    subst hy
    constructor
    case used_le =>
      rw [hlen]
      omega
    case wire_le =>
      rw [hlen]
      exact hlt
    case devAvail =>
      rw [hlen]
      dsimp only
      omega
    case ring => exact fun k hk => h.ring k (by omega)
    case header => exact fun k hk => h.header k (by omega)
    case payload => exact fun k f hk => h.payload k f (by omega)
    case zeros => exact fun _ => h.zeros hlt
    case sent_le => exact h.sent_le
    case availIdx => exact h.availIdx
    case txAvailIdx => exact h.txAvailIdx
    case txDescIdx => exact h.txDescIdx
    case usedIdx => exact h.usedIdx
    case length_le => exact h.length_le

/-- The device reports frames that it has taken. -/
theorem Queued.complete (h : x.Queued tx c) (hy : x.complete = some y) :
    y.Queued tx (c + 1) ∧ y = { x with usedIdx := (x.usedIdx + 1) % 2 ^ 16 } := by
  unfold Nic.complete at hy
  split at hy
  · cases hy
  · rename_i hne
    rw [Option.some.injEq] at hy
    have hused := h.used_le
    have hwire := h.wire_le
    have hsent := h.sent_le
    have hidx := h.usedIdx
    have hlt : c < x.wire.length := by
      rcases Nat.lt_or_ge c x.wire.length with hlt | hge
      · exact hlt
      · exact absurd (by rw [h.usedIdx, h.devAvail, Nat.le_antisymm hused hge]) hne
    subst hy
    exact ⟨⟨hlt, hwire, by dsimp only; omega, h.availIdx, h.txAvailIdx, h.txDescIdx, h.devAvail, by dsimp only; omega,
      h.ring, h.header, h.payload, h.length_le, h.zeros⟩, rfl⟩

theorem queued_step {op : NicOp} {r : Option Bool} (h : x.Queued tx c) (hstep : x.step tx op = some (y, r)) :
    ∃ c, y.Queued tx c := by
  cases op with
  | send data =>
    rcases step_send tx x data with ⟨htakes, heq⟩ | ⟨-, heq | heq⟩
    · rw [heq] at hstep
      cases hstep
      exact ⟨c, h.taken htakes⟩
    · rw [heq] at hstep
      cases hstep
      exact ⟨c, h⟩
    · rw [heq] at hstep
      cases hstep
      exact ⟨c, h.reclaimTx⟩
  | reclaim =>
    cases hstep
    exact ⟨c, h.reclaimTx⟩
  | transmit =>
    obtain ⟨z, hz, heq⟩ := Option.map_eq_some_iff.1 hstep
    cases heq
    exact ⟨c, (h.transmit hz).1⟩
  | complete =>
    obtain ⟨z, hz, heq⟩ := Option.map_eq_some_iff.1 hstep
    cases heq
    exact ⟨c + 1, (h.complete hz).1⟩

/-- In every run the indices and the descriptors are right, however late the device is. -/
theorem queued_run (tx : TxBuffers) (mem : ByteMemory) {G : Nic → NicOp → Prop} {es : List (NicOp × Option Bool)}
    (h : Run (step tx) G (boot mem) es y) : ∃ c, y.Queued tx c := by
  refine h.invariant (P := fun x => ∃ c, x.Queued tx c) ?_ ⟨0, queued_boot mem⟩
  rintro t u op r ⟨c, hc⟩ - hstep
  exact queued_step hc hstep

/-! ### The frames -/

/-- The frames are delivered if those on the wire are right and the buffer holds every frame in flight. -/
theorem Queued.delivers (h : x.Queued tx c) (hwire : x.wire <+: x.sent)
    (hbuf : ∀ k f, x.wire.length ≤ k → x.sent[k]? = some f → x.mem.load tx.buf f.length = f) : x.Delivers := by
  refine ⟨hwire, fun k f hk hf => ?_, fun heq => ?_⟩
  · rw [h.chainAt_eq hk hf, hbuf k f hk hf]
  · have hle := h.wire_le
    have hused := h.used_le
    have hsent := h.sent_le
    rw [h.devAvail, h.availIdx] at heq
    unfold queueSize at hsent
    exact hwire.eq_of_length (by omega)

theorem Queued.load_of_delivers (h : x.Queued tx c) (hx : x.Delivers) {k : Nat} {f : Bytes} (hk : x.wire.length ≤ k)
    (hf : x.sent[k]? = some f) : x.mem.load tx.buf f.length = f := by
  have hchain := hx.chain k f hk hf
  rw [h.chainAt_eq hk hf] at hchain
  exact List.append_cancel_left hchain

/-- A frame that is taken leaves the frames in flight alone exactly when it agrees with them. -/
theorem delivers_taken_iff (h : x.Queued tx c) (hx : x.Delivers) {data : Bytes} (htakes : x.Takes data) :
    (x.taken tx data).Delivers ↔
      ∀ k f, x.wire.length ≤ k → x.sent[k]? = some f → f.take data.length = data.take f.length := by
  have hy := h.taken htakes
  have hload : ∀ k f, x.wire.length ≤ k → x.sent[k]? = some f →
      (x.mem.fill tx.hdr virtioNetHdrSize 0).load tx.buf f.length = f := by
    intro k f hk hf
    have hlen := h.length_le f (List.mem_of_getElem? hf)
    rw [load_buf_fill (by unfold pktBufSize virtioNetHdrSize at *; omega)]
    exact h.load_of_delivers hx hk hf
  have hold : ∀ (k : Nat) (f : Bytes), x.sent[k]? = some f → (x.taken tx data).sent[k]? = some f := by
    intro k f hf
    obtain ⟨hlt, -⟩ := List.getElem?_eq_some_iff.1 hf
    show (x.sent ++ [data])[k]? = some f
    rw [List.getElem?_append_left hlt]
    exact hf
  constructor
  · intro hdel k f hk hf
    have hkept := hy.load_of_delivers hdel hk (hold k f hf)
    exact (ByteMemory.load_store_iff (hload k f hk hf)).1 hkept
  · intro hagree
    refine hy.delivers (hx.wire.trans (List.prefix_append _ _)) fun k f hk hf => ?_
    rcases Nat.lt_or_ge k x.sent.length with hlt | hge
    · have hf' : x.sent[k]? = some f := by
        have hsent : (x.sent ++ [data])[k]? = some f := hf
        rwa [List.getElem?_append_left hlt] at hsent
      exact (ByteMemory.load_store_iff (hload k f hk hf')).2 (hagree k f hk hf')
    · have hnew : f = data := by
        have hsent : (x.sent ++ [data])[k]? = some f := hf
        rw [List.getElem?_append_right hge] at hsent
        exact List.mem_singleton.1 (List.mem_of_getElem? hsent)
      rw [hnew]
      exact ByteMemory.load_store_self _ tx.buf data

theorem delivers_boot (mem : ByteMemory) : (boot mem).Delivers := by
  refine ⟨List.nil_prefix, fun k f _ hf => ?_, fun _ => rfl⟩
  cases hf

/-- A step delivers exactly if the frame that it takes agrees with those in flight. -/
theorem meets_iff (h : x.Queued tx c) (hx : x.Delivers) (op : NicOp) : x.Meets tx op ↔ x.Agrees op := by
  cases op with
  | send data =>
    unfold Meets Agrees
    rcases step_send tx x data with ⟨htakes, heq⟩ | ⟨hno, heq | heq⟩
    · constructor
      · intro hmeets _
        exact (delivers_taken_iff h hx htakes).1 (hmeets _ _ heq)
      · intro hagree y r hy
        rw [heq] at hy
        cases hy
        exact (delivers_taken_iff h hx htakes).2 (hagree htakes)
    · refine ⟨fun _ htakes => absurd htakes hno, fun _ y r hy => ?_⟩
      rw [heq] at hy
      cases hy
      exact hx
    · refine ⟨fun _ htakes => absurd htakes hno, fun _ y r hy => ?_⟩
      rw [heq] at hy
      cases hy
      exact h.reclaimTx.delivers hx.wire fun k f hk hf => h.load_of_delivers hx hk hf
  | reclaim =>
    refine ⟨fun _ => trivial, fun _ y r hy => ?_⟩
    cases hy
    exact h.reclaimTx.delivers hx.wire fun k f hk hf => h.load_of_delivers hx hk hf
  | transmit =>
    refine ⟨fun _ => trivial, fun _ y r hy => ?_⟩
    obtain ⟨z, hz, heq⟩ := Option.map_eq_some_iff.1 hy
    cases heq
    obtain ⟨hqueued, f, hf, hsent, hmem, hwire⟩ := h.transmit hz
    have hlen : y.wire.length = x.wire.length + 1 := by
      rw [hwire]
      simp
    refine hqueued.delivers ?_ fun k g hk hg => ?_
    · -- the frame that was taken is the next one
      rw [hwire, hsent, hx.chain _ f (Nat.le_refl _) hf]
      obtain ⟨rest, hrest⟩ := hx.wire
      rw [← hrest, List.getElem?_append_right (Nat.le_refl _), Nat.sub_self] at hf
      cases rest with
      | nil => cases hf
      | cons g rest =>
        cases hf
        have hdrop : (List.replicate virtioNetHdrSize 0 ++ f).drop virtioNetHdrSize = f := by simp
        rw [hdrop, ← hrest]
        exact ⟨rest, by simp⟩
    · rw [hsent] at hg
      rw [hmem]
      exact h.load_of_delivers hx (by omega) hg
  | complete =>
    refine ⟨fun _ => trivial, fun _ y r hy => ?_⟩
    obtain ⟨z, hz, heq⟩ := Option.map_eq_some_iff.1 hy
    cases heq
    obtain ⟨hqueued, rfl⟩ := h.complete hz
    exact hqueued.delivers hx.wire fun k f hk hf => h.load_of_delivers hx hk hf

/-- The frames are delivered in every state of a run exactly when each frame that is taken agrees with the frames that the
device has not read yet. -/
theorem frames_sent (tx : TxBuffers) (mem : ByteMemory) {es : List (NicOp × Option Bool)} :
    Run (step tx) (Meets tx) (boot mem) es y ↔ Run (step tx) Agrees (boot mem) es y := by
  constructor
  · intro hrun
    have hboth : (∃ c, y.Queued tx c) ∧ y.Delivers ∧ Run (step tx) Agrees (boot mem) es y := by
      induction hrun with
      | nil => exact ⟨⟨0, queued_boot mem⟩, delivers_boot mem, .nil _⟩
      | snoc _ hmeets hstep ih =>
        obtain ⟨⟨c, hc⟩, hdel, hrun⟩ := ih
        exact ⟨queued_step hc hstep, hmeets _ _ hstep, hrun.snoc ((meets_iff hc hdel _).1 hmeets) hstep⟩
    exact hboth.2.2
  · intro hrun
    have hboth : (∃ c, y.Queued tx c) ∧ y.Delivers ∧ Run (step tx) (Meets tx) (boot mem) es y := by
      induction hrun with
      | nil => exact ⟨⟨0, queued_boot mem⟩, delivers_boot mem, .nil _⟩
      | snoc _ hagrees hstep ih =>
        obtain ⟨⟨c, hc⟩, hdel, hrun⟩ := ih
        have hmeets := (meets_iff hc hdel _).2 hagrees
        exact ⟨queued_step hc hstep, hmeets _ _ hstep, hrun.snoc hmeets hstep⟩
    exact hboth.2.2

/-- The buffers of a driver whose memory starts at 0. -/
def lowBuffers : TxBuffers := ⟨4096, 0, by decide⟩

/-- The first of two frames has been taken and reported. -/
theorem queued_run_low : ∃ es y c, Run (step lowBuffers) (fun _ _ => True) (boot fun _ => 0) es y ∧ y.sent.length = 2 ∧
    y.Queued lowBuffers c := by
  have hexec : (exec (step lowBuffers) (fun _ _ => True) (boot fun _ => 0)
      [.send [1], .transmit, .complete, .send [2]]).any (fun out => decide (out.1.sent.length = 2)) = true := by decide
  obtain ⟨⟨y, es⟩, hrun, hout⟩ := (Option.any_eq_true _ _).1 hexec
  obtain ⟨c, hc⟩ := queued_run lowBuffers (fun _ => 0) (run_of_exec hrun)
  exact ⟨es, y, c, run_of_exec hrun, of_decide_eq_true hout, hc⟩

/-- Two frames are sent before the device runs; the second is put on the wire twice. -/
theorem frame_overwritten : ∃ es y, Run (step lowBuffers) (fun _ _ => True) (boot fun _ => 0) es y ∧ ¬ y.Delivers := by
  have hexec : (exec (step lowBuffers) (fun _ _ => True) (boot fun _ => 0)
      [.send [1], .send [2], .transmit, .transmit]).any (fun out =>
        decide (out.1.sent = [[1], [2]] ∧ out.1.wire = [[2], [2]])) = true := by decide
  obtain ⟨⟨y, es⟩, hrun, hout⟩ := (Option.any_eq_true _ _).1 hexec
  obtain ⟨hsent, hwire⟩ := of_decide_eq_true hout
  refine ⟨es, y, run_of_exec hrun, fun hdel => ?_⟩
  have hprefix := hdel.wire
  rw [hsent, hwire] at hprefix
  exact absurd hprefix (by decide)

end Nic

end Rost.Net
