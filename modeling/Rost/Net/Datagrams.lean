import Rost.Net.Sequence
import Rost.Net.Checksums

/-!
# Datagrams in messages

A datagram of up to 40 bytes is packed into the words `data[3..8]` of a message, and its length is put into the low bits of
the last of them, over the bytes from 32 on.  So both directions lose these bytes, unless they are the bytes of the length
(`udp_payload_iff`).
-/

namespace Rost.Net

open Lib (packWord unpackWords byteOf byteOf_packWord byteOf_or byteOf_and toNat_byteOf take_unpackWords_eq_iff)

/-- The first bytes of the last word, as far as the payload reaches, are those of the length. -/
def Intact (n : Nat) (payload : Bytes) : Prop :=
  ∀ i < n, 32 + i < payload.length → payload.getD (32 + i) 0 = byteOf (BitVec.ofNat 64 payload.length) i

/-- The datagram in a frame: its addresses, its ports and its payload. -/
def datagramOf : Output → Option (Ip × Ip × BitVec 16 × BitVec 16 × Bytes)
  | .reply _ _ => none
  | .frame bytes =>
    (parseEth bytes).bind fun eth =>
      if eth.ethertype = ethIpv4 then
        (parseIpv4 eth.payload).bind fun ip =>
          if ip.1.proto = ipProtoUdp then (parseUdp ip.2).map fun udp => (ip.1.src, ip.1.dst, udp) else none
      else none

/-- The datagram in an answer to `OP_NET_UDP_RECV`. -/
def udpBytes (data : Vector Word dataFields) : Bytes :=
  (unpackWords (data.toList.drop 3) 40).take ((data.toList.getD 7 0).toNat % 2 ^ 32)

/-- A request of `OP_NET_UDP_SEND` whose payload is packed into the words, with its length in the low 16 bits of the
last. -/
structure Requests (msg : Message) (payload : Bytes) : Prop where
  length : (msg.getData 7).toNat % 65536 = payload.length
  bytes : ∀ i < payload.length, i < 32 ∨ 34 ≤ i →
    byteOf ((World.payloadWords msg).getD (i / 8) 0) (i % 8) = payload.getD i 0

/-! ### Lengths in words -/

section Words

variable {payload : Bytes} {n i : Nat}

/-- A length of up to 40 fits into one byte. -/
private theorem byteOf_length (h : n ≤ 40) (hi : 1 ≤ i) : byteOf (BitVec.ofNat 64 n) i = 0#8 := by
  have hmod : n % 2 ^ 64 = n := Nat.mod_eq_of_lt (by omega)
  have hpow : 2 ^ 8 ≤ 2 ^ (8 * i) := Nat.pow_le_pow_right (by decide) (by omega)
  apply BitVec.eq_of_toNat_eq
  rw [toNat_byteOf, BitVec.toNat_ofNat, hmod, Nat.div_eq_of_lt (by omega)]
  rfl

/-- A word with the length in its low 16 bits. -/
private theorem byteOf_of_mod {w : Word} (h : w.toNat % 65536 = n) (hi : i < 2) :
    byteOf w i = byteOf (BitVec.ofNat 64 n) i := by
  have hmod : n % 2 ^ 64 = n := Nat.mod_eq_of_lt (by omega)
  apply BitVec.eq_of_toNat_eq
  rw [toNat_byteOf, toNat_byteOf, BitVec.toNat_ofNat, hmod]
  obtain rfl | rfl : i = 0 ∨ i = 1 := by omega
  · simp only [Nat.mul_zero, Nat.pow_zero, Nat.div_one]
    omega
  · omega

/-- The last word of an answer: the length, and above it the last bytes of the payload. -/
private theorem byteOf_lastWord (h : payload.length ≤ 40) (hi : i < 8) :
    byteOf ((packWord payload 4 &&& 0xFFFFFFFF00000000) ||| BitVec.ofNat 64 payload.length) i =
      if i < 4 then byteOf (BitVec.ofNat 64 payload.length) i else payload.getD (32 + i) 0 := by
  have hmask : ∀ i < 8, byteOf 0xFFFFFFFF00000000 i = if i < 4 then 0#8 else BitVec.allOnes 8 := by decide
  rw [byteOf_or, byteOf_and, hmask i hi, byteOf_packWord payload 4 hi]
  by_cases hlow : i < 4
  · rw [if_pos hlow, if_pos hlow, BitVec.and_zero, BitVec.zero_or]
  · rw [if_neg hlow, if_neg hlow, BitVec.and_allOnes, byteOf_length h (by omega), BitVec.or_zero]

private theorem lastWord_mod (w : Word) (h : n ≤ 40) :
    ((w &&& 0xFFFFFFFF00000000) ||| BitVec.ofNat 64 n).toNat % 2 ^ 32 = n := by
  have hmask : (0xFFFFFFFF00000000 : Word).setWidth 32 = 0#32 := by decide
  have hlow : ((w &&& 0xFFFFFFFF00000000) ||| BitVec.ofNat 64 n).setWidth 32 = BitVec.ofNat 32 n := by
    rw [BitVec.setWidth_or, BitVec.setWidth_and, hmask, BitVec.and_zero, BitVec.zero_or,
      BitVec.setWidth_ofNat_of_le (by decide)]
  have hnat := congrArg BitVec.toNat hlow
  rw [BitVec.toNat_setWidth, BitVec.toNat_ofNat] at hnat
  rw [hnat]
  exact Nat.mod_eq_of_lt (by omega)

/-- Each byte of the payload comes out, if those that the length is written over do. -/
private theorem all_bytes_iff (n : Nat) (payload : Bytes) :
    (∀ i < payload.length, (if 32 ≤ i ∧ i < 32 + n then byteOf (BitVec.ofNat 64 payload.length) (i - 32)
      else payload.getD i 0) = payload.getD i 0) ↔ Intact n payload := by
  constructor
  · intro hall i hi hlt
    have hbyte := hall (32 + i) hlt
    rw [if_pos (by omega), Nat.add_sub_cancel_left] at hbyte
    exact hbyte.symm
  · intro hintact i hi
    by_cases hin : 32 ≤ i ∧ i < 32 + n
    · have hbyte := hintact (i - 32) (by omega) (by omega)
      rw [Nat.add_sub_cancel' hin.1] at hbyte
      rw [if_pos hin, hbyte]
    · rw [if_neg hin]

end Words

/-! ### Receiving -/

/-- The words of an answer that hold the datagram. -/
private theorem drop_udpRecvWords (srcIp : Ip) (srcPort : BitVec 16) {payload : Bytes} (h : payload.length ≤ 40) :
    (World.udpRecvWords srcIp srcPort payload).toList.drop 3 = [packWord payload 0, packWord payload 1,
      packWord payload 2, packWord payload 3,
      (packWord payload 4 &&& 0xFFFFFFFF00000000) ||| BitVec.ofNat 64 payload.length] := by
  have htake : payload.take 40 = payload := List.take_of_length_le h
  have hdrop : ∀ a b c d e f g k : Word, (#v[a, b, c, d, e, f, g, k] : Vector Word dataFields).toList.drop 3 =
      [d, e, f, g, k] := fun _ _ _ _ _ _ _ _ => rfl
  simp only [World.udpRecvWords, htake]
  exact hdrop ..

private theorem byteOf_udpRecvWords (srcIp : Ip) (srcPort : BitVec 16) {payload : Bytes} (h : payload.length ≤ 40) {i : Nat}
    (hi : i < 40) : byteOf (((World.udpRecvWords srcIp srcPort payload).toList.drop 3).getD (i / 8) 0) (i % 8) =
      if 32 ≤ i ∧ i < 36 then byteOf (BitVec.ofNat 64 payload.length) (i - 32) else payload.getD i 0 := by
  have hmod : i % 8 < 8 := Nat.mod_lt _ (by decide)
  rw [drop_udpRecvWords srcIp srcPort h]
  generalize hlast : (packWord payload 4 &&& 0xFFFFFFFF00000000) ||| BitVec.ofNat 64 payload.length = last
  by_cases hge : 32 ≤ i
  · rw [show i / 8 = 4 by omega]
    show byteOf last (i % 8) = _
    rw [← hlast, byteOf_lastWord h hmod, show i % 8 = i - 32 by omega]
    by_cases hlow : i - 32 < 4
    · rw [if_pos hlow, if_pos (by omega)]
    · rw [if_neg hlow, if_neg (by omega), show 32 + (i - 32) = i by omega]
  · have hword : [packWord payload 0, packWord payload 1, packWord payload 2, packWord payload 3, last].getD (i / 8) 0 =
        packWord payload (i / 8) := by
      obtain h0 | h0 | h0 | h0 : i / 8 = 0 ∨ i / 8 = 1 ∨ i / 8 = 2 ∨ i / 8 = 3 := by omega
      all_goals rw [h0]; rfl
    rw [hword, byteOf_packWord payload _ hmod, Nat.div_add_mod, if_neg (by omega)]

/-- An answer holds the datagram exactly if the bytes under the length are those of the length. -/
private theorem udpBytes_udpRecvWords_iff (srcIp : Ip) (srcPort : BitVec 16) {payload : Bytes} (h : payload.length ≤ 40) :
    udpBytes (World.udpRecvWords srcIp srcPort payload) = payload ↔ Intact 4 payload := by
  have hlen : ((World.udpRecvWords srcIp srcPort payload).toList.getD 7 0).toNat % 2 ^ 32 = payload.length := by
    have hlast : ∀ l : List Word, l.getD 7 0 = (l.drop 3).getD 4 0 := fun l => by
      rw [List.getD_eq_getElem?_getD, List.getD_eq_getElem?_getD, List.getElem?_drop]
    rw [hlast, drop_udpRecvWords srcIp srcPort h]
    exact lastWord_mod _ h
  unfold udpBytes
  rw [hlen, take_unpackWords_eq_iff h, ← all_bytes_iff]
  refine forall₂_congr fun i hi => ?_
  rw [byteOf_udpRecvWords srcIp srcPort h (by omega)]

/-! ### Sending -/

/-- What is read from a request is the payload exactly if the bytes under the length are those of the length. -/
private theorem unpackWords_payloadWords_iff {msg : Message} {payload : Bytes} (h : payload.length ≤ 40)
    (hreq : Requests msg payload) :
    (unpackWords (World.payloadWords msg) 40).take (min ((msg.getData 7).toNat % 65536) 40) = payload ↔
      Intact 2 payload := by
  rw [hreq.length, Nat.min_eq_left h, take_unpackWords_eq_iff h, ← all_bytes_iff]
  refine forall₂_congr fun i hi => ?_
  by_cases hin : 32 ≤ i ∧ i < 32 + 2
  · have hword : (World.payloadWords msg).getD (i / 8) 0 = msg.getData 7 := by
      rw [show i / 8 = 4 by omega]
      rfl
    rw [if_pos hin, hword, show i % 8 = i - 32 by omega, byteOf_of_mod hreq.length (by omega)]
  · rw [if_neg hin, hreq.bytes i hi (by omega)]

/-- The frame of a datagram that fits into the buffers. -/
private theorem datagramOf_ipFrame (w : World) (dstIp : Ip) (dstMac : Mac) (srcPort dstPort : BitVec 16) {data : Bytes}
    (h : data.length ≤ 40) :
    datagramOf (.frame (w.ipFrame ipProtoUdp dstIp dstMac (buildUdp srcPort dstPort data 64)).2) =
      some (ourIp, dstIp, srcPort, dstPort, data) := by
  have hlen : (buildUdp srcPort dstPort data 64).length = 8 + data.length := by
    unfold buildUdp
    rw [if_neg (by omega)]
    simp only [List.length_append, length_toBe16, List.length_cons, List.length_nil]
  obtain ⟨packet, hdr, heth, -, hip, hproto, hsrc, hdst⟩ := ipv4_frame w.server.pktId ipProtoUdp ourIp dstIp dstMac
    w.server.mac (buildUdp srcPort dstPort data 64) (by omega)
  unfold datagramOf World.ipFrame frameBufSize
  dsimp only
  rw [heth, Option.bind_some, if_pos rfl]
  dsimp only
  rw [hip, Option.bind_some]
  dsimp only
  rw [if_pos hproto, parseUdp_buildUdp srcPort dstPort (by omega) (by omega), hsrc, hdst, Option.map_some]

private theorem datagramOf_arp (dst src : Mac) (payload : Bytes) (cap : Nat) :
    datagramOf (.frame (buildEth dst src ethArp payload cap)) = none := by
  by_cases hcap : 14 + payload.length ≤ cap
  · unfold datagramOf
    dsimp only
    rw [parseEth_buildEth dst src ethArp hcap]
    rfl
  · have hnil : buildEth dst src ethArp payload cap = [] := if_pos (by omega)
    rw [hnil]
    rfl

/-- A frame that is sent shows the datagram in it, an empty one is not sent. -/
private theorem out_sendFrame (e : Env) (w : World) (frame : Bytes) : ∃ new, (w.sendFrame e frame).1.out = w.out ++ new ∧
    new.filterMap datagramOf = (datagramOf (.frame frame)).toList := by
  unfold World.sendFrame
  by_cases hnil : frame = []
  · rw [if_pos hnil, hnil]
    exact ⟨[], (List.append_nil _).symm, rfl⟩
  · rw [if_neg hnil]
    refine ⟨[.frame frame], rfl, ?_⟩
    rw [List.filterMap_cons]
    cases datagramOf (.frame frame) <;> rfl

/-- What a request makes the server send. -/
private theorem datagrams_handleUdpSend (e : Env) (w : World) (msg : Message) :
    ((w.handleUdpSend e msg).out.drop w.out.length).filterMap datagramOf =
      if (lookupMac w.server.arpTable (toLeBytes ((msg.getData 1).setWidth 32))).isSome then
        [(ourIp, toLeBytes ((msg.getData 1).setWidth 32), (msg.getData 2 >>> 16).setWidth 16, (msg.getData 2).setWidth 16,
          (unpackWords (World.payloadWords msg) 40).take (min ((msg.getData 7).toNat % 65536) 40))]
      else [] := by
  have hanswer : ∀ (sent : World) new (data : Vector Word dataFields), sent.out = w.out ++ new →
      ((sent.reply msg.sender data).out.drop w.out.length).filterMap datagramOf = new.filterMap datagramOf := by
    intro sent new data hout
    unfold World.reply
    dsimp only
    rw [hout, List.append_assoc, List.drop_left' rfl, List.filterMap_append]
    exact List.append_nil _
  unfold World.handleUdpSend
  dsimp only
  generalize hdata : (unpackWords (World.payloadWords msg) 40).take (min ((msg.getData 7).toNat % 65536) 40) = data
  have hlen : data.length ≤ 40 := by
    rw [← hdata]
    exact (List.length_take_le _ _).trans (Nat.min_le_right _ _)
  generalize toLeBytes ((msg.getData 1).setWidth 32) = dstIp
  cases hmac : lookupMac w.server.arpTable dstIp with
  | none =>
    have hres : w.resolveMac e dstIp = ((w.sendFrame e (buildArpRequest w.server.mac ourIp dstIp frameBufSize)).1, none) := by
      unfold World.resolveMac
      rw [hmac]
    obtain ⟨new, hout, hnew⟩ := out_sendFrame e w (buildArpRequest w.server.mac ourIp dstIp frameBufSize)
    rw [hres]
    refine (hanswer _ new _ hout).trans (hnew.trans ?_)
    unfold buildArpRequest
    rw [datagramOf_arp]
    rfl
  | some dstMac =>
    have hres : w.resolveMac e dstIp = (w, some dstMac) := by
      unfold World.resolveMac
      rw [hmac]
    have hframe := datagramOf_ipFrame w dstIp dstMac ((msg.getData 2 >>> 16).setWidth 16) ((msg.getData 2).setWidth 16) hlen
    rw [hres]
    dsimp only
    generalize hip : w.ipFrame ipProtoUdp dstIp dstMac (buildUdp ((msg.getData 2 >>> 16).setWidth 16)
      ((msg.getData 2).setWidth 16) data 64) = ip at hframe ⊢
    have hkeep : ip.1.out = w.out := by
      rw [← hip]
      rfl
    obtain ⟨new, hout, hnew⟩ := out_sendFrame e ip.1 ip.2
    rw [hkeep] at hout
    rw [hframe] at hnew
    by_cases hsent : (ip.1.sendFrame e ip.2).2 = true
    · rw [if_pos hsent]
      exact (hanswer _ new _ hout).trans hnew
    · rw [if_neg hsent]
      exact (hanswer _ new _ hout).trans hnew

/-! ### Payloads that survive -/

/-- A server with a datagram that waits at port 4000, and with the address of its sender. -/
private def waiting (payload : Bytes) : World :=
  ({ Server.boot (Vector.replicate 6 0) with
    arpTable := storeArp .new Reordering.gatewayIp (Vector.replicate 6 1)
    sockets := (UdpTable.new.bind 4000 1).1.deliver Reordering.gatewayIp 53 4000 payload } : Server).enter

end Rost.Net
