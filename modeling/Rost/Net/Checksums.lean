import Rost.Lib.OnesComplement
import Rost.Net.Tcp
import Rost.Net.Tables

/-!
# Built packets

The checksum that a builder puts into a packet makes the end-around sum of what it covers `0xFFFF`, whatever the length and
the content (`onesSum_checksum`); and what is built is parsed back, as long as the length fits its 16-bit field.
-/

namespace Rost.Net

open Lib.OnesComplement (fold fold_lt fold_add_complement)

/-! ### Checksums -/

/-- The end-around sum of the words, as a receiver computes it. -/
def onesSum (data : Bytes) : Nat := foldSum (wordSum data) (wordSum data)

theorem foldSum_eq (fuel sum : Nat) : foldSum fuel sum = fold 65536 fuel sum := by
  induction fuel generalizing sum with
  | zero => rfl
  | succ fuel ih =>
    unfold foldSum fold
    rw [ih]

theorem onesSum_lt (data : Bytes) : onesSum data < 65536 := by
  unfold onesSum
  rw [foldSum_eq]
  exact fold_lt (by decide) (Nat.le_refl _)

theorem toNat_ipChecksum (data : Bytes) : (ipChecksum data).toNat = 65535 - onesSum data := by
  have hlt := onesSum_lt data
  unfold ipChecksum
  rw [BitVec.toNat_not, BitVec.toNat_ofNat]
  unfold onesSum at hlt ⊢
  omega

theorem wordSum_append : ∀ {l : Bytes} (r : Bytes), l.length % 2 = 0 → wordSum (l ++ r) = wordSum l + wordSum r
  | [], r, _ => (Nat.zero_add _).symm
  | [_], _, h => absurd h (by simp)
  | a :: b :: l, r, h => by
    have ih := wordSum_append (l := l) r (by simp only [List.length_cons] at h; omega)
    simp only [List.cons_append, wordSum, ih, Nat.add_assoc]

private theorem wordSum_toBe16 (v : BitVec 16) : wordSum (toBe16 v) = v.toNat := by
  have hv : (v.extractLsb' 8 8 ++ v.extractLsb' 0 8 : BitVec 16) = v := by
    apply BitVec.eq_of_getLsbD_eq
    intro i hi
    rw [BitVec.getLsbD_append, BitVec.getLsbD_extractLsb', BitVec.getLsbD_extractLsb']
    by_cases hlow : i < 8
    · simp [hlow]
    · simp [hlow, show i - 8 < 8 by omega, show 8 + (i - 8) = i by omega]
  simp only [toBe16, wordSum, hv, Nat.add_zero]

/-- A checksum at an even place makes the sum of everything `0xFFFF`. -/
theorem onesSum_checksum {l : Bytes} (r : Bytes) (hl : l.length % 2 = 0) :
    onesSum (l ++ (toBe16 (ipChecksum (l ++ (toBe16 0 ++ r))) ++ r)) = 0xFFFF := by
  have hsum : ∀ v, wordSum (l ++ (toBe16 v ++ r)) = wordSum l + wordSum r + v.toNat := by
    intro v
    rw [wordSum_append _ hl, wordSum_append (l := toBe16 v) r (by rw [length_toBe16]), wordSum_toBe16]
    omega
  have hzero : wordSum (l ++ (toBe16 0 ++ r)) = wordSum l + wordSum r := hsum 0
  have hcsum := toNat_ipChecksum (l ++ (toBe16 0 ++ r))
  unfold onesSum at hcsum
  rw [hzero, foldSum_eq] at hcsum
  unfold onesSum
  rw [hsum, hcsum, foldSum_eq]
  exact fold_add_complement (by decide) _

/-! ### Headers -/

theorem buildIpv4_of_le (pktId : BitVec 16) (proto : Byte) (src dst : Ip) {payload : Bytes} {cap : Nat}
    (hcap : 20 + payload.length ≤ cap) : ∃ csum id,
      (buildIpv4 pktId proto src dst payload cap).1 =
        ipv4Header (BitVec.ofNat 16 (20 + payload.length)) id proto csum src dst ++ payload ∧
      csum = ipChecksum (ipv4Header (BitVec.ofNat 16 (20 + payload.length)) id proto 0 src dst) := by
  unfold buildIpv4
  rw [if_neg (by omega)]
  exact ⟨_, _, rfl, rfl⟩

/-- The sum of the header that `buildIpv4` writes. -/
theorem onesSum_ipv4Header (totLen id : BitVec 16) (proto : Byte) (src dst : Ip) :
    onesSum (ipv4Header totLen id proto (ipChecksum (ipv4Header totLen id proto 0 src dst)) src dst) = 0xFFFF := by
  have hsplit : ∀ csum, ipv4Header totLen id proto csum src dst =
      ([0x45, 0x00] ++ toBe16 totLen ++ toBe16 id ++ [0x40, 0x00, 64, proto]) ++ (toBe16 csum ++ (src.toList ++ dst.toList)) := by
    intro csum
    simp [ipv4Header]
  rw [hsplit, hsplit 0]
  exact onesSum_checksum _ (by simp)

/-- The sum of an echo message. -/
theorem onesSum_buildIcmpEcho (icmpType : Byte) (id seq : BitVec 16) {payload : Bytes} {cap : Nat}
    (hcap : 8 + payload.length ≤ cap) : onesSum (buildIcmpEcho icmpType id seq payload cap) = 0xFFFF := by
  have hsplit : ∀ csum, icmpHeader icmpType csum id seq ++ payload =
      [icmpType, 0] ++ (toBe16 csum ++ (toBe16 id ++ (toBe16 seq ++ payload))) := by
    intro csum
    simp [icmpHeader]
  unfold buildIcmpEcho
  rw [if_neg (by omega), hsplit, hsplit 0]
  exact onesSum_checksum _ (by simp)

/-- The header that a TCP checksum covers besides the segment. -/
def pseudoHeader (src dst : Ip) (len : Nat) : Bytes := src.toList ++ dst.toList ++ [0, 6] ++ toBe16 (BitVec.ofNat 16 len)

/-- The sum of a segment with its pseudo header, once the checksum has been filled in. -/
theorem onesSum_fillTcpChecksum (src dst : Ip) {seg : Bytes} (hhdr : 20 ≤ seg.length) (hlen : seg.length ≤ 552) :
    onesSum (pseudoHeader src dst seg.length ++ fillTcpChecksum src dst seg) = 0xFFFF := by
  have hblank : (seg.take 16 ++ [0, 0] ++ seg.drop 18).length = seg.length := by
    simp only [List.length_append, List.length_take, List.length_drop, List.length_cons, List.length_nil]
    omega
  have hcsum : tcpChecksum src dst (seg.take 16 ++ [0, 0] ++ seg.drop 18) =
      ipChecksum (pseudoHeader src dst seg.length ++ seg.take 16 ++ (toBe16 0 ++ seg.drop 18)) := by
    unfold tcpChecksum
    rw [if_neg (by unfold maxPseudo; omega), hblank]
    congr 1
    simp [pseudoHeader, toBe16]
  unfold fillTcpChecksum
  rw [if_neg (by omega)]
  dsimp only
  rw [hcsum, List.append_assoc (seg.take 16), ← List.append_assoc]
  refine onesSum_checksum _ ?_
  simp only [pseudoHeader, List.length_append, List.length_take, Vector.length_toList, List.length_cons, List.length_nil,
    length_toBe16]
  omega

/-! ### Parsing what is built -/

theorem parseUdp_buildUdp (srcPort dstPort : BitVec 16) {payload : Bytes} {cap : Nat} (hcap : 8 + payload.length ≤ cap)
    (hlen : 8 + payload.length < 2 ^ 16) :
    parseUdp (buildUdp srcPort dstPort payload cap) = some (srcPort, dstPort, payload) := by
  unfold buildUdp
  rw [if_neg (by omega)]
  generalize hbuf : toBe16 srcPort ++ toBe16 dstPort ++ toBe16 (BitVec.ofNat 16 (8 + payload.length)) ++ [0, 0] ++ payload = buf
  have hlength : buf.length = 8 + payload.length := by
    simp only [← hbuf, List.length_append, length_toBe16, List.length_cons, List.length_nil]
  have hsrc : be16At buf 0 = srcPort := be16At_eq [] (toBe16 dstPort ++ toBe16 (BitVec.ofNat 16 (8 + payload.length)) ++
    [0, 0] ++ payload) (by simp [← hbuf]) rfl
  have hdst : be16At buf 2 = dstPort := be16At_eq (toBe16 srcPort) (toBe16 (BitVec.ofNat 16 (8 + payload.length)) ++
    [0, 0] ++ payload) (by simp [← hbuf]) rfl
  have htot : be16At buf 4 = BitVec.ofNat 16 (8 + payload.length) :=
    be16At_eq (toBe16 srcPort ++ toBe16 dstPort) ([0, 0] ++ payload) (by simp [← hbuf]) rfl
  have hpayload : (buf.take (8 + payload.length)).drop 8 = payload := by
    rw [List.take_of_length_le hlength.le, ← hbuf]
    exact List.drop_left' rfl
  unfold parseUdp
  rw [if_neg (by omega)]
  dsimp only
  rw [htot, BitVec.toNat_ofNat, Nat.mod_eq_of_lt hlen, if_neg (by omega), hsrc, hdst, hpayload]

/-- The frame of a packet that fits into the buffers of the server is parsed back, and the sum of its header is right. -/
theorem ipv4_frame (pktId : BitVec 16) (proto : Byte) (src dst : Ip) (dstMac srcMac : Mac) (payload : Bytes)
    (hfits : 20 + payload.length ≤ 128) : ∃ packet hdr,
      parseEth (buildEth dstMac srcMac ethIpv4 (buildIpv4 pktId proto src dst payload 128).1 1536) =
        some ⟨dstMac, srcMac, ethIpv4, packet⟩ ∧
      onesSum (packet.take 20) = 0xFFFF ∧ parseIpv4 packet = some (hdr, payload) ∧
      hdr.proto = proto ∧ hdr.src = src ∧ hdr.dst = dst := by
  obtain ⟨csum, id, hbuilt, hcsum⟩ := buildIpv4_of_le pktId proto src dst hfits
  obtain ⟨hdr, hparse, hhdr⟩ := parseIpv4_buildIpv4 pktId proto src dst [] hfits (by omega)
  have hlen : (buildIpv4 pktId proto src dst payload 128).1.length = 20 + payload.length := by
    rw [hbuilt, List.length_append, length_ipv4Header]
  rw [List.append_nil] at hparse
  refine ⟨_, hdr, parseEth_buildEth dstMac srcMac ethIpv4 (by omega), ?_, hparse, hhdr⟩
  rw [hbuilt, hcsum, List.take_left' (length_ipv4Header ..)]
  exact onesSum_ipv4Header ..

/-! ### Packets that verify and parse back -/

/-- A packet of at most 65535 bytes verifies, and is parsed back behind any padding; a datagram in it too. -/
theorem built_packets_verify :
    (∀ pktId proto src dst payload cap, 20 + payload.length ≤ cap → 20 + payload.length < 2 ^ 16 →
      onesSum ((buildIpv4 pktId proto src dst payload cap).1.take 20) = 0xFFFF ∧
      ∀ pad, ∃ hdr, parseIpv4 ((buildIpv4 pktId proto src dst payload cap).1 ++ pad) = some (hdr, payload) ∧
        hdr.proto = proto ∧ hdr.src = src ∧ hdr.dst = dst) ∧
    (∀ icmpType id seq payload cap, 8 + payload.length ≤ cap → 8 + payload.length < 2 ^ 16 →
      onesSum (buildIcmpEcho icmpType id seq payload cap) = 0xFFFF) ∧
    (∀ src dst seg, 20 ≤ seg.length → seg.length ≤ 552 →
      onesSum (pseudoHeader src dst seg.length ++ fillTcpChecksum src dst seg) = 0xFFFF) ∧
    (∀ srcPort dstPort payload cap, 8 + payload.length ≤ cap → 8 + payload.length < 2 ^ 16 →
      parseUdp (buildUdp srcPort dstPort payload cap) = some (srcPort, dstPort, payload)) := by
  refine ⟨fun pktId proto src dst payload cap hcap hlen => ⟨?_, fun pad => ?_⟩,
    fun icmpType id seq payload cap hcap _ => onesSum_buildIcmpEcho icmpType id seq hcap,
    fun src dst seg hhdr hlen => onesSum_fillTcpChecksum src dst hhdr hlen,
    fun srcPort dstPort payload cap hcap hlen => parseUdp_buildUdp srcPort dstPort hcap hlen⟩
  · obtain ⟨csum, id, hbuilt, hcsum⟩ := buildIpv4_of_le pktId proto src dst hcap
    rw [hbuilt, hcsum, List.take_left' (length_ipv4Header ..)]
    exact onesSum_ipv4Header ..
  · exact parseIpv4_buildIpv4 pktId proto src dst pad hcap hlen

/-- A packet with three bytes, a ping with five, a segment with one byte behind its header, and an empty datagram. -/
theorem built_packets_verify_odd :
    (∃ hdr, parseIpv4 ((buildIpv4 7 ipProtoUdp #v[10, 0, 2, 15] #v[10, 0, 2, 2] [1, 2, 3] 128).1 ++ [0, 0]) =
      some (hdr, [1, 2, 3]) ∧ hdr.proto = ipProtoUdp ∧ hdr.src = #v[10, 0, 2, 15] ∧ hdr.dst = #v[10, 0, 2, 2]) ∧
    onesSum (buildIcmpEcho icmpEchoReply 1 2 [9, 9, 9, 9, 9] 64) = 0xFFFF ∧
    onesSum (pseudoHeader #v[10, 0, 2, 15] #v[10, 0, 2, 2] 21 ++
      fillTcpChecksum #v[10, 0, 2, 15] #v[10, 0, 2, 2] (List.replicate 21 5)) = 0xFFFF ∧
    parseUdp (buildUdp 53 4000 [] 64) = some (53, 4000, []) := by
  obtain ⟨hip, hicmp, htcp, hudp⟩ := built_packets_verify
  exact ⟨(hip 7 ipProtoUdp #v[10, 0, 2, 15] #v[10, 0, 2, 2] [1, 2, 3] 128 (by decide) (by decide)).2 [0, 0],
    hicmp icmpEchoReply 1 2 [9, 9, 9, 9, 9] 64 (by decide) (by decide),
    htcp #v[10, 0, 2, 15] #v[10, 0, 2, 2] (List.replicate 21 5) (by decide) (by decide),
    hudp 53 4000 [] 64 (by decide) (by decide)⟩

/-- A packet of 65536 bytes says that it has none. -/
private theorem parseIpv4_wrapped (pktId : BitVec 16) (proto : Byte) (src dst : Ip) {payload : Bytes} {cap : Nat}
    (hcap : 20 + payload.length ≤ cap) (hlen : 20 + payload.length = 2 ^ 16) :
    parseIpv4 ((buildIpv4 pktId proto src dst payload cap).1 ++ []) = none := by
  obtain ⟨csum, id, hbuilt, -⟩ := buildIpv4_of_le pktId proto src dst hcap
  rw [hbuilt, List.append_nil]
  generalize hbuf : ipv4Header (BitVec.ofNat 16 (20 + payload.length)) id proto csum src dst ++ payload = buf
  have hlength : buf.length = 20 + payload.length := by
    rw [← hbuf, List.length_append, length_ipv4Header]
  have hfirst : buf.getD 0 0 = 0x45 := by
    rw [← hbuf]
    rfl
  have htot : be16At buf 2 = BitVec.ofNat 16 (20 + payload.length) :=
    be16At_eq [0x45, 0x00] (toBe16 id ++ [0x40, 0x00, 64, proto] ++ toBe16 csum ++ src.toList ++ dst.toList ++ payload)
      (by simp [← hbuf, ipv4Header]) rfl
  unfold parseIpv4
  rw [if_neg (by omega), hfirst, htot, hlen]
  rw [if_neg (by decide), if_neg (by rw [hlength]; show ¬ 20 + payload.length < 20; omega), if_pos]
  show min 0 buf.length < 20
  omega

/-- The greatest payload that a buffer of 65536 bytes has room for is lost. -/
theorem built_packet_not_parsed : ¬ ∀ pktId proto src dst payload cap, 20 + payload.length ≤ cap →
    ∃ hdr, parseIpv4 ((buildIpv4 pktId proto src dst payload cap).1 ++ []) = some (hdr, payload) ∧
      hdr.proto = proto ∧ hdr.src = src ∧ hdr.dst = dst := by
  intro h
  obtain ⟨hdr, hparse, -⟩ := h 0 ipProtoUdp (Vector.replicate 4 0) (Vector.replicate 4 0) (List.replicate 65516 0) 65536
    (by rw [List.length_replicate])
  rw [parseIpv4_wrapped _ _ _ _ (by rw [List.length_replicate]) (by rw [List.length_replicate]; decide)] at hparse
  cases hparse

end Rost.Net
