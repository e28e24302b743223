import Rost.Basic
import Mathlib.Data.List.Basic

/-!
# Frames and packets

The Ethernet, IPv4 and ICMP layers of the network server.  Buffers are lists of bytes.  A builder takes the size of the
buffer that it writes to, and returns the part that it has written: the empty list, where the source returns 0.
-/

namespace Rost.Net

abbrev Bytes := List Byte

abbrev Mac := Vector Byte 6

abbrev Ip := Vector Byte 4

/-! ### Byte orders -/

/-- `u16::from_be_bytes` of the two bytes from `i` on. -/
def be16At (buf : Bytes) (i : Nat) : BitVec 16 := buf.getD i 0 ++ buf.getD (i + 1) 0

/-- `u32::from_be_bytes` of the four bytes from `i` on. -/
def be32At (buf : Bytes) (i : Nat) : BitVec 32 := be16At buf i ++ be16At buf (i + 2)

/-- `u16::to_be_bytes` -/
def toBe16 (v : BitVec 16) : Bytes := [v.extractLsb' 8 8, v.extractLsb' 0 8]

/-- `u32::to_be_bytes` -/
def toBe32 (v : BitVec 32) : Bytes := toBe16 (v.extractLsb' 16 16) ++ toBe16 (v.extractLsb' 0 16)

/-- `u32::to_le_bytes`, which gives the bytes of an address. -/
def toLeBytes (v : BitVec 32) : Ip := #v[v.extractLsb' 0 8, v.extractLsb' 8 8, v.extractLsb' 16 8, v.extractLsb' 24 8]

/-- `u32::from_le_bytes` -/
def fromLeBytes (ip : Ip) : BitVec 32 := (ip[3] ++ ip[2]) ++ (ip[1] ++ ip[0])

/-- `copy_from_slice` of the `n` bytes from `i` on. -/
def sliceAt (n : Nat) (buf : Bytes) (i : Nat) : Vector Byte n := Vector.ofFn fun k => buf.getD (i + k) 0

@[simp] theorem length_toBe16 (v : BitVec 16) : (toBe16 v).length = 2 := rfl

@[simp] theorem length_toBe32 (v : BitVec 32) : (toBe32 v).length = 4 := rfl

/-! ### Ethernet -/

def ethArp : BitVec 16 := 0x0806

def ethIpv4 : BitVec 16 := 0x0800

/-- `EthFrame` -/
structure EthFrame where
  dst : Mac
  src : Mac
  ethertype : BitVec 16
  payload : Bytes

def parseEth (buf : Bytes) : Option EthFrame :=
  if buf.length < 14 then none else some ⟨sliceAt 6 buf 0, sliceAt 6 buf 6, be16At buf 12, buf.drop 14⟩

def buildEth (dst src : Mac) (etype : BitVec 16) (payload : Bytes) (cap : Nat) : Bytes :=
  if cap < 14 + payload.length then [] else dst.toList ++ src.toList ++ toBe16 etype ++ payload

def macBroadcast : Mac := Vector.replicate 6 0xFF

/-! ### Checksum -/

/-- The sum of the big-endian words; an odd byte is padded with zero. -/
def wordSum : Bytes → Nat
  | a :: b :: rest => (a ++ b : BitVec 16).toNat + wordSum rest
  | [a] => a.toNat * 256
  | [] => 0

/-- The fold of the sum into 16 bits; it gets smaller in each pass. -/
def foldSum : Nat → Nat → Nat
  | 0, sum => sum
  | fuel + 1, sum => if sum / 65536 = 0 then sum else foldSum fuel (sum % 65536 + sum / 65536)

/-- The `u32` of the source holds the sum of any buffer of the server, whose frames have at most 1536 bytes. -/
def ipChecksum (data : Bytes) : BitVec 16 := ~~~ BitVec.ofNat 16 (foldSum (wordSum data) (wordSum data))

/-! ### IPv4 -/

def ipProtoIcmp : Byte := 1

def ipProtoTcp : Byte := 6

def ipProtoUdp : Byte := 17

/-- `Ipv4Hdr` -/
structure Ipv4Hdr where
  ihl : Byte
  tos : Byte
  totLen : BitVec 16
  id : BitVec 16
  fragOff : BitVec 16
  ttl : Byte
  proto : Byte
  checksum : BitVec 16
  src : Ip
  dst : Ip

/-- The header and what is behind it, up to the total length. -/
def parseIpv4 (buf : Bytes) : Option (Ipv4Hdr × Bytes) :=
  if buf.length < 20 then none
  else
    let version := buf.getD 0 0 >>> 4
    let ihl := buf.getD 0 0 &&& 0x0F
    if version ≠ 4 then none
    else
      let headerLen := ihl.toNat * 4
      if buf.length < headerLen then none
      else
        let totLen := be16At buf 2
        let pktEnd := min totLen.toNat buf.length
        if pktEnd < headerLen then none
        else some (
          { ihl := ihl
            tos := buf.getD 1 0
            totLen := totLen
            id := be16At buf 4
            fragOff := be16At buf 6
            ttl := buf.getD 8 0
            proto := buf.getD 9 0
            checksum := be16At buf 10
            src := sliceAt 4 buf 12
            dst := sliceAt 4 buf 16 },
          (buf.take pktEnd).drop headerLen)

/-- The header that `buildIpv4` writes. -/
def ipv4Header (totLen id : BitVec 16) (proto : Byte) (csum : BitVec 16) (src dst : Ip) : Bytes :=
  [0x45, 0x00] ++ toBe16 totLen ++ toBe16 id ++ [0x40, 0x00, 64, proto] ++ toBe16 csum ++ src.toList ++ dst.toList

/-- The packet, and the counter `PKT_ID` after it. -/
def buildIpv4 (pktId : BitVec 16) (proto : Byte) (src dst : Ip) (payload : Bytes) (cap : Nat) : Bytes × BitVec 16 :=
  if cap < 20 + payload.length then ([], pktId)
  else
    let totLen := BitVec.ofNat 16 (20 + payload.length)
    let id := pktId + 1
    let csum := ipChecksum (ipv4Header totLen id proto 0 src dst)
    (ipv4Header totLen id proto csum src dst ++ payload, id)

/-! ### ICMP -/

def icmpEchoRequest : Byte := 8

def icmpEchoReply : Byte := 0

def icmpHeader (icmpType : Byte) (csum id seq : BitVec 16) : Bytes :=
  [icmpType, 0] ++ toBe16 csum ++ toBe16 id ++ toBe16 seq

def buildIcmpEcho (icmpType : Byte) (id seq : BitVec 16) (payload : Bytes) (cap : Nat) : Bytes :=
  if cap < 8 + payload.length then []
  else icmpHeader icmpType (ipChecksum (icmpHeader icmpType 0 id seq ++ payload)) id seq ++ payload

def buildIcmpEchoRequest : BitVec 16 → BitVec 16 → Bytes → Nat → Bytes := buildIcmpEcho icmpEchoRequest

def buildIcmpEchoReply : BitVec 16 → BitVec 16 → Bytes → Nat → Bytes := buildIcmpEcho icmpEchoReply

/-! ### What is built is parsed back -/

private theorem getD_append_add (l r : Bytes) (k : Nat) : (l ++ r).getD (l.length + k) 0 = r.getD k 0 := by
  rw [List.getD_eq_getElem?_getD, List.getElem?_append_right (by omega), Nat.add_sub_cancel_left,
    List.getD_eq_getElem?_getD]

/-- A field behind `l`. -/
theorem sliceAt_eq {n i : Nat} {buf : Bytes} (l r : Bytes) {v : Vector Byte n} (hbuf : buf = l ++ (v.toList ++ r))
    (hi : l.length = i) : sliceAt n buf i = v := by
  subst hbuf hi
  refine Vector.ext fun k hk => ?_
  unfold sliceAt
  rw [Vector.getElem_ofFn, getD_append_add, List.getD_eq_getElem?_getD, List.getElem?_append_left (by simpa using hk)]
  simp [hk]

theorem be16At_eq {i : Nat} {buf : Bytes} (l r : Bytes) {v : BitVec 16} (hbuf : buf = l ++ (toBe16 v ++ r))
    (hi : l.length = i) : be16At buf i = v := by
  subst hbuf hi
  have hfirst := getD_append_add l (toBe16 v ++ r) 0
  have hsecond := getD_append_add l (toBe16 v ++ r) 1
  simp only [Nat.add_zero] at hfirst
  unfold be16At
  rw [hfirst, hsecond]
  apply BitVec.eq_of_getLsbD_eq
  intro i hi
  simp only [toBe16, List.cons_append, List.getD_cons_zero, List.getD_cons_succ, BitVec.getLsbD_append,
    BitVec.getLsbD_extractLsb']
  by_cases hlow : i < 8
  · simp [hlow]
  · simp [hlow, show i - 8 < 8 by omega, show 8 + (i - 8) = i by omega]

theorem parseEth_buildEth (dst src : Mac) (etype : BitVec 16) {payload : Bytes} {cap : Nat} (hcap : 14 + payload.length ≤ cap) :
    parseEth (buildEth dst src etype payload cap) = some ⟨dst, src, etype, payload⟩ := by
  unfold buildEth
  rw [if_neg (by omega)]
  generalize hbuf : dst.toList ++ src.toList ++ toBe16 etype ++ payload = buf
  have hdst : sliceAt 6 buf 0 = dst := sliceAt_eq [] (src.toList ++ toBe16 etype ++ payload) (by simp [← hbuf]) rfl
  have hsrc : sliceAt 6 buf 6 = src := sliceAt_eq dst.toList (toBe16 etype ++ payload) (by simp [← hbuf]) (by simp)
  have hetype : be16At buf 12 = etype := be16At_eq (dst.toList ++ src.toList) payload (by simp [← hbuf]) (by simp)
  have hpayload : buf.drop 14 = payload := by
    rw [← hbuf, List.drop_left' (by simp)]
  unfold parseEth
  rw [if_neg (by simp [← hbuf]; omega), hdst, hsrc, hetype, hpayload]

@[simp] theorem length_ipv4Header (totLen id : BitVec 16) (proto : Byte) (csum : BitVec 16) (src dst : Ip) :
    (ipv4Header totLen id proto csum src dst).length = 20 := by
  simp [ipv4Header]

/-- A packet with padding behind it. -/
theorem parseIpv4_buildIpv4 (pktId : BitVec 16) (proto : Byte) (src dst : Ip) {payload : Bytes} {cap : Nat} (pad : Bytes)
    (hcap : 20 + payload.length ≤ cap) (hlen : 20 + payload.length < 2 ^ 16) :
    ∃ hdr, parseIpv4 ((buildIpv4 pktId proto src dst payload cap).1 ++ pad) = some (hdr, payload) ∧
      hdr.proto = proto ∧ hdr.src = src ∧ hdr.dst = dst := by
  unfold buildIpv4
  rw [if_neg (by omega)]
  dsimp only
  generalize ipChecksum (ipv4Header (BitVec.ofNat 16 (20 + payload.length)) (pktId + 1) proto 0 src dst) = csum
  generalize hbuf : ipv4Header (BitVec.ofNat 16 (20 + payload.length)) (pktId + 1) proto csum src dst ++ payload ++ pad = buf
  have hlength : buf.length = 20 + payload.length + pad.length := by
    rw [← hbuf, List.length_append, List.length_append, length_ipv4Header]
  have hfirst : buf.getD 0 0 = 0x45 := by
    rw [← hbuf]
    rfl
  have hproto : buf.getD 9 0 = proto := by
    rw [← hbuf]
    rfl
  have htot : be16At buf 2 = BitVec.ofNat 16 (20 + payload.length) :=
    be16At_eq [0x45, 0x00] (toBe16 (pktId + 1) ++ [0x40, 0x00, 64, proto] ++ toBe16 csum ++ src.toList ++ dst.toList ++
      payload ++ pad) (by simp [← hbuf, ipv4Header]) rfl
  have hsrc : sliceAt 4 buf 12 = src :=
    sliceAt_eq ([0x45, 0x00] ++ toBe16 (BitVec.ofNat 16 (20 + payload.length)) ++ toBe16 (pktId + 1) ++
      [0x40, 0x00, 64, proto] ++ toBe16 csum) (dst.toList ++ payload ++ pad) (by simp [← hbuf, ipv4Header]) (by simp)
  have hdst : sliceAt 4 buf 16 = dst :=
    sliceAt_eq ([0x45, 0x00] ++ toBe16 (BitVec.ofNat 16 (20 + payload.length)) ++ toBe16 (pktId + 1) ++
      [0x40, 0x00, 64, proto] ++ toBe16 csum ++ src.toList) (payload ++ pad) (by simp [← hbuf, ipv4Header]) (by simp)
  have hpayload : (buf.take (20 + payload.length)).drop 20 = payload := by
    rw [← hbuf, List.take_left' (by simp), List.drop_left' (by simp)]
  unfold parseIpv4
  rw [if_neg (by omega)]
  dsimp only
  rw [hfirst, hproto, hsrc, hdst, htot, BitVec.toNat_ofNat, Nat.mod_eq_of_lt hlen, Nat.min_eq_left (by omega), if_neg (by decide),
    show ((0x45 &&& 0x0F : Byte)).toNat * 4 = 20 from rfl, if_neg (by omega), if_neg (by omega), hpayload]
  exact ⟨_, rfl, rfl, rfl, rfl⟩

end Rost.Net
