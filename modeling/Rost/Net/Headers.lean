import Rost.Net.Sequence

/-!
# Header lengths

Two header lengths come from the peer, in units of four bytes, and neither is compared with the 20 bytes of the smallest
header: a packet may say that its header has up to 16 bytes, and the header of a segment may end inside of itself or behind
the segment (`header_bytes_iff`).
-/

namespace Rost.Net

open Segment

/-- The IPv4 header that the packet speaks of is shorter than 20 bytes, and everything else about it is in order. -/
def ShortHeader (buf : Bytes) : Prop :=
  20 ≤ buf.length ∧ buf.getD 0 0 >>> 4 = 4 ∧ (buf.getD 0 0 &&& 0x0F).toNat < 5 ∧
    (buf.getD 0 0 &&& 0x0F).toNat * 4 ≤ (be16At buf 2).toNat

/-- The data of the segment begin inside of the header, or behind the segment. -/
def Malformed (buf : Bytes) : Prop := dataOff buf < 20 ∨ buf.length < dataOff buf

/-- The connection has no use for the segment: what its flags say is not for the state it is in, and there are no data. -/
def TcpConn.Ignores (conn : TcpConn) (buf : Bytes) : Prop :=
  match conn.state with
  | .synSent => isSynAck buf = false ∧ has buf tcpRst = false
  | .established => has buf tcpRst = false ∧ has buf tcpFin = false ∧ buf.length ≤ dataOff buf
  | .finWait1 => has buf tcpFin = false
  | .closeWait | .closed => True

/-! ### Packets -/

theorem parseIpv4_header {buf p : Bytes} {hdr : Ipv4Hdr} (h : parseIpv4 buf = some (hdr, p)) :
    20 ≤ buf.length ∧ buf.getD 0 0 >>> 4 = 4 ∧ hdr.ihl = buf.getD 0 0 &&& 0x0F ∧ hdr.totLen = be16At buf 2 ∧
    hdr.ihl.toNat * 4 ≤ hdr.totLen.toNat := by
  unfold parseIpv4 at h
  by_cases hshort : buf.length < 20
  · rw [if_pos hshort] at h
    cases h
  rw [if_neg hshort] at h
  dsimp only at h
  by_cases hversion : buf.getD 0 0 >>> 4 ≠ 4
  · rw [if_pos hversion] at h
    cases h
  rw [if_neg hversion] at h
  by_cases hheader : buf.length < (buf.getD 0 0 &&& 0x0F).toNat * 4
  · rw [if_pos hheader] at h
    cases h
  rw [if_neg hheader] at h
  by_cases hend : min (be16At buf 2).toNat buf.length < (buf.getD 0 0 &&& 0x0F).toNat * 4
  · rw [if_pos hend] at h
    cases h
  rw [if_neg hend] at h
  cases h
  exact ⟨Nat.not_lt.1 hshort, not_not.1 hversion, rfl, rfl, (Nat.not_lt.1 hend).trans (Nat.min_le_left _ _)⟩

/-- A header that is too short is accepted. -/
theorem parseIpv4_of_short {buf : Bytes} (h : ShortHeader buf) :
    ∃ hdr p, parseIpv4 buf = some (hdr, p) ∧ hdr.ihl = buf.getD 0 0 &&& 0x0F := by
  obtain ⟨hlen, hversion, hihl, htot⟩ := h
  unfold parseIpv4
  rw [if_neg (by omega)]
  dsimp only
  rw [if_neg (not_not.2 hversion), if_neg (by omega), if_neg (by rw [Nat.not_lt, Nat.le_min]; omega)]
  exact ⟨_, _, rfl, rfl⟩

theorem parseIpv4_header_iff (buf : Bytes) :
    (∀ hdr p, parseIpv4 buf = some (hdr, p) → 20 ≤ hdr.ihl.toNat * 4 ∧ hdr.ihl.toNat * 4 ≤ hdr.totLen.toNat) ↔
      ¬ ShortHeader buf := by
  constructor
  · intro hall hshort
    obtain ⟨hdr, p, hparse, hihl⟩ := parseIpv4_of_short hshort
    have hge := (hall hdr p hparse).1
    rw [hihl] at hge
    have hlt := hshort.2.2.1
    omega
  · intro hshort hdr p hparse
    obtain ⟨hlen, hversion, hihl, htot, hle⟩ := parseIpv4_header hparse
    refine ⟨?_, hle⟩
    by_contra hlt
    rw [hihl, htot] at hle
    rw [hihl] at hlt
    exact hshort ⟨hlen, hversion, by omega, hle⟩

/-! ### Segments -/

/-- There are no data exactly if they would begin at the end of the segment, or behind it. -/
theorem payload_eq_nil_iff (buf : Bytes) : payload buf = [] ↔ buf.length ≤ dataOff buf := by
  unfold payload
  by_cases hoff : dataOff buf ≤ buf.length
  · rw [if_pos hoff, List.drop_eq_nil_iff]
  · rw [if_neg hoff]
    exact iff_of_true rfl (Nat.le_of_not_le hoff)

/-- An accepted segment changes nothing exactly if the connection has no use for it. -/
theorem receive_eq_iff (conn : TcpConn) (buf : Bytes) : conn.receive buf = (conn, none) ↔ conn.Ignores buf := by
  have hevent : ∀ (c : TcpConn) (ev : TcpEvent), (c, some ev) ≠ (conn, none) := fun c ev heq => by
    cases (Prod.mk.inj heq).2
  unfold TcpConn.receive TcpConn.Ignores
  cases conn.state with
  | synSent =>
    dsimp only
    by_cases hsyn : isSynAck buf = true
    · rw [if_pos hsyn]
      exact iff_of_false (hevent _ _) fun h => by rw [hsyn] at h; cases h.1
    rw [if_neg hsyn]
    by_cases hrst : has buf tcpRst = true
    · rw [if_pos hrst]
      exact iff_of_false (hevent _ _) fun h => by rw [hrst] at h; cases h.2
    rw [if_neg hrst]
    exact iff_of_true rfl ⟨Bool.eq_false_of_not_eq_true hsyn, Bool.eq_false_of_not_eq_true hrst⟩
  | established =>
    dsimp only
    by_cases hrst : has buf tcpRst = true
    · rw [if_pos hrst]
      exact iff_of_false (hevent _ _) fun h => by rw [hrst] at h; cases h.1
    rw [if_neg hrst]
    by_cases hfin : has buf tcpFin = true
    · rw [if_pos hfin]
      exact iff_of_false (hevent _ _) fun h => by rw [hfin] at h; cases h.2.1
    rw [if_neg hfin]
    by_cases hpayload : payload buf ≠ []
    · rw [if_pos hpayload]
      exact iff_of_false (hevent _ _) fun h => hpayload ((payload_eq_nil_iff buf).2 h.2.2)
    rw [if_neg hpayload]
    exact iff_of_true rfl ⟨Bool.eq_false_of_not_eq_true hrst, Bool.eq_false_of_not_eq_true hfin,
      (payload_eq_nil_iff buf).1 (not_not.1 hpayload)⟩
  | finWait1 =>
    dsimp only
    by_cases hfin : has buf tcpFin = true
    · refine iff_of_false ?_ fun h => by rw [hfin] at h; cases h
      by_cases hack : has buf tcpAck = true ∧ has buf tcpFin = true
      · rw [if_pos hack]
        exact hevent _ _
      · rw [if_neg hack, if_pos hfin]
        exact hevent _ _
    rw [if_neg fun h => hfin h.2, if_neg hfin]
    exact iff_of_true rfl (Bool.eq_false_of_not_eq_true hfin)
  | closeWait => exact iff_of_true rfl trivial
  | closed => exact iff_of_true rfl trivial

theorem handleTcp_eq_iff (conn : TcpConn) (srcIp : Ip) (buf : Bytes) :
    handleTcp conn srcIp buf = (conn, none) ↔ (conn.accepts srcIp buf = true → conn.Ignores buf) := by
  by_cases haccepts : conn.accepts srcIp buf = true
  · rw [handleTcp_of_accepts haccepts, receive_eq_iff]
    exact ⟨fun h _ => h, fun h => h haccepts⟩
  · rw [handleTcp_of_not_accepts haccepts]
    exact iff_of_true rfl fun h => absurd h haccepts

/-! ### Headers that are checked -/

/-- No header byte is taken for payload, exactly if no packet has a header of less than 20 bytes, and no malformed segment
has flags or data that the connection waits for. -/
theorem header_bytes_iff (conn : TcpConn) (srcIp : Ip) (buf : Bytes) :
    ((∀ hdr p, parseIpv4 buf = some (hdr, p) → 20 ≤ hdr.ihl.toNat * 4 ∧ hdr.ihl.toNat * 4 ≤ hdr.totLen.toNat) ↔
      ¬ ShortHeader buf) ∧
    ((Malformed buf → handleTcp conn srcIp buf = (conn, none)) ↔
      (Malformed buf → conn.accepts srcIp buf = true → conn.Ignores buf)) :=
  ⟨parseIpv4_header_iff buf, imp_congr_right fun _ => handleTcp_eq_iff conn srcIp buf⟩

/-- A packet with a header of 0 bytes is accepted; and a segment that has its data from its first byte on is received with
its header. -/
theorem header_bytes_taken :
    (¬ ∀ buf hdr p, parseIpv4 buf = some (hdr, p) → 20 ≤ hdr.ihl.toNat * 4 ∧ hdr.ihl.toNat * 4 ≤ hdr.totLen.toNat) ∧
    ¬ ∀ conn srcIp buf, Malformed buf → (handleTcp conn srcIp buf).1 = conn := by
  constructor
  · intro h
    have hfirst := (h ([0x40, 0, 0, 20] ++ List.replicate 16 0) _ _ rfl).1
    exact absurd hfirst (by decide)
  · intro h
    have hkeep := h { TcpConn.zeroed with state := .established } (Vector.replicate 4 0) (List.replicate 20 0) (.inl (by decide))
    exact absurd (congrArg TcpConn.rxBuf hkeep) (by decide)

end Rost.Net
