import Rost.Net.Checksums
import Rost.Net.Server

/-!
# Answers to pings

An echo request whose message has at most 64 bytes is answered with a reply that carries its data.  The message of a longer
one does not fit its buffer, and the packet that is sent for it has no payload (`echo_replies_iff`).
-/

namespace Rost.Net

/-- The frame is an echo reply to the request, with its identifier, its sequence number and all of its data. -/
def IsEchoReply (srcIp : Ip) (request frame : Bytes) : Prop :=
  ∃ dst src packet hdr icmp, parseEth frame = some ⟨dst, src, ethIpv4, packet⟩ ∧
    parseIpv4 packet = some (hdr, icmp) ∧ onesSum (packet.take 20) = 0xFFFF ∧
    hdr.proto = ipProtoIcmp ∧ hdr.src = ourIp ∧ hdr.dst = srcIp ∧
    8 ≤ icmp.length ∧ onesSum icmp = 0xFFFF ∧ icmp.take 2 = [icmpEchoReply, 0] ∧
    be16At icmp 4 = be16At request 4 ∧ be16At icmp 6 = be16At request 6 ∧ icmp.drop 8 = request.drop 8

/-- The frames that are sent are echo replies, and none is sent for a request that does not fit. -/
def RepliesTo (srcIp : Ip) (request : Bytes) (sent : List Output) : Prop :=
  ∀ frame, .frame frame ∈ sent → IsEchoReply srcIp request frame ∧ request.length ≤ 64

/-! ### Messages -/

theorem length_buildIcmpEcho (icmpType : Byte) (id seq : BitVec 16) {payload : Bytes} {cap : Nat}
    (hcap : 8 + payload.length ≤ cap) : (buildIcmpEcho icmpType id seq payload cap).length = 8 + payload.length := by
  unfold buildIcmpEcho
  rw [if_neg (by omega)]
  simp only [icmpHeader, List.length_append, length_toBe16, List.length_cons, List.length_nil]

/-- The fields of a message that is built. -/
theorem fields_buildIcmpEcho (icmpType : Byte) (id seq : BitVec 16) {payload : Bytes} {cap : Nat}
    (hcap : 8 + payload.length ≤ cap) :
    (buildIcmpEcho icmpType id seq payload cap).take 2 = [icmpType, 0] ∧
    be16At (buildIcmpEcho icmpType id seq payload cap) 4 = id ∧
    be16At (buildIcmpEcho icmpType id seq payload cap) 6 = seq ∧
    (buildIcmpEcho icmpType id seq payload cap).drop 8 = payload := by
  unfold buildIcmpEcho
  rw [if_neg (by omega)]
  generalize ipChecksum (icmpHeader icmpType 0 id seq ++ payload) = csum
  unfold icmpHeader
  refine ⟨rfl, ?_, ?_, rfl⟩
  · exact be16At_eq ([icmpType, 0] ++ toBe16 csum) (toBe16 seq ++ payload) (by simp) rfl
  · exact be16At_eq ([icmpType, 0] ++ toBe16 csum ++ toBe16 id) payload (by simp) rfl

/-! ### Frames -/

section Frames

variable (w : World) (srcIp : Ip) (dstMac : Mac) {request : Bytes}

/-- The frame that is sent for a request. -/
private def replyFrame (w : World) (srcIp : Ip) (dstMac : Mac) (request : Bytes) : Bytes :=
  (w.ipFrame ipProtoIcmp srcIp dstMac
    (buildIcmpEchoReply (be16At request 4) (be16At request 6) (request.drop 8) 64)).2

private theorem replyFrame_isEchoReply (hge : 8 ≤ request.length) (hle : request.length ≤ 64) :
    IsEchoReply srcIp request (replyFrame w srcIp dstMac request) := by
  have hcap : 8 + (request.drop 8).length ≤ 64 := by
    rw [List.length_drop]
    omega
  have hlen := length_buildIcmpEcho icmpEchoReply (be16At request 4) (be16At request 6) hcap
  obtain ⟨htype, hid, hseq, hdata⟩ := fields_buildIcmpEcho icmpEchoReply (be16At request 4) (be16At request 6) hcap
  have hsum := onesSum_buildIcmpEcho icmpEchoReply (be16At request 4) (be16At request 6) hcap
  obtain ⟨packet, hdr, heth, hhdrsum, hip, hproto, hsrc, hdst⟩ := ipv4_frame w.server.pktId ipProtoIcmp ourIp srcIp dstMac
    w.server.mac (buildIcmpEcho icmpEchoReply (be16At request 4) (be16At request 6) (request.drop 8) 64) (by omega)
  exact ⟨dstMac, w.server.mac, packet, hdr, _, heth, hip, hhdrsum, hproto, hsrc, hdst, by omega, hsum, htype, hid, hseq, hdata⟩

/-- The message of a request that is too long is left out. -/
private theorem parse_replyFrame_long (hlong : 64 < request.length) : ∃ packet hdr,
    parseEth (replyFrame w srcIp dstMac request) = some ⟨dstMac, w.server.mac, ethIpv4, packet⟩ ∧
    parseIpv4 packet = some (hdr, []) := by
  have hnil : buildIcmpEchoReply (be16At request 4) (be16At request 6) (request.drop 8) 64 = [] := by
    refine if_pos ?_
    rw [List.length_drop]
    omega
  obtain ⟨packet, hdr, heth, -, hip, -⟩ := ipv4_frame w.server.pktId ipProtoIcmp ourIp srcIp dstMac w.server.mac []
    (by decide)
  refine ⟨packet, hdr, ?_, hip⟩
  unfold replyFrame
  rw [hnil]
  exact heth

private theorem replyFrame_long_not_reply (hlong : 64 < request.length) :
    ¬ IsEchoReply srcIp request (replyFrame w srcIp dstMac request) := by
  rintro ⟨dst, src, packet, hdr, icmp, heth, hip, -, -, -, -, hlen, -⟩
  obtain ⟨packet', hdr', heth', hip'⟩ := parse_replyFrame_long w srcIp dstMac hlong
  rw [heth'] at heth
  cases heth
  rw [hip'] at hip
  cases hip
  exact absurd hlen (by decide)

private theorem replyFrame_ne_nil (hge : 8 ≤ request.length) : replyFrame w srcIp dstMac request ≠ [] := by
  intro hnil
  have hnone : parseEth (replyFrame w srcIp dstMac request) = none := by
    rw [hnil]
    rfl
  by_cases hle : request.length ≤ 64
  · obtain ⟨dst, src, packet, hdr, icmp, heth, -⟩ := replyFrame_isEchoReply w srcIp dstMac hge hle
    rw [hnone] at heth
    cases heth
  · obtain ⟨packet, hdr, heth, -⟩ := parse_replyFrame_long w srcIp dstMac (Nat.not_le.1 hle)
    rw [hnone] at heth
    cases heth

end Frames

/-! ### What is sent -/

/-- The frames that an ICMP message makes the server send: the reply to a request whose sender's address is known. -/
private theorem frame_mem_handleIcmpPacket (e : Env) (w : World) (srcIp : Ip) (payload : Bytes) (frame : Bytes) :
    .frame frame ∈ (w.handleIcmpPacket e srcIp payload).out.drop w.out.length ↔
      payload.getD 0 0 = icmpEchoRequest ∧ 8 ≤ payload.length ∧
      ∃ dstMac, lookupMac w.server.arpTable srcIp = some dstMac ∧ frame = replyFrame w srcIp dstMac payload := by
  have hnone : w.out.drop w.out.length = [] := List.drop_eq_nil_of_le (Nat.le_refl _)
  unfold World.handleIcmpPacket
  by_cases hempty : payload = []
  · rw [if_pos hempty, hnone, hempty]
    exact iff_of_false List.not_mem_nil fun h => absurd h.2.1 (by decide)
  rw [if_neg hempty]
  by_cases hrequest : payload.getD 0 0 = icmpEchoRequest
  · rw [if_pos hrequest]
    by_cases hshort : payload.length < 8
    · rw [if_pos hshort, hnone]
      exact iff_of_false List.not_mem_nil fun h => absurd h.2.1 (Nat.not_le.2 hshort)
    rw [if_neg hshort]
    cases hmac : lookupMac w.server.arpTable srcIp with
    | none =>
      dsimp only
      rw [hnone]
      refine iff_of_false List.not_mem_nil ?_
      rintro ⟨-, -, dstMac, h, -⟩
      cases h
    | some dstMac =>
      have hframe : replyFrame w srcIp dstMac payload ≠ [] := replyFrame_ne_nil w srcIp dstMac (Nat.not_lt.1 hshort)
      have hout : ((w.ipFrame ipProtoIcmp srcIp dstMac (buildIcmpEchoReply (be16At payload 4) (be16At payload 6)
          (payload.drop 8) 64)).1.sendFrame e (replyFrame w srcIp dstMac payload)).1.out =
          w.out ++ [.frame (replyFrame w srcIp dstMac payload)] := by
        unfold World.sendFrame
        rw [if_neg hframe]
        rfl
      dsimp only
      unfold replyFrame at hout ⊢
      rw [hout, List.drop_left' rfl, List.mem_singleton]
      constructor
      · intro heq
        exact ⟨hrequest, Nat.not_lt.1 hshort, dstMac, rfl, Output.frame.inj heq⟩
      · rintro ⟨-, -, mac, hmac, rfl⟩
        cases hmac
        rfl
  · rw [if_neg hrequest]
    refine iff_of_false (fun hmem => ?_) fun h => hrequest h.1
    -- a reply to a ping of ours is told to its client
    by_cases hreply : payload.getD 0 0 = icmpEchoReply
    · rw [if_pos hreply] at hmem
      dsimp only at hmem
      by_cases hwait : w.server.ping.state ≠ .waitIcmp
      · rw [if_pos hwait, hnone] at hmem
        exact List.not_mem_nil hmem
      rw [if_neg hwait] at hmem
      generalize (if 6 ≤ payload.length then be16At payload 4 else 0) = id at hmem
      generalize (if 8 ≤ payload.length then be16At payload 6 else 0) = seq at hmem
      by_cases hping : id = w.server.ping.icmpId ∧ seq = w.server.ping.icmpSeq
      · rw [if_pos hping] at hmem
        change Output.frame frame ∈ (w.out ++ [Output.reply _ _]).drop w.out.length at hmem
        rw [List.drop_left' rfl, List.mem_singleton] at hmem
        cases hmem
      · rw [if_neg hping, hnone] at hmem
        exact List.not_mem_nil hmem
    · rw [if_neg hreply, hnone] at hmem
      exact List.not_mem_nil hmem

/-! ### Replies to requests that fit -/

/-- What is sent for an ICMP message are proper replies, exactly if the message is not a request of more than 64 bytes
whose sender's address is known. -/
theorem echo_replies_iff (e : Env) (w : World) (srcIp : Ip) (payload : Bytes) :
    RepliesTo srcIp payload ((w.handleIcmpPacket e srcIp payload).out.drop w.out.length) ↔
      ¬ (payload.getD 0 0 = icmpEchoRequest ∧ 64 < payload.length ∧ (lookupMac w.server.arpTable srcIp).isSome) := by
  constructor
  · rintro hreplies ⟨hrequest, hlong, hmac⟩
    obtain ⟨dstMac, hmac⟩ := Option.isSome_iff_exists.1 hmac
    have hmem := (frame_mem_handleIcmpPacket e w srcIp payload (replyFrame w srcIp dstMac payload)).2
      ⟨hrequest, by omega, dstMac, hmac, rfl⟩
    exact absurd (hreplies _ hmem).2 (Nat.not_le.2 hlong)
  · intro hfits frame hmem
    obtain ⟨hrequest, hge, dstMac, hmac, rfl⟩ := (frame_mem_handleIcmpPacket e w srcIp payload frame).1 hmem
    have hle : payload.length ≤ 64 := by
      by_contra hlong
      exact hfits ⟨hrequest, Nat.not_le.1 hlong, by rw [hmac]; rfl⟩
    exact ⟨replyFrame_isEchoReply w srcIp dstMac hge hle, hle⟩

/-- A ping with 57 bytes of data is answered with a packet that holds no message. -/
theorem long_ping_not_replied : ¬ ∀ e w srcIp payload frame,
    .frame frame ∈ (World.handleIcmpPacket e w srcIp payload).out.drop w.out.length → IsEchoReply srcIp payload frame := by
  intro h
  have hmac : lookupMac (storeArp .new #v[10, 0, 2, 2] (Vector.replicate 6 1)) #v[10, 0, 2, 2] =
      some (Vector.replicate 6 1) := by decide
  generalize hserver : ({ Server.boot (Vector.replicate 6 0) with
    arpTable := storeArp .new #v[10, 0, 2, 2] (Vector.replicate 6 1) } : Server) = server
  have htable : lookupMac server.enter.server.arpTable #v[10, 0, 2, 2] = some (Vector.replicate 6 1) := by
    rw [← hserver]
    exact hmac
  have hlong : 64 < (icmpEchoRequest :: List.replicate 64 0 : Bytes).length := by decide
  have hmem := (frame_mem_handleIcmpPacket ⟨0, 0, fun _ => true⟩ server.enter #v[10, 0, 2, 2]
    (icmpEchoRequest :: List.replicate 64 0) _).2 ⟨rfl, by decide, _, htable, rfl⟩
  exact replyFrame_long_not_reply server.enter #v[10, 0, 2, 2] (Vector.replicate 6 1) hlong (h _ _ _ _ _ hmem)

end Rost.Net
