import Rost.Net.Checksums
import Rost.Net.Sequence

/-!
# The two sides of the server

Connecting and pinging are done by two machines.  `ConnectSide` and `PingSide` are what each of them reads and changes,
with the SYNs and the answers that it sends; every handler leaves one of them alone, or both.
-/

namespace Rost.Net

open Segment

/-! ### SYN frames -/

/-- The address and the port that the frame is a SYN for. -/
def synTarget (frame : Bytes) : Option (Ip × BitVec 16) :=
  match parseEth frame with
  | none => none
  | some eth =>
    if eth.ethertype = ethIpv4 then
      match parseIpv4 eth.payload with
      | none => none
      | some (iph, seg) => if iph.proto = ipProtoTcp ∧ has seg tcpSyn = true then some (iph.dst, dstPort seg) else none
    else none

@[simp] theorem synTarget_nil : synTarget [] = none := rfl

/-- An ARP packet is no SYN. -/
theorem synTarget_arp (dst src : Mac) (payload : Bytes) (cap : Nat) : synTarget (buildEth dst src ethArp payload cap) = none := by
  by_cases hcap : 14 + payload.length ≤ cap
  · unfold synTarget
    rw [parseEth_buildEth dst src ethArp hcap]
    rfl
  · have hnil : buildEth dst src ethArp payload cap = [] := if_pos (by omega)
    rw [hnil, synTarget_nil]

/-- An IPv4 packet is a SYN if it carries one. -/
theorem synTarget_ipFrame (w : World) (proto : Byte) (ip : Ip) (mac : Mac) (payload : Bytes) :
    synTarget (w.ipFrame proto ip mac payload).2 = none ∨
    (proto = ipProtoTcp ∧ has payload tcpSyn = true ∧
      synTarget (w.ipFrame proto ip mac payload).2 = some (ip, dstPort payload)) := by
  unfold World.ipFrame
  dsimp only
  by_cases hcap : 20 + payload.length ≤ 128
  · obtain ⟨packet, hdr, heth, -, hparse, hproto, -, hdst⟩ :=
      ipv4_frame w.server.pktId proto ourIp ip mac w.server.mac payload hcap
    unfold synTarget frameBufSize
    rw [heth]
    dsimp only
    rw [if_pos rfl, hparse]
    dsimp only
    rw [hproto, hdst]
    split
    · rename_i hsyn
      exact .inr ⟨hsyn.1, hsyn.2, rfl⟩
    · exact .inl rfl
  · have hnil : (buildIpv4 w.server.pktId proto ourIp ip payload 128).1 = [] := by
      unfold buildIpv4
      rw [if_pos (by omega)]
    rw [hnil]
    refine .inl ?_
    unfold synTarget
    rw [parseEth_buildEth mac w.server.mac ethIpv4 (by decide)]
    rfl

/-- The checksum changes neither the ports nor the flags. -/
theorem getD_fillTcpChecksum (src dst : Ip) (seg : Bytes) {k : Nat} (hk : k < 16) :
    (fillTcpChecksum src dst seg).getD k 0 = seg.getD k 0 := by
  unfold fillTcpChecksum
  split
  · rfl
  · rename_i hlen
    dsimp only
    rw [List.append_assoc, List.getD_eq_getElem?_getD, List.getElem?_append_left (by rw [List.length_take]; omega),
      List.getElem?_take_of_lt hk, List.getD_eq_getElem?_getD]

theorem has_fillTcpChecksum (src dst : Ip) (seg : Bytes) (flag : Byte) :
    has (fillTcpChecksum src dst seg) flag = has seg flag := by
  unfold has flags
  rw [getD_fillTcpChecksum src dst seg (by decide)]

theorem dstPort_fillTcpChecksum (src dst : Ip) (seg : Bytes) : dstPort (fillTcpChecksum src dst seg) = dstPort seg := by
  unfold dstPort be16At
  rw [getD_fillTcpChecksum src dst seg (by decide), getD_fillTcpChecksum src dst seg (by decide)]

/-- The flags of a segment that is built. -/
theorem has_buildTcp (srcP dstP : BitVec 16) (seq ack : BitVec 32) (flags : Byte) (window : BitVec 16) (payload : Bytes)
    (cap : Nat) {flag : Byte} (hflag : flags &&& flag = 0) : has (buildTcp srcP dstP seq ack flags window payload cap) flag = false := by
  unfold buildTcp
  split
  · exact decide_eq_false (not_not.2 (BitVec.zero_and))
  · exact decide_eq_false (not_not.2 hflag)

theorem dstPort_buildTcp (srcP dstP : BitVec 16) (seq ack : BitVec 32) (flags : Byte) (window : BitVec 16) {payload : Bytes}
    {cap : Nat} (hcap : 20 + payload.length ≤ cap) : dstPort (buildTcp srcP dstP seq ack flags window payload cap) = dstP := by
  unfold buildTcp
  rw [if_neg (by omega)]
  exact be16At_eq (toBe16 srcP) (toBe32 seq ++ toBe32 ack ++ [0x50, flags] ++ toBe16 window ++ toBe16 0 ++ [0, 0] ++ payload)
    (by simp [tcpHeader]) rfl

/-! ### The two sides of the server -/

/-- While a connect is pending the connection is on its way to the same address and port. -/
def Agrees (conn : TcpConn) (sm : TcpSm) : Prop :=
  sm.state ≠ .idle → conn.state = .synSent ∧ conn.remoteIp = toLeBytes sm.dstIp ∧ conn.remotePort = sm.dstPort

def Output.synTarget : Output → Option (Ip × BitVec 16)
  | .frame bytes => Net.synTarget bytes
  | .reply _ _ => none

/-- The output answers a request `op` of process `pid`. -/
def Output.answers (op : Word) (pid : Nat) : Output → Bool
  | .reply sender data => sender == pid && data.get ⟨0, dataFields_pos⟩ == op
  | .frame _ => false

/-- What has to do with connecting: the connection, the pending connect, the SYNs, and the answers to each process. -/
structure ConnectSide where
  conn : TcpConn
  sm : TcpSm
  syns : List (Ip × BitVec 16)
  answers : Nat → Nat

/-- What has to do with pinging. -/
structure PingSide where
  ping : PingSm
  answers : Nat → Nat

def World.answers (w : World) (op : Word) (pid : Nat) : Nat := w.out.countP (Output.answers op pid)

def World.connectSide (w : World) : ConnectSide :=
  ⟨w.server.conn, w.server.tcpSm, w.out.filterMap Output.synTarget, w.answers opNetTcpConnect⟩

def World.pingSide (w : World) : PingSide := ⟨w.server.ping, w.answers opNetPing⟩

namespace World

variable {e : Env} {w : World}

@[simp] theorem connectSide_withPing (w : World) (ping : PingSm) : (w.withPing ping).connectSide = w.connectSide := rfl
@[simp] theorem connectSide_advancePingSeq (w : World) : w.advancePingSeq.connectSide = w.connectSide := rfl
@[simp] theorem connectSide_ipFrame (w : World) (proto : Byte) (ip : Ip) (mac : Mac) (p : Bytes) :
    (w.ipFrame proto ip mac p).1.connectSide = w.connectSide := rfl
@[simp] theorem pingSide_withConn (w : World) (conn : TcpConn) : (w.withConn conn).pingSide = w.pingSide := rfl
@[simp] theorem pingSide_withSm (w : World) (sm : TcpSm) : (w.withSm sm).pingSide = w.pingSide := rfl
@[simp] theorem pingSide_ipFrame (w : World) (proto : Byte) (ip : Ip) (mac : Mac) (p : Bytes) :
    (w.ipFrame proto ip mac p).1.pingSide = w.pingSide := rfl

/-- Only a reply is an answer. -/
theorem answers_sendPacket (e : Env) (w : World) (f : Bytes) (op : Word) : (w.sendPacket e f).1.answers op = w.answers op := by
  funext pid
  show (w.out ++ [Output.frame f]).countP _ = _
  rw [List.countP_append, List.countP_singleton]
  rfl

theorem answers_reply (w : World) (sender : Nat) (data : Vector Word dataFields) (op : Word) (pid : Nat) :
    (w.reply sender data).answers op pid = w.answers op pid + if sender = pid ∧ data[0] = op then 1 else 0 := by
  show (w.out ++ [Output.reply sender data]).countP _ = _
  rw [List.countP_append, List.countP_singleton]
  simp [Output.answers, answers]
  rfl

theorem answers_reply_other {sender : Nat} {data : Vector Word dataFields} {op : Word} (h : data[0] ≠ op) :
    (w.reply sender data).answers op = w.answers op := by
  funext pid
  rw [answers_reply, if_neg (fun hboth => h hboth.2), Nat.add_zero]

theorem connectSide_sendPacket {f : Bytes} (h : synTarget f = none) : (w.sendPacket e f).1.connectSide = w.connectSide := by
  unfold connectSide
  rw [answers_sendPacket]
  have hsyns : (w.sendPacket e f).1.out.filterMap Output.synTarget = w.out.filterMap Output.synTarget := by
    show (w.out ++ [Output.frame f]).filterMap _ = _
    have hnone : Output.synTarget (.frame f) = none := h
    rw [List.filterMap_append, List.filterMap_cons_none hnone, List.filterMap_nil, List.append_nil]
  rw [hsyns]
  rfl

theorem connectSide_sendFrame {f : Bytes} (h : synTarget f = none) : (w.sendFrame e f).1.connectSide = w.connectSide := by
  unfold sendFrame
  split
  · rfl
  · exact connectSide_sendPacket h

@[simp] theorem pingSide_sendPacket (e : Env) (w : World) (f : Bytes) : (w.sendPacket e f).1.pingSide = w.pingSide := by
  unfold pingSide
  rw [answers_sendPacket]
  rfl

@[simp] theorem pingSide_sendFrame (e : Env) (w : World) (f : Bytes) : (w.sendFrame e f).1.pingSide = w.pingSide := by
  unfold sendFrame
  split
  · rfl
  · exact pingSide_sendPacket e w f

theorem connectSide_reply {sender : Nat} {data : Vector Word dataFields} (h : data[0] ≠ opNetTcpConnect) :
    (w.reply sender data).connectSide = w.connectSide := by
  have hsyns : (w.reply sender data).out.filterMap Output.synTarget = w.out.filterMap Output.synTarget := by
    show (w.out ++ [Output.reply sender data]).filterMap _ = _
    rw [List.filterMap_append]
    exact List.append_nil _
  unfold connectSide
  rw [answers_reply_other h, hsyns]
  rfl

theorem pingSide_reply {sender : Nat} {data : Vector Word dataFields} (h : data[0] ≠ opNetPing) :
    (w.reply sender data).pingSide = w.pingSide := by
  unfold pingSide
  rw [answers_reply_other h]
  rfl

theorem connectSide_replyData {sender : Nat} {op val : Word} (h : op ≠ opNetTcpConnect) :
    (w.replyData sender op val).connectSide = w.connectSide := connectSide_reply h

theorem pingSide_replyData {sender : Nat} {op val : Word} (h : op ≠ opNetPing) :
    (w.replyData sender op val).pingSide = w.pingSide := pingSide_reply h

/-- A frame that is no segment. -/
theorem connectSide_sendIp {proto : Byte} (hproto : proto ≠ ipProtoTcp) (e : Env) (w : World) (ip : Ip) (mac : Mac) (p : Bytes) :
    (((w.ipFrame proto ip mac p).1).sendFrame e (w.ipFrame proto ip mac p).2).1.connectSide = w.connectSide := by
  rw [connectSide_sendFrame ?_, connectSide_ipFrame]
  exact (synTarget_ipFrame w proto ip mac p).resolve_right fun h => hproto h.1

/-- A segment that is no SYN. -/
theorem connectSide_sendTcpPacket {flags : Byte} (hflags : flags &&& tcpSyn = 0) (e : Env) (w : World) (ip : Ip) (mac : Mac)
    (sp dp : BitVec 16) (seq ack : BitVec 32) (window : BitVec 16) (p : Bytes) :
    (w.sendTcpPacket e ip mac sp dp seq ack flags window p).connectSide = w.connectSide := by
  unfold sendTcpPacket
  dsimp only
  split
  · rfl
  · rw [connectSide_sendFrame ?_, connectSide_ipFrame]
    refine (synTarget_ipFrame _ _ _ _ _).resolve_right fun h => ?_
    have hsyn := h.2.1
    rw [has_fillTcpChecksum, has_buildTcp sp dp seq ack flags window p 80 hflags] at hsyn
    cases hsyn

@[simp] theorem pingSide_sendTcpPacket (e : Env) (w : World) (ip : Ip) (mac : Mac) (sp dp : BitVec 16) (seq ack : BitVec 32)
    (flags : Byte) (window : BitVec 16) (p : Bytes) :
    (w.sendTcpPacket e ip mac sp dp seq ack flags window p).pingSide = w.pingSide := by
  unfold sendTcpPacket
  dsimp only
  split
  · rfl
  · rw [pingSide_sendFrame, pingSide_ipFrame]

@[simp] theorem connectSide_resolveMac (e : Env) (w : World) (ip : Ip) : (w.resolveMac e ip).1.connectSide = w.connectSide := by
  unfold resolveMac
  split
  · rfl
  · exact connectSide_sendFrame (synTarget_arp _ _ _ _)

@[simp] theorem pingSide_resolveMac (e : Env) (w : World) (ip : Ip) : (w.resolveMac e ip).1.pingSide = w.pingSide := by
  unfold resolveMac
  split
  · rfl
  · exact pingSide_sendFrame e w _

@[simp] theorem connectSide_buildAndSendIcmpRequest (e : Env) (w : World) (ip : Ip) (mac : Mac) :
    (w.buildAndSendIcmpRequest e ip mac).1.connectSide = w.connectSide := connectSide_sendIp (by decide) e w ip mac _

/-! ### What leaves the pending connect alone -/

theorem connectSide_handlePing (e : Env) (w : World) (msg : Message) : (w.handlePing e msg).connectSide = w.connectSide := by
  unfold handlePing
  dsimp only
  split
  · exact connectSide_replyData (by decide)
  · split
    · split
      · simp
      · rw [connectSide_replyData (by decide), connectSide_buildAndSendIcmpRequest, connectSide_advancePingSeq]
    · split
      · exact connectSide_replyData (by decide)
      · rw [connectSide_withPing]
        exact connectSide_sendPacket (synTarget_arp _ _ _ _)

theorem connectSide_handleUdpSend (e : Env) (w : World) (msg : Message) :
    (w.handleUdpSend e msg).connectSide = w.connectSide := by
  unfold handleUdpSend
  dsimp only
  have hresolve := connectSide_resolveMac e w (toLeBytes ((msg.getData 1).setWidth 32))
  split
  · rename_i heq
    rw [heq] at hresolve
    rw [connectSide_replyData (by decide)]
    exact hresolve
  · rename_i heq
    rw [heq] at hresolve
    split
    · rw [connectSide_replyData (by decide), connectSide_sendIp (by decide)]
      exact hresolve
    · unfold replyErr
      rw [connectSide_replyData (by decide), connectSide_sendIp (by decide)]
      exact hresolve

theorem connectSide_handleUdpBind (w : World) (msg : Message) : (w.handleUdpBind msg).connectSide = w.connectSide :=
  connectSide_replyData (by decide)

theorem connectSide_handleUdpRecv (w : World) (msg : Message) : (w.handleUdpRecv msg).connectSide = w.connectSide := by
  unfold handleUdpRecv
  split
  · exact connectSide_replyData (by decide)
  · exact connectSide_reply (by show opNetUdpRecv ≠ _; decide)

theorem connectSide_answerArp (e : Env) (w : World) (payload : Bytes) : (w.answerArp e payload).connectSide = w.connectSide := by
  unfold answerArp
  dsimp only
  split
  · rfl
  · split
    · exact connectSide_sendFrame (synTarget_arp _ _ _ _)
    · rfl

theorem connectSide_resumePing (e : Env) (w : World) : (w.resumePing e).connectSide = w.connectSide := by
  unfold resumePing
  dsimp only
  split
  · rfl
  · split
    · rfl
    · split
      · simp
      · rw [connectSide_replyData (by decide)]
        simp

theorem connectSide_handleIcmpPacket (e : Env) (w : World) (srcIp : Ip) (payload : Bytes) :
    (w.handleIcmpPacket e srcIp payload).connectSide = w.connectSide := by
  unfold handleIcmpPacket
  dsimp only
  split
  · rfl
  · split
    · split
      · rfl
      · split
        · rfl
        · exact connectSide_sendIp (by decide) e w _ _ _
    · split
      · split
        · rfl
        · generalize (if 6 ≤ payload.length then be16At payload 4 else 0) = id
          generalize (if 8 ≤ payload.length then be16At payload 6 else 0) = seq
          split
          · rw [connectSide_replyData (by decide), connectSide_withPing]
          · rfl
      · rfl

theorem connectSide_handleUdpPacket (w : World) (srcIp : Ip) (payload : Bytes) :
    (w.handleUdpPacket srcIp payload).connectSide = w.connectSide := by
  unfold handleUdpPacket
  split <;> rfl

theorem connectSide_checkPing (e : Env) (w : World) : (w.checkPing e).connectSide = w.connectSide := by
  unfold checkPing
  dsimp only
  split
  · rw [connectSide_replyData (by decide), connectSide_withPing]
  · rfl

/-! ### What leaves the pending ping alone -/

@[simp] theorem pingSide_tcpSmSendSyn (e : Env) (w : World) (ip : Ip) (mac : Mac) :
    (w.tcpSmSendSyn e ip mac).1.pingSide = w.pingSide := by
  unfold tcpSmSendSyn
  dsimp only
  rw [pingSide_sendFrame, pingSide_ipFrame, pingSide_withConn]

@[simp] theorem pingSide_tcpSmFail (w : World) (sender : Nat) : (w.tcpSmFail sender).pingSide = w.pingSide :=
  pingSide_replyData (by decide)

@[simp] theorem pingSide_sendAck (e : Env) (w : World) : (w.sendAck e).pingSide = w.pingSide := by
  unfold sendAck
  dsimp only
  rw [pingSide_sendTcpPacket]

theorem pingSide_handleUdpBind (w : World) (msg : Message) : (w.handleUdpBind msg).pingSide = w.pingSide :=
  pingSide_replyData (by decide)

theorem pingSide_handleUdpSend (e : Env) (w : World) (msg : Message) : (w.handleUdpSend e msg).pingSide = w.pingSide := by
  unfold handleUdpSend
  dsimp only
  have hresolve := pingSide_resolveMac e w (toLeBytes ((msg.getData 1).setWidth 32))
  split
  · rename_i heq
    rw [heq] at hresolve
    rw [pingSide_replyData (by decide)]
    exact hresolve
  · rename_i heq
    rw [heq] at hresolve
    split
    · rw [pingSide_replyData (by decide), pingSide_sendFrame, pingSide_ipFrame]
      exact hresolve
    · unfold replyErr
      rw [pingSide_replyData (by decide), pingSide_sendFrame, pingSide_ipFrame]
      exact hresolve

theorem pingSide_handleUdpRecv (w : World) (msg : Message) : (w.handleUdpRecv msg).pingSide = w.pingSide := by
  unfold handleUdpRecv
  split
  · exact pingSide_replyData (by decide)
  · exact pingSide_reply (by show opNetUdpRecv ≠ _; decide)

theorem pingSide_handleTcpConnect (e : Env) (w : World) (msg : Message) : (w.handleTcpConnect e msg).pingSide = w.pingSide := by
  unfold handleTcpConnect
  dsimp only
  split
  · exact pingSide_replyData (by decide)
  · split
    · rw [pingSide_replyData (by decide), pingSide_withConn]
    · generalize hopen : w.withConn _ = opened
      have hresolve := pingSide_resolveMac e opened (toLeBytes ((msg.getData 1).setWidth 32))
      have hside : opened.pingSide = w.pingSide := by rw [← hopen, pingSide_withConn]
      split
      · rename_i heq
        rw [heq] at hresolve
        split
        · rw [pingSide_withSm, pingSide_tcpSmSendSyn]
          exact hresolve.trans hside
        · rw [pingSide_tcpSmFail, pingSide_tcpSmSendSyn]
          exact hresolve.trans hside
      · rename_i heq
        rw [heq] at hresolve
        rw [pingSide_withSm]
        exact hresolve.trans hside

theorem pingSide_handleTcpSend (e : Env) (w : World) (msg : Message) : (w.handleTcpSend e msg).pingSide = w.pingSide := by
  unfold handleTcpSend replyErr
  dsimp only
  split
  · exact pingSide_replyData (by decide)
  · split
    · exact pingSide_replyData (by decide)
    · rw [pingSide_replyData (by decide), pingSide_sendTcpPacket, pingSide_withConn]

theorem pingSide_handleTcpRecv (w : World) (msg : Message) : (w.handleTcpRecv msg).pingSide = w.pingSide := by
  unfold handleTcpRecv
  dsimp only
  split
  · rw [pingSide_reply (by show opNetTcpRecv ≠ _; decide), pingSide_withConn]
  · exact pingSide_replyData (by decide)

theorem pingSide_handleTcpClose (e : Env) (w : World) : (w.handleTcpClose e).pingSide = w.pingSide := by
  unfold handleTcpClose
  dsimp only
  rw [pingSide_withConn]
  split
  · rw [pingSide_sendTcpPacket, pingSide_withConn]
  · rfl

theorem pingSide_answerArp (e : Env) (w : World) (payload : Bytes) : (w.answerArp e payload).pingSide = w.pingSide := by
  unfold answerArp
  dsimp only
  split
  · rfl
  · split
    · exact pingSide_sendFrame ..
    · rfl

theorem pingSide_resumeConnect (e : Env) (w : World) : (w.resumeConnect e).pingSide = w.pingSide := by
  unfold resumeConnect
  dsimp only
  split
  · rfl
  · split
    · rfl
    · unfold tcpSmOnArpResolved
      dsimp only
      split
      · rw [pingSide_withSm, pingSide_tcpSmSendSyn]
      · rw [pingSide_tcpSmFail, pingSide_withSm, pingSide_tcpSmSendSyn]

theorem pingSide_handleUdpPacket (w : World) (srcIp : Ip) (payload : Bytes) :
    (w.handleUdpPacket srcIp payload).pingSide = w.pingSide := by
  unfold handleUdpPacket
  split <;> rfl

theorem pingSide_handleTcpIncoming (e : Env) (w : World) (srcIp : Ip) (payload : Bytes) :
    (w.handleTcpIncoming e srcIp payload).pingSide = w.pingSide := by
  unfold handleTcpIncoming
  dsimp only
  split
  · rfl
  · split
    · unfold tcpSmOnEstablished
      dsimp only
      rw [pingSide_replyData (by decide), pingSide_sendTcpPacket, pingSide_withSm, pingSide_withConn]
    · rw [pingSide_sendAck, pingSide_withConn]
  · rw [pingSide_sendAck, pingSide_withConn]
  · split
    · unfold tcpSmOnReset
      dsimp only
      rw [pingSide_tcpSmFail, pingSide_withSm, pingSide_withConn]
    · rw [pingSide_withConn, pingSide_withConn]
  · rw [pingSide_withConn, pingSide_withConn]

theorem pingSide_checkConnect (e : Env) (w : World) : (w.checkConnect e).pingSide = w.pingSide := by
  unfold checkConnect
  dsimp only
  split
  · rw [pingSide_tcpSmFail, pingSide_withSm]
  · rfl

end World

end Rost.Net
