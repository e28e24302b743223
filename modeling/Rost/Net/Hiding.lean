import Rost.Net.Connect

/-!
# What depends on the data of a process

`hide p` blanks the bytes that wait in the sockets and on the connection of process `p`.  Apart from the receives, every
handler does the same whether they are hidden or not.
-/

namespace Rost.Net

open Lib (Slots unpackWords)
open Segment

/-- The bytes of the owner are blanked if it is `p`. -/
def blank (p owner : Nat) (bytes : Bytes) : Bytes := if owner = p then List.replicate bytes.length 0 else bytes

@[simp] theorem length_blank (p owner : Nat) (bytes : Bytes) : (blank p owner bytes).length = bytes.length := by
  unfold blank
  split
  · exact List.length_replicate
  · rfl

@[simp] theorem blank_nil (p owner : Nat) : blank p owner [] = [] := by
  unfold blank
  split <;> rfl

theorem blank_of_ne {p owner : Nat} (h : owner ≠ p) (bytes : Bytes) : blank p owner bytes = bytes := if_neg h

/-- Of blanked bytes only the number is known. -/
theorem blank_eq_of_length {p owner : Nat} (h : owner = p) {l r : Bytes} (hlen : l.length = r.length) :
    blank p owner l = blank p owner r := by
  unfold blank
  rw [if_pos h, if_pos h, hlen]

@[simp] theorem blank_blank (p owner : Nat) (bytes : Bytes) : blank p owner (blank p owner bytes) = blank p owner bytes := by
  by_cases h : owner = p
  · exact blank_eq_of_length h (length_blank ..)
  · rw [blank_of_ne h, blank_of_ne h]

/-- Blanking before or after more bytes come is the same. -/
theorem blank_append (p owner : Nat) (l r : Bytes) : blank p owner (blank p owner l ++ r) = blank p owner (l ++ r) := by
  by_cases h : owner = p
  · exact blank_eq_of_length h (by simp)
  · rw [blank_of_ne h l]

def UdpSocket.hide (p : Nat) (s : UdpSocket) : UdpSocket := { s with rxData := blank p s.ownerPid s.rxData }

def UdpTable.hide (p : Nat) (t : UdpTable) : UdpTable := fun i => (t.get i).hide p

def TcpConn.hide (p : Nat) (conn : TcpConn) : TcpConn := { conn with rxBuf := blank p conn.ownerPid conn.rxBuf }

def Server.hide (p : Nat) (s : Server) : Server := { s with sockets := s.sockets.hide p, conn := s.conn.hide p }

def World.hide (p : Nat) (w : World) : World := { w with server := w.server.hide p }

@[simp] theorem UdpSocket.hide_hide (p : Nat) (s : UdpSocket) : (s.hide p).hide p = s.hide p := by
  unfold UdpSocket.hide
  dsimp only
  rw [blank_blank]

@[simp] theorem TcpConn.hide_hide (p : Nat) (conn : TcpConn) : (conn.hide p).hide p = conn.hide p := by
  unfold TcpConn.hide
  dsimp only
  rw [blank_blank]

@[simp] theorem Server.hide_hide (p : Nat) (s : Server) : (s.hide p).hide p = s.hide p := by
  have hsockets : (s.sockets.hide p).hide p = s.sockets.hide p := Slots.ext fun i => UdpSocket.hide_hide p (s.sockets.get i)
  unfold Server.hide
  dsimp only
  rw [hsockets, TcpConn.hide_hide]

namespace UdpTable

variable {p : Nat} {t : UdpTable}

@[simp] theorem get_hide (i : Fin 4) : (t.hide p).get i = (t.get i).hide p := rfl

/-- A search that does not look at the data. -/
theorem first_hide {q : UdpSocket → Bool} (h : ∀ s : UdpSocket, q (s.hide p) = q s) : (t.hide p).first q = t.first q :=
  Slots.first_congr fun i => h (t.get i)

theorem set_hide (i : Fin 4) (x : UdpSocket) : Slots.set (t.hide p) i (x.hide p) = UdpTable.hide p (t.set i x) := by
  refine Slots.ext fun j => ?_
  rw [get_hide, Slots.get_set, Slots.get_set, get_hide]
  split <;> rfl

end UdpTable

namespace World

variable {p : Nat} {e : Env} {w : World}

@[simp] theorem hide_mac : (w.hide p).server.mac = w.server.mac := rfl
@[simp] theorem hide_arpTable : (w.hide p).server.arpTable = w.server.arpTable := rfl
@[simp] theorem hide_tcpSm : (w.hide p).server.tcpSm = w.server.tcpSm := rfl
@[simp] theorem hide_ping : (w.hide p).server.ping = w.server.ping := rfl
@[simp] theorem hide_conn : (w.hide p).server.conn = w.server.conn.hide p := rfl
@[simp] theorem hide_sockets : (w.hide p).server.sockets = w.server.sockets.hide p := rfl
@[simp] theorem hide_withSm (sm : TcpSm) : (w.hide p).withSm sm = (w.withSm sm).hide p := rfl
@[simp] theorem hide_withPing (ping : PingSm) : (w.hide p).withPing ping = (w.withPing ping).hide p := rfl
@[simp] theorem hide_withConn (conn : TcpConn) : (w.hide p).withConn (conn.hide p) = (w.withConn conn).hide p := rfl
@[simp] theorem hide_advancePingSeq : (w.hide p).advancePingSeq = w.advancePingSeq.hide p := rfl
@[simp] theorem hide_reply (pid : Nat) (data : Vector Word dataFields) :
    (w.hide p).reply pid data = (w.reply pid data).hide p := rfl
@[simp] theorem hide_replyData (pid : Nat) (op val : Word) :
    (w.hide p).replyData pid op val = (w.replyData pid op val).hide p := rfl
@[simp] theorem hide_replyErr (pid : Nat) (op : Word) : (w.hide p).replyErr pid op = (w.replyErr pid op).hide p := rfl

@[simp] theorem hide_sendPacket (f : Bytes) :
    (w.hide p).sendPacket e f = ((w.sendPacket e f).1.hide p, (w.sendPacket e f).2) := rfl

@[simp] theorem hide_ipFrame (proto : Byte) (ip : Ip) (mac : Mac) (payload : Bytes) :
    (w.hide p).ipFrame proto ip mac payload = ((w.ipFrame proto ip mac payload).1.hide p, (w.ipFrame proto ip mac payload).2) :=
  rfl

@[simp] theorem hide_sendFrame (f : Bytes) :
    (w.hide p).sendFrame e f = ((w.sendFrame e f).1.hide p, (w.sendFrame e f).2) := by
  unfold sendFrame
  split <;> rfl

@[simp] theorem hide_sendTcpPacket (ip : Ip) (mac : Mac) (sp dp : BitVec 16) (seq ack : BitVec 32) (flags : Byte)
    (window : BitVec 16) (payload : Bytes) :
    (w.hide p).sendTcpPacket e ip mac sp dp seq ack flags window payload =
      (w.sendTcpPacket e ip mac sp dp seq ack flags window payload).hide p := by
  unfold sendTcpPacket
  dsimp only
  rw [hide_ipFrame]
  dsimp only
  rw [hide_sendFrame]
  split <;> rfl

@[simp] theorem hide_sendAck : (w.hide p).sendAck e = (w.sendAck e).hide p := by
  unfold sendAck
  dsimp only
  rw [hide_sendTcpPacket, hide_arpTable]
  rfl

@[simp] theorem hide_resolveMac (ip : Ip) :
    (w.hide p).resolveMac e ip = ((w.resolveMac e ip).1.hide p, (w.resolveMac e ip).2) := by
  unfold resolveMac
  rw [hide_arpTable, hide_mac, hide_sendFrame]
  split <;> rfl

@[simp] theorem hide_buildAndSendIcmpRequest (ip : Ip) (mac : Mac) :
    (w.hide p).buildAndSendIcmpRequest e ip mac =
      ((w.buildAndSendIcmpRequest e ip mac).1.hide p, (w.buildAndSendIcmpRequest e ip mac).2) := by
  unfold buildAndSendIcmpRequest
  dsimp only
  rw [hide_ipFrame, hide_sendFrame, hide_ping]

/-! ### Requests -/

theorem hide_handlePing (msg : Message) : (w.hide p).handlePing e msg = (w.handlePing e msg).hide p := by
  unfold handlePing
  dsimp only [hide_ping, hide_arpTable, hide_mac]
  simp only [hide_replyData, hide_advancePingSeq, hide_buildAndSendIcmpRequest, hide_ping, hide_withPing, hide_sendPacket]
  cases lookupMac w.server.arpTable (toLeBytes ((msg.getData 1).setWidth 32)) with
  | none =>
    dsimp only
    split_ifs <;> rfl
  | some mac =>
    dsimp only
    split_ifs <;> rfl

theorem hide_handleUdpSend (msg : Message) : (w.hide p).handleUdpSend e msg = (w.handleUdpSend e msg).hide p := by
  unfold handleUdpSend
  simp only [hide_resolveMac]
  generalize w.resolveMac e (toLeBytes ((msg.getData 1).setWidth 32)) = out
  obtain ⟨v, mac⟩ := out
  cases mac with
  | none => rfl
  | some mac =>
    simp only [hide_ipFrame, hide_sendFrame, hide_replyData, hide_replyErr]
    split_ifs <;> rfl

theorem hide_handleUdpBind (msg : Message) : (w.hide p).handleUdpBind msg = (w.handleUdpBind msg).hide p := by
  have hbind : (w.server.sockets.hide p).bind ((msg.getData 1).setWidth 16) msg.sender =
      ((w.server.sockets.bind ((msg.getData 1).setWidth 16) msg.sender).1.hide p,
        (w.server.sockets.bind ((msg.getData 1).setWidth 16) msg.sender).2) := by
    unfold UdpTable.bind
    rw [UdpTable.first_hide fun _ => rfl, UdpTable.first_hide fun _ => rfl]
    split_ifs
    · rfl
    · cases w.server.sockets.first fun s => !s.active with
      | none => rfl
      | some i =>
        dsimp only
        rw [← UdpTable.set_hide]
        refine congrArg (fun x => (Slots.set _ i x, true)) ?_
        unfold UdpSocket.hide
        dsimp only
        rw [blank_nil]
        rfl
  unfold handleUdpBind
  dsimp only
  rw [hide_sockets, hbind]
  rfl

/-- The connection is opened the same way. -/
theorem connect_hide (conn : TcpConn) (ip : Ip) (remotePort localPort : BitVec 16) (pid : Nat) :
    (conn.hide p).connect ip remotePort localPort pid =
      ((conn.connect ip remotePort localPort pid).1.hide p, (conn.connect ip remotePort localPort pid).2) := by
  unfold TcpConn.connect
  have hstate : (conn.hide p).state = conn.state := rfl
  rw [hstate]
  split_ifs
  · rfl
  · unfold TcpConn.hide
    dsimp only
    rw [blank_nil]

@[simp] theorem hide_tcpSmSendSyn (ip : Ip) (mac : Mac) :
    (w.hide p).tcpSmSendSyn e ip mac = ((w.tcpSmSendSyn e ip mac).1.hide p, (w.tcpSmSendSyn e ip mac).2) := by
  have hsend : ∀ (v : World) (seg : Bytes), ((v.hide p).ipFrame ipProtoTcp ip mac seg).1.sendFrame e
      ((v.hide p).ipFrame ipProtoTcp ip mac seg).2 =
      (((v.ipFrame ipProtoTcp ip mac seg).1.sendFrame e (v.ipFrame ipProtoTcp ip mac seg).2).1.hide p,
        ((v.ipFrame ipProtoTcp ip mac seg).1.sendFrame e (v.ipFrame ipProtoTcp ip mac seg).2).2) := by
    intro v seg
    rw [hide_ipFrame, hide_sendFrame]
  exact hsend (w.withConn { w.server.conn with seq := w.server.conn.seq + 1 }) (fillTcpChecksum ourIp ip
    (buildTcp w.server.conn.localPort w.server.conn.remotePort w.server.conn.seq 0 tcpSyn 65535 [] 64))

@[simp] theorem hide_zeroed : TcpConn.hide p .zeroed = .zeroed := by
  unfold TcpConn.hide
  rw [show TcpConn.zeroed.rxBuf = [] from rfl, blank_nil]
  rfl

@[simp] theorem hide_tcpSmFail (sender : Nat) : (w.hide p).tcpSmFail sender = (w.tcpSmFail sender).hide p := by
  have hzero := hide_withConn (p := p) (w := w) .zeroed
  rw [hide_zeroed] at hzero
  exact congrArg (fun v : World => v.replyData sender opNetTcpConnect 0xFF) hzero

theorem hide_handleTcpConnect (msg : Message) : (w.hide p).handleTcpConnect e msg = (w.handleTcpConnect e msg).hide p := by
  unfold handleTcpConnect
  dsimp only
  rw [hide_conn, connect_hide]
  generalize w.server.conn.connect (toLeBytes ((msg.getData 1).setWidth 32)) ((msg.getData 2).setWidth 16) ephemeralPortBase
    msg.sender = opened
  dsimp only
  rw [hide_withConn, hide_resolveMac]
  have hsm : ((w.withConn opened.1).hide p).server.tcpSm = (w.withConn opened.1).server.tcpSm := rfl
  rw [hsm]
  generalize (w.withConn opened.1).resolveMac e (toLeBytes ((msg.getData 1).setWidth 32)) = out
  obtain ⟨u, mac⟩ := out
  by_cases hidle : w.server.tcpSm.state ≠ .idle
  · have hidle' : (w.hide p).server.tcpSm.state ≠ .idle := hidle
    rw [if_pos hidle, if_pos hidle', hide_replyData]
  · have hidle' : ¬ (w.hide p).server.tcpSm.state ≠ .idle := hidle
    rw [if_neg hidle, if_neg hidle']
    by_cases hfull : opened.2 = 0xFF
    · rw [if_pos hfull, if_pos hfull, hide_replyData]
    · rw [if_neg hfull, if_neg hfull]
      cases mac with
      | none => rfl
      | some mac =>
        dsimp only
        rw [hide_tcpSmSendSyn]
        generalize u.tcpSmSendSyn e (toLeBytes ((msg.getData 1).setWidth 32)) mac = sent
        dsimp only
        split_ifs
        · exact hide_withSm _
        · exact hide_tcpSmFail msg.sender

theorem hide_handleTcpSend (msg : Message) : (w.hide p).handleTcpSend e msg = (w.handleTcpSend e msg).hide p := by
  unfold handleTcpSend
  dsimp only
  by_cases hstate : w.server.conn.state ≠ .established
  · have hstate' : (w.hide p).server.conn.state ≠ .established := hstate
    rw [if_pos hstate, if_pos hstate', hide_replyErr]
  · have hstate' : ¬ (w.hide p).server.conn.state ≠ .established := hstate
    have hlookup : lookupMac (w.hide p).server.arpTable (w.hide p).server.conn.remoteIp =
        lookupMac w.server.arpTable w.server.conn.remoteIp := rfl
    rw [if_neg hstate, if_neg hstate', hlookup]
    cases lookupMac w.server.arpTable w.server.conn.remoteIp with
    | none => exact hide_replyErr ..
    | some mac =>
      dsimp only
      generalize hpayload : (unpackWords (payloadWords msg) 40).take (min (msg.getData 2).toNat 40) = payload
      have hsend := hide_sendTcpPacket (p := p) (e := e)
        (w := w.withConn { w.server.conn with seq := w.server.conn.seq + BitVec.ofNat 32 payload.length })
        w.server.conn.remoteIp mac w.server.conn.localPort w.server.conn.remotePort w.server.conn.seq w.server.conn.ack
        (tcpAck ||| tcpPsh) 65535 payload
      exact congrArg (fun v : World => v.replyData msg.sender opNetTcpSend 0) hsend

theorem hide_handleTcpClose : (w.hide p).handleTcpClose e = (w.handleTcpClose e).hide p := by
  have hclear : ∀ v : World, (v.hide p).withConn .zeroed = (v.withConn .zeroed).hide p := by
    intro v
    rw [← hide_withConn, hide_zeroed]
  unfold handleTcpClose TcpConn.close
  dsimp only
  by_cases hstate : w.server.conn.state = .established
  · have hstate' : (w.hide p).server.conn.state = .established := hstate
    rw [if_pos hstate, if_pos hstate', ← hclear]
    have hsend := hide_sendTcpPacket (p := p) (e := e)
      (w := w.withConn { w.server.conn with seq := w.server.conn.seq + 1, state := .finWait1 })
      w.server.conn.remoteIp ((lookupMac w.server.arpTable w.server.conn.remoteIp).getD macBroadcast) w.server.conn.localPort
      w.server.conn.remotePort w.server.conn.seq w.server.conn.ack (tcpFin ||| tcpAck) 65535 []
    exact congrArg (fun v : World => v.withConn .zeroed) hsend
  · have hstate' : ¬ (w.hide p).server.conn.state = .established := hstate
    rw [if_neg hstate, if_neg hstate', hclear]

/-! ### Packets -/

theorem hide_answerArp (payload : Bytes) : (w.hide p).answerArp e payload = (w.answerArp e payload).hide p := by
  unfold answerArp
  rw [hide_arpTable, hide_mac]
  generalize handleArp w.server.arpTable payload w.server.mac ourIp = out
  obtain ⟨table, sender⟩ := out
  have htable : ({ w.hide p with server := { (w.hide p).server with arpTable := table } } : World) =
      ({ w with server := { w.server with arpTable := table } } : World).hide p := rfl
  dsimp only
  rw [htable]
  cases sender with
  | none => rfl
  | some sender =>
    dsimp only
    rw [hide_sendFrame]
    split_ifs <;> rfl

theorem hide_resumePing : (w.hide p).resumePing e = (w.resumePing e).hide p := by
  unfold resumePing
  dsimp only
  rw [hide_ping, hide_arpTable]
  by_cases hwait : w.server.ping.state ≠ .waitArp
  · rw [if_pos hwait, if_pos hwait]
  · rw [if_neg hwait, if_neg hwait]
    cases lookupMac w.server.arpTable (toLeBytes w.server.ping.targetIp) with
    | none => rfl
    | some mac =>
      dsimp only
      rw [hide_advancePingSeq, hide_buildAndSendIcmpRequest]
      generalize w.advancePingSeq.buildAndSendIcmpRequest e (toLeBytes w.server.ping.targetIp) mac = out
      dsimp only
      split_ifs <;> rfl

theorem hide_resumeConnect : (w.hide p).resumeConnect e = (w.resumeConnect e).hide p := by
  unfold resumeConnect
  dsimp only
  rw [hide_tcpSm, hide_arpTable]
  by_cases hwait : w.server.tcpSm.state ≠ .waitArp
  · rw [if_pos hwait, if_pos hwait]
  · rw [if_neg hwait, if_neg hwait]
    cases lookupMac w.server.arpTable (toLeBytes w.server.tcpSm.dstIp) with
    | none => rfl
    | some mac =>
      dsimp only
      unfold tcpSmOnArpResolved
      rw [hide_tcpSmSendSyn]
      generalize w.tcpSmSendSyn e (toLeBytes w.server.tcpSm.dstIp) mac = out
      dsimp only
      rw [hide_tcpSm, hide_withSm, hide_withSm, hide_tcpSmFail]
      split_ifs <;> rfl

theorem hide_handleArpPacket (payload : Bytes) : (w.hide p).handleArpPacket e payload = (w.handleArpPacket e payload).hide p := by
  unfold handleArpPacket
  rw [hide_answerArp, hide_resumePing, hide_resumeConnect]

theorem hide_handleIcmpPacket (srcIp : Ip) (payload : Bytes) :
    (w.hide p).handleIcmpPacket e srcIp payload = (w.handleIcmpPacket e srcIp payload).hide p := by
  unfold handleIcmpPacket
  dsimp only
  rw [hide_arpTable, hide_ping]
  generalize (if 6 ≤ payload.length then be16At payload 4 else 0) = id
  generalize (if 8 ≤ payload.length then be16At payload 6 else 0) = seq
  cases lookupMac w.server.arpTable srcIp with
  | none =>
    dsimp only
    split_ifs <;> rfl
  | some mac =>
    dsimp only
    rw [hide_ipFrame]
    dsimp only
    rw [hide_sendFrame]
    split_ifs <;> rfl

theorem hide_checkPing : (w.hide p).checkPing e = (w.checkPing e).hide p := by
  unfold checkPing
  dsimp only
  rw [hide_ping]
  split_ifs <;> rfl

theorem hide_checkConnect : (w.hide p).checkConnect e = (w.checkConnect e).hide p := by
  unfold checkConnect
  dsimp only
  rw [hide_tcpSm, hide_withSm, hide_tcpSmFail]
  split_ifs <;> rfl

end World

/-! ### Data that come in -/

/-- The two segments differ in nothing but the bytes of their data. -/
structure SameHeader (g g' : Bytes) : Prop where
  length : g.length = g'.length
  ports : srcPort g = srcPort g' ∧ dstPort g = dstPort g'
  seq : seqNum g = seqNum g'
  ack : ackNum g = ackNum g'
  flags : Segment.flags g = Segment.flags g'
  payload : (Segment.payload g).length = (Segment.payload g').length

/-- What a segment does to a connection does not depend on the bytes that wait there. -/
theorem receive_hide (p : Nat) (conn : TcpConn) (g : Bytes) :
    ((conn.hide p).receive g).1.hide p = (conn.receive g).1.hide p ∧ ((conn.hide p).receive g).2 = (conn.receive g).2 := by
  have hstate : (conn.hide p).state = conn.state := rfl
  have hlen : (conn.hide p).rxBuf.length = conn.rxBuf.length := length_blank ..
  unfold TcpConn.receive
  rw [hstate, hlen]
  cases conn.state with
  | synSent =>
    dsimp only
    split_ifs
    · exact ⟨by simp [TcpConn.hide], rfl⟩
    · exact ⟨by simp [TcpConn.hide], rfl⟩
    · exact ⟨TcpConn.hide_hide p conn, rfl⟩
  | established =>
    dsimp only
    split_ifs
    · exact ⟨by simp [TcpConn.hide], rfl⟩
    · exact ⟨by simp [TcpConn.hide], rfl⟩
    · refine ⟨?_, rfl⟩
      unfold TcpConn.hide
      dsimp only
      rw [blank_append]
    · exact ⟨TcpConn.hide_hide p conn, rfl⟩
  | finWait1 =>
    dsimp only
    split_ifs
    · exact ⟨by simp [TcpConn.hide], rfl⟩
    · exact ⟨by simp [TcpConn.hide], rfl⟩
    · exact ⟨TcpConn.hide_hide p conn, rfl⟩
  | closeWait => exact ⟨TcpConn.hide_hide p conn, rfl⟩
  | closed => exact ⟨TcpConn.hide_hide p conn, rfl⟩

theorem handleTcp_hide (p : Nat) (conn : TcpConn) (srcIp : Ip) (g : Bytes) :
    (handleTcp (conn.hide p) srcIp g).1.hide p = (handleTcp conn srcIp g).1.hide p ∧
      (handleTcp (conn.hide p) srcIp g).2 = (handleTcp conn srcIp g).2 := by
  have haccepts : (conn.hide p).accepts srcIp g = conn.accepts srcIp g := rfl
  by_cases h : conn.accepts srcIp g = true
  · rw [handleTcp_of_accepts h, handleTcp_of_accepts (haccepts.trans h)]
    exact receive_hide p conn g
  · rw [handleTcp_of_not_accepts h, handleTcp_of_not_accepts (haccepts ▸ h)]
    exact ⟨TcpConn.hide_hide p conn, rfl⟩

namespace SameHeader

variable {p : Nat} {conn : TcpConn} {g g' : Bytes}

theorem has (h : SameHeader g g') (flag : Byte) : Segment.has g flag = Segment.has g' flag := by
  unfold Segment.has
  rw [h.flags]

theorem isSynAck (h : SameHeader g g') : Segment.isSynAck g = Segment.isSynAck g' := by
  unfold Segment.isSynAck
  rw [h.flags]

theorem accepts (h : SameHeader g g') (conn : TcpConn) (srcIp : Ip) : conn.accepts srcIp g = conn.accepts srcIp g' := by
  unfold TcpConn.accepts
  rw [h.length, h.ports.1, h.ports.2]

theorem payload_nil (h : SameHeader g g') : Segment.payload g = [] ↔ Segment.payload g' = [] := by
  rw [← List.length_eq_zero_iff, ← List.length_eq_zero_iff, h.payload]

/-- What the owner's data do to the connection does not depend on their bytes. -/
theorem receive (h : SameHeader g g') (howner : conn.ownerPid = p) :
    (conn.receive g).1.hide p = (conn.receive g').1.hide p ∧ (conn.receive g).2 = (conn.receive g').2 := by
  unfold TcpConn.receive
  rw [h.isSynAck, h.has, h.has, h.has, h.seq, h.ack]
  cases conn.state with
  | synSent => exact ⟨rfl, rfl⟩
  | established =>
    dsimp only
    by_cases hrst : Segment.has g' tcpRst = true
    · rw [if_pos hrst, if_pos hrst]
      exact ⟨rfl, rfl⟩
    · rw [if_neg hrst, if_neg hrst]
      by_cases hfin : Segment.has g' tcpFin = true
      · rw [if_pos hfin, if_pos hfin]
        exact ⟨rfl, rfl⟩
      · rw [if_neg hfin, if_neg hfin]
        by_cases hdata : Segment.payload g' = []
        · have hdata' := h.payload_nil.2 hdata
          rw [if_neg (not_not.2 hdata), if_neg (not_not.2 hdata')]
          exact ⟨rfl, rfl⟩
        · have hdata' : Segment.payload g ≠ [] := fun hnil => hdata (h.payload_nil.1 hnil)
          rw [if_pos hdata, if_pos hdata', h.payload]
          refine ⟨?_, rfl⟩
          unfold TcpConn.hide
          dsimp only
          rw [blank_eq_of_length howner (l := conn.rxBuf ++ (Segment.payload g).take (rxBufSize - conn.rxBuf.length))
            (r := conn.rxBuf ++ (Segment.payload g').take (rxBufSize - conn.rxBuf.length)) (by simp [h.payload])]
  | finWait1 => exact ⟨rfl, rfl⟩
  | closeWait => exact ⟨rfl, rfl⟩
  | closed => exact ⟨rfl, rfl⟩

theorem handleTcp (h : SameHeader g g') (howner : conn.ownerPid = p) (srcIp : Ip) :
    (Net.handleTcp conn srcIp g).1.hide p = (Net.handleTcp conn srcIp g').1.hide p ∧
      (Net.handleTcp conn srcIp g).2 = (Net.handleTcp conn srcIp g').2 := by
  by_cases haccepts : conn.accepts srcIp g' = true
  · rw [handleTcp_of_accepts haccepts, handleTcp_of_accepts ((h.accepts conn srcIp).trans haccepts)]
    exact h.receive howner
  · rw [handleTcp_of_not_accepts haccepts, handleTcp_of_not_accepts (h.accepts conn srcIp ▸ haccepts)]
    exact ⟨rfl, rfl⟩

end SameHeader

namespace World

variable {p : Nat} {e : Env} {w : World}

/-- What the server does about an event of the connection. -/
def onTcpEvent (e : Env) (w : World) : Option TcpEvent → World
  | none => w
  | some .established => if w.server.tcpSm.state = .waitSynAck then w.tcpSmOnEstablished e else w.sendAck e
  | some .dataReceived => w.sendAck e
  | some .reset => if w.server.tcpSm.state = .waitSynAck then w.tcpSmOnReset else w.withConn w.server.conn.close
  | some .closed => w.withConn w.server.conn.close

theorem handleTcpIncoming_eq (e : Env) (w : World) (srcIp : Ip) (g : Bytes) :
    w.handleTcpIncoming e srcIp g =
      (w.withConn (handleTcp w.server.conn srcIp g).1).onTcpEvent e (handleTcp w.server.conn srcIp g).2 := by
  unfold handleTcpIncoming
  generalize handleTcp w.server.conn srcIp g = out
  obtain ⟨conn, event⟩ := out
  cases event with
  | none => rfl
  | some event => cases event <;> rfl

theorem hide_tcpSmOnEstablished : (w.hide p).tcpSmOnEstablished e = (w.tcpSmOnEstablished e).hide p := by
  have hlocal : (w.server.conn.hide p).localPort = w.server.conn.localPort := rfl
  have hremote : (w.server.conn.hide p).remotePort = w.server.conn.remotePort := rfl
  have hseq : (w.server.conn.hide p).seq = w.server.conn.seq := rfl
  have hack : (w.server.conn.hide p).ack = w.server.conn.ack := rfl
  unfold tcpSmOnEstablished
  dsimp only
  rw [hide_tcpSm, hide_conn, hlocal, hremote, hseq, hack, hide_withSm, hide_sendTcpPacket, hide_replyData]

theorem hide_onTcpEvent (event : Option TcpEvent) : (w.hide p).onTcpEvent e event = (w.onTcpEvent e event).hide p := by
  have hclear : (w.hide p).withConn .zeroed = (w.withConn .zeroed).hide p := by
    rw [← hide_withConn, hide_zeroed]
  cases event with
  | none => rfl
  | some event =>
    cases event with
    | established =>
      unfold onTcpEvent
      dsimp only
      rw [hide_tcpSm, hide_sendAck, hide_tcpSmOnEstablished]
      split_ifs <;> rfl
    | dataReceived => exact hide_sendAck
    | reset =>
      unfold onTcpEvent tcpSmOnReset TcpConn.close
      dsimp only
      rw [hide_tcpSm, hide_withSm, hide_tcpSmFail, hclear]
      split_ifs <;> rfl
    | closed => exact hclear

/-- The connection comes to the same, but for the bytes of the owner. -/
theorem handleTcpIncoming_congr {v w : World} {g g' : Bytes} {srcIp : Ip} (h : v.hide p = w.hide p)
    (hg : (handleTcp v.server.conn srcIp g).1.hide p = (handleTcp w.server.conn srcIp g').1.hide p ∧
      (handleTcp v.server.conn srcIp g).2 = (handleTcp w.server.conn srcIp g').2) :
    (v.handleTcpIncoming e srcIp g).hide p = (w.handleTcpIncoming e srcIp g').hide p := by
  rw [handleTcpIncoming_eq, handleTcpIncoming_eq, ← hide_onTcpEvent, ← hide_onTcpEvent, ← hide_withConn, ← hide_withConn, h,
    hg.1, hg.2]

theorem hide_hide (p : Nat) (w : World) : (w.hide p).hide p = w.hide p := by
  unfold hide
  dsimp only
  rw [Server.hide_hide]

theorem hide_handleTcpIncoming (srcIp : Ip) (g : Bytes) :
    ((w.hide p).handleTcpIncoming e srcIp g).hide p = (w.handleTcpIncoming e srcIp g).hide p :=
  handleTcpIncoming_congr (hide_hide p w) (handleTcp_hide p w.server.conn srcIp g)

end World

end Rost.Net
