import Rost.Lib.Unwinding
import Rost.Net.Hiding

/-!
# Owners

A socket belongs to the process that bound its port, and the connection to the one that opened it.  The owners are recorded
and never looked at: what others do leaves them alone exactly when each request is the owner's, or finds nothing to take
(`Server.owners_respected`).  In the runs where this is so, nobody else's answers depend on the data of a process.
-/

namespace Rost.Net

open Lib (Run Slots exec run_of_exec pairStep unwinding unpackWords)
open Segment

/-! ### Packets -/

/-- The datagram in the frame, if it is for us: the sender, both ports and the data. -/
def udpDatagram (frame : Bytes) : Option (Ip × BitVec 16 × BitVec 16 × Bytes) :=
  match parseEth frame with
  | none => none
  | some eth =>
    if eth.ethertype = ethIpv4 then
      match parseIpv4 eth.payload with
      | none => none
      | some (iph, payload) =>
        if (iph.dst = ourIp ∨ iph.dst = World.broadcastIp) ∧ iph.proto = ipProtoUdp then
          (parseUdp payload).map fun out => (iph.src, out.1, out.2.1, out.2.2)
        else none
    else none

/-- The segment in a frame that is sent. -/
def sentSegment (frame : Bytes) : Option Bytes :=
  match parseEth frame with
  | none => none
  | some eth =>
    if eth.ethertype = ethIpv4 then
      match parseIpv4 eth.payload with
      | none => none
      | some (iph, seg) => if iph.proto = ipProtoTcp then some seg else none
    else none

/-- The socket that gets the datagrams for the port. -/
def UdpTable.receiver (t : UdpTable) (port : BitVec 16) : Option (Fin 4) := t.first (UdpSocket.isBound port)

/-- The socket whose datagram a receive at the port gets. -/
def UdpTable.pendingAt (t : UdpTable) (port : BitVec 16) : Option (Fin 4) := t.first fun s => s.isBound port && s.hasData

theorem World.handlePacket_tcp {frame seg : Bytes} {srcIp : Ip} (h : tcpSegment frame = some (srcIp, seg)) (e : Env) (w : World) :
    w.handlePacket e frame = w.handleTcpIncoming e srcIp seg := by
  rcases World.handlePacket_cases e w frame with ⟨srcIp', seg', hseg, heq⟩ | ⟨hnone, -⟩ | ⟨hnone, -⟩
  · rw [h] at hseg
    cases hseg
    exact heq
  · rw [h] at hnone
    cases hnone
  · rw [h] at hnone
    cases hnone

theorem World.handlePacket_udp {frame data : Bytes} {srcIp : Ip} {srcPort dstPort : BitVec 16}
    (h : udpDatagram frame = some (srcIp, srcPort, dstPort, data)) (e : Env) (w : World) :
    w.handlePacket e frame =
      { w with server := { w.server with sockets := w.server.sockets.deliver srcIp srcPort dstPort data } } := by
  unfold udpDatagram at h
  unfold World.handlePacket
  cases heth : parseEth frame with
  | none =>
    rw [heth] at h
    cases h
  | some eth =>
    rw [heth] at h
    dsimp only at h ⊢
    split at h
    · rename_i hip
      rw [if_neg (by rw [hip]; decide), if_pos hip]
      cases hparse : parseIpv4 eth.payload with
      | none =>
        rw [hparse] at h
        cases h
      | some packet =>
        obtain ⟨iph, payload⟩ := packet
        rw [hparse] at h
        dsimp only at h ⊢
        split at h
        · rename_i hudp
          have hours : ¬ (iph.dst ≠ ourIp ∧ iph.dst ≠ World.broadcastIp) := fun hne => hudp.1.elim hne.1 hne.2
          unfold World.handleIpv4Packet World.handleUdpPacket
          rw [if_neg hours, if_neg (by rw [hudp.2]; decide), if_pos hudp.2]
          obtain ⟨⟨sp, dp, d⟩, hdata, hout⟩ := Option.map_eq_some_iff.1 h
          rw [hdata]
          cases hout
          rfl
        · cases h
    · cases h

/-- The two frames differ in nothing but the bytes of data for process `p`. -/
def SamePacket (p : Nat) (s : Server) (frame frame' : Bytes) : Prop :=
  frame = frame' ∨
  (∃ srcIp srcPort dstPort data data' i, udpDatagram frame = some (srcIp, srcPort, dstPort, data) ∧
    udpDatagram frame' = some (srcIp, srcPort, dstPort, data') ∧ data.length = data'.length ∧
    s.sockets.receiver dstPort = some i ∧ (s.sockets.get i).ownerPid = p) ∨
  ∃ srcIp seg seg', tcpSegment frame = some (srcIp, seg) ∧ tcpSegment frame' = some (srcIp, seg') ∧ SameHeader seg seg' ∧
    s.conn.ownerPid = p

/-- The two events differ in nothing but the bytes of data for process `p`. -/
def SameEvent (p : Nat) (s : Server) : NetOp → NetOp → Prop
  | .packet frame, .packet frame' => SamePacket p s frame frame'
  | op, op' => op = op'

/-! ### Requests by the owner -/

/-- Who takes a datagram or bytes, sends on the connection or closes it, is the owner. -/
structure OwnedRequest (s : Server) (msg : Message) : Prop where
  udpRecv : msg.getData 0 = opNetUdpRecv → ∀ i, s.sockets.pendingAt ((msg.getData 1).setWidth 16) = some i →
    (s.sockets.get i).ownerPid = msg.sender
  tcpSend : msg.getData 0 = opNetTcpSend → s.conn.state = .established →
    (lookupMac s.arpTable s.conn.remoteIp).isSome = true → s.conn.ownerPid = msg.sender
  tcpRecv : msg.getData 0 = opNetTcpRecv → s.conn.rxBuf ≠ [] → s.conn.ownerPid = msg.sender
  tcpClose : msg.getData 0 = opNetTcpClose → s.conn.state ≠ .closed → s.conn.ownerPid = msg.sender

/-- The request leaves the sockets of others alone, and their connection: it is not changed, and no segment is sent. -/
structure RespectsOthers (s : Server) (msg : Message) (y : Server) (out : List Output) : Prop where
  sockets : ∀ i, (s.sockets.get i).active = true → (s.sockets.get i).ownerPid ≠ msg.sender →
    y.sockets.get i = s.sockets.get i
  conn : s.conn.state ≠ .closed → s.conn.ownerPid ≠ msg.sender →
    y.conn = s.conn ∧ ∀ frame, Output.frame frame ∈ out → sentSegment frame = none

namespace Server

def Owned (s : Server) (op : Env × NetOp) : Prop := ∀ msg, op.2 = .request msg → OwnedRequest s msg

def Respects (s : Server) (op : Env × NetOp) : Prop :=
  ∀ y out, s.step op = some (y, out) → ∀ msg, op.2 = .request msg → RespectsOthers s msg y out

end Server

/-! ### What others see -/

/-- What is sent to anybody but process `p`. -/
def others (p : Nat) (out : List Output) : List Output :=
  out.filter fun
    | .reply pid _ => pid != p
    | .frame _ => true

/-- What the world looks like without the data of process `p`. -/
def World.look (p : Nat) (w : World) : Server × List Output := (w.server.hide p, others p w.out)

@[simp] theorem World.look_hide (p : Nat) (w : World) : (w.hide p).look p = w.look p :=
  congrArg (fun s => (s, others p w.out)) (Server.hide_hide p w.server)

theorem others_append (p : Nat) (l r : List Output) : others p (l ++ r) = others p l ++ others p r := List.filter_append ..

/-- An answer to `p` is not seen. -/
theorem World.look_reply_self (p : Nat) (w : World) (data : Vector Word dataFields) : (w.reply p data).look p = w.look p := by
  have hout : others p (w.out ++ [Output.reply p data]) = others p w.out := by
    rw [others_append]
    have hnone : others p [Output.reply p data] = [] := List.filter_cons_of_neg (by simp)
    rw [hnone, List.append_nil]
  exact congrArg (fun out => (w.server.hide p, out)) hout

namespace UdpTable

variable {p : Nat} {t : UdpTable}

/-- A datagram comes to the same, but for the bytes of the owner. -/
theorem deliver_hide (srcIp : Ip) (srcPort dstPort : BitVec 16) (data : Bytes) :
    ((t.hide p).deliver srcIp srcPort dstPort data).hide p = (t.deliver srcIp srcPort dstPort data).hide p := by
  unfold deliver
  rw [first_hide fun _ => rfl]
  cases t.first (UdpSocket.isBound dstPort) with
  | none => exact Slots.ext fun i => UdpSocket.hide_hide p (t.get i)
  | some i =>
    refine Slots.ext fun j => ?_
    simp only [get_hide, Slots.get_set]
    split
    · rfl
    · exact UdpSocket.hide_hide p (t.get j)

/-- The bytes of a datagram for the owner are not seen. -/
theorem deliver_same (srcIp : Ip) (srcPort : BitVec 16) {dstPort : BitVec 16} {data data' : Bytes} {i : Fin 4}
    (hlen : data.length = data'.length) (hi : t.receiver dstPort = some i) (howner : (t.get i).ownerPid = p) :
    (t.deliver srcIp srcPort dstPort data).hide p = (t.deliver srcIp srcPort dstPort data').hide p := by
  unfold receiver at hi
  unfold deliver
  rw [hi]
  refine Slots.ext fun j => ?_
  simp only [get_hide, Slots.get_set]
  split
  · unfold UdpSocket.hide
    dsimp only
    rw [blank_eq_of_length howner (l := data.take rxDataSize) (r := data'.take rxDataSize) (by simp [hlen])]
  · rfl

end UdpTable

namespace World

variable {p : Nat} {e : Env} {w : World}

theorem hide_handleUdpPacket (srcIp : Ip) (payload : Bytes) :
    ((w.hide p).handleUdpPacket srcIp payload).hide p = (w.handleUdpPacket srcIp payload).hide p := by
  unfold handleUdpPacket
  cases parseUdp payload with
  | none => exact hide_hide p w
  | some out =>
    obtain ⟨srcPort, dstPort, data⟩ := out
    have hdeliver := UdpTable.deliver_hide (p := p) (t := w.server.sockets) srcIp srcPort dstPort data
    unfold hide Server.hide
    dsimp only
    rw [hdeliver, TcpConn.hide_hide]

theorem hide_handlePacket (frame : Bytes) : ((w.hide p).handlePacket e frame).hide p = (w.handlePacket e frame).hide p := by
  unfold handlePacket
  cases parseEth frame with
  | none => exact hide_hide p w
  | some eth =>
    dsimp only
    split_ifs
    · rw [hide_handleArpPacket, hide_hide]
    · cases parseIpv4 eth.payload with
      | none => exact hide_hide p w
      | some packet =>
        obtain ⟨iph, payload⟩ := packet
        dsimp only
        unfold handleIpv4Packet
        split_ifs
        · exact hide_hide p w
        · rw [hide_handleIcmpPacket, hide_hide]
        · exact hide_handleUdpPacket iph.src payload
        · exact hide_handleTcpIncoming iph.src payload
        · exact hide_hide p w
    · exact hide_hide p w

/-- Packets that differ in nothing but data for `p` come to the same. -/
theorem handlePacket_same {frame frame' : Bytes} (h : SamePacket p w.server frame frame') :
    (w.handlePacket e frame).hide p = (w.handlePacket e frame').hide p := by
  rcases h with rfl | ⟨srcIp, srcPort, dstPort, data, data', i, hframe, hframe', hlen, hi, howner⟩ |
    ⟨srcIp, seg, seg', hframe, hframe', hsame, howner⟩
  · rfl
  · rw [handlePacket_udp hframe, handlePacket_udp hframe']
    have hdeliver := UdpTable.deliver_same srcIp srcPort hlen hi howner
    unfold hide Server.hide
    dsimp only
    rw [hdeliver]
  · rw [handlePacket_tcp hframe, handlePacket_tcp hframe']
    exact handleTcpIncoming_congr rfl (hsame.handleTcp howner srcIp)

theorem look_of_hide {v w : World} (h : v.hide p = w.hide p) : v.look p = w.look p := by
  rw [← look_hide, h, look_hide]

/-- A receive that finds nothing. -/
theorem handleUdpRecv_none {msg : Message} (h : w.server.sockets.pendingAt ((msg.getData 1).setWidth 16) = none) :
    w.handleUdpRecv msg = w.replyData msg.sender opNetUdpRecv 0xFFFF := by
  unfold UdpTable.pendingAt at h
  unfold handleUdpRecv UdpTable.getPending
  rw [h]

/-- The socket without its datagram. -/
def taken (w : World) (i : Fin 4) : World :=
  { w with server := { w.server with
      sockets := w.server.sockets.set i { w.server.sockets.get i with hasData := false } } }

/-- A receive that finds a datagram. -/
theorem handleUdpRecv_some {msg : Message} {i : Fin 4}
    (h : w.server.sockets.pendingAt ((msg.getData 1).setWidth 16) = some i) :
    w.handleUdpRecv msg = (w.taken i).reply msg.sender
      (udpRecvWords (w.server.sockets.get i).rxIp (w.server.sockets.get i).rxPort (w.server.sockets.get i).rxData) := by
  unfold UdpTable.pendingAt at h
  unfold handleUdpRecv UdpTable.getPending
  rw [h]
  rfl

theorem hide_taken (i : Fin 4) : (w.hide p).taken i = (w.taken i).hide p := by
  have hset := UdpTable.set_hide (p := p) (t := w.server.sockets) i { w.server.sockets.get i with hasData := false }
  unfold taken hide Server.hide
  dsimp only
  rw [← hset]
  rfl

/-- A receive by the owner. -/
theorem look_handleUdpRecv {msg : Message}
    (howned : ∀ i, w.server.sockets.pendingAt ((msg.getData 1).setWidth 16) = some i →
      (w.server.sockets.get i).ownerPid = msg.sender) :
    ((w.hide p).handleUdpRecv msg).look p = (w.handleUdpRecv msg).look p := by
  have hfirst : (w.hide p).server.sockets.pendingAt ((msg.getData 1).setWidth 16) =
      w.server.sockets.pendingAt ((msg.getData 1).setWidth 16) := UdpTable.first_hide fun _ => rfl
  cases hi : w.server.sockets.pendingAt ((msg.getData 1).setWidth 16) with
  | none =>
    rw [handleUdpRecv_none hi, handleUdpRecv_none (hfirst.trans hi), hide_replyData, look_hide]
  | some i =>
    have howner := howned i hi
    rw [handleUdpRecv_some hi, handleUdpRecv_some (hfirst.trans hi), hide_taken]
    by_cases hp : msg.sender = p
    · rw [hp, look_reply_self, look_reply_self, look_hide]
    · have hdata : ((w.hide p).server.sockets.get i).rxData = (w.server.sockets.get i).rxData :=
        blank_of_ne (by rw [howner]; exact hp) _
      rw [hdata, hide_reply, look_hide]
      rfl

/-- A receive that finds bytes. -/
theorem handleTcpRecv_some {msg : Message} (h : w.server.conn.rxBuf ≠ []) :
    w.handleTcpRecv msg =
      (w.withConn { w.server.conn with rxBuf := [] }).reply msg.sender (tcpRecvWords (w.server.conn.rxBuf.take 40)) :=
  if_pos (List.length_pos_iff.2 h)

theorem handleTcpRecv_none {msg : Message} (h : w.server.conn.rxBuf = []) :
    w.handleTcpRecv msg = w.replyData msg.sender opNetTcpRecv 0xFFFF :=
  if_neg (by rw [h]; exact Nat.lt_irrefl 0)

/-- A receive on the connection by its owner. -/
theorem look_handleTcpRecv {msg : Message} (howned : w.server.conn.rxBuf ≠ [] → w.server.conn.ownerPid = msg.sender) :
    ((w.hide p).handleTcpRecv msg).look p = (w.handleTcpRecv msg).look p := by
  have hlen : (w.hide p).server.conn.rxBuf.length = w.server.conn.rxBuf.length := length_blank ..
  by_cases h : w.server.conn.rxBuf = []
  · have h' : (w.hide p).server.conn.rxBuf = [] := by
      rw [← List.length_eq_zero_iff, hlen, h]
      rfl
    rw [handleTcpRecv_none h, handleTcpRecv_none h', hide_replyData, look_hide]
  · have h' : (w.hide p).server.conn.rxBuf ≠ [] := by
      intro hnil
      rw [← List.length_eq_zero_iff, hlen, List.length_eq_zero_iff] at hnil
      exact h hnil
    have hclear : (w.hide p).withConn { (w.hide p).server.conn with rxBuf := [] } =
        (w.withConn { w.server.conn with rxBuf := [] }).hide p := by
      rw [← hide_withConn]
      unfold TcpConn.hide
      dsimp only
      rw [blank_nil]
      rfl
    rw [handleTcpRecv_some h, handleTcpRecv_some h', hclear]
    by_cases hp : msg.sender = p
    · rw [hp, look_reply_self, look_reply_self, look_hide]
    · have hdata : (w.hide p).server.conn.rxBuf = w.server.conn.rxBuf := blank_of_ne (by rw [howned h]; exact hp) _
      rw [hdata, hide_reply, look_hide]

private theorem look_ite {c : Prop} [Decidable c] {a a' b b' : World} (ha : c → a.look p = a'.look p)
    (hb : b.look p = b'.look p) : (if c then a else b).look p = (if c then a' else b').look p := by
  by_cases hc : c
  · rw [if_pos hc, if_pos hc, ha hc]
  · rw [if_neg hc, if_neg hc, hb]

/-- What others see of a request does not depend on the data of `p`. -/
theorem look_handleIpc {msg : Message} (howned : OwnedRequest w.server msg) :
    ((w.hide p).handleIpc e msg).look p = (w.handleIpc e msg).look p := by
  unfold handleIpc
  dsimp only
  refine look_ite (fun _ => ?_) (look_ite (fun _ => ?_) (look_ite (fun _ => ?_) (look_ite (fun _ => ?_)
    (look_ite (fun hudp => ?_) (look_ite (fun _ => ?_) (look_ite (fun _ => ?_) (look_ite (fun hrecv => ?_)
      (look_ite (fun _ => ?_) ?_))))))))
  · rw [hide_replyData, look_hide]
  · rw [hide_handlePing, look_hide]
  · rw [hide_handleUdpBind, look_hide]
  · rw [hide_handleUdpSend, look_hide]
  · exact look_handleUdpRecv (howned.udpRecv hudp)
  · rw [hide_handleTcpConnect, look_hide]
  · rw [hide_handleTcpSend, look_hide]
  · exact look_handleTcpRecv (howned.tcpRecv hrecv)
  · rw [hide_handleTcpClose, hide_replyData, look_hide]
  · rw [hide_replyErr, look_hide]

end World

namespace Server

variable {p : Nat} {s t : Server} {e : Env} {op op' : NetOp}

/-- Events that look the same, of servers that look the same, look the same. -/
theorem look_handle (h : s.hide p = t.hide p) (hs : s.Owned (e, op)) (ht : t.Owned (e, op')) (hsame : SameEvent p s op op') :
    (s.handle e op).look p = (t.handle e op').look p := by
  have henter : s.enter.hide p = t.enter.hide p := congrArg Server.enter h
  cases op with
  | request msg =>
    cases hsame
    show (s.enter.handleIpc e msg).look p = (t.enter.handleIpc e msg).look p
    rw [← World.look_handleIpc (w := s.enter) (hs msg rfl), ← World.look_handleIpc (w := t.enter) (ht msg rfl), henter]
  | packet frame =>
    cases op' with
    | request msg => cases hsame
    | deadlines => cases hsame
    | packet frame' =>
      have hpacket : (s.enter.handlePacket e frame).hide p = (s.enter.handlePacket e frame').hide p :=
        World.handlePacket_same hsame
      refine World.look_of_hide (hpacket.trans ?_)
      show (s.enter.handlePacket e frame').hide p = (t.enter.handlePacket e frame').hide p
      rw [← World.hide_handlePacket (w := s.enter), ← World.hide_handlePacket (w := t.enter), henter]
  | deadlines =>
    cases hsame
    have hdeadlines : ∀ u : Server, (u.enter.hide p).checkPendingDeadlines e = (u.enter.checkPendingDeadlines e).hide p := by
      intro u
      unfold World.checkPendingDeadlines
      rw [World.hide_checkPing, World.hide_checkConnect]
    refine World.look_of_hide ?_
    show (s.enter.checkPendingDeadlines e).hide p = (t.enter.checkPendingDeadlines e).hide p
    rw [← hdeadlines s, ← hdeadlines t, henter]

end Server

/-! ### What a request leaves alone -/

theorem sentSegment_arp (dst src : Mac) (payload : Bytes) (cap : Nat) :
    sentSegment (buildEth dst src ethArp payload cap) = none := by
  by_cases hcap : 14 + payload.length ≤ cap
  · unfold sentSegment
    rw [parseEth_buildEth dst src ethArp hcap]
    rfl
  · have hnil : buildEth dst src ethArp payload cap = [] := if_pos (by omega)
    rw [hnil]
    rfl

/-- An IPv4 packet that fits carries its payload. -/
theorem sentSegment_ipFrame (w : World) (proto : Byte) (ip : Ip) (mac : Mac) {payload : Bytes} (hfits : payload.length ≤ 108) :
    sentSegment (w.ipFrame proto ip mac payload).2 = if proto = ipProtoTcp then some payload else none := by
  unfold World.ipFrame
  dsimp only
  obtain ⟨packet, hdr, heth, -, hparse, hproto, -, -⟩ :=
    ipv4_frame w.server.pktId proto ourIp ip mac w.server.mac payload (by omega)
  unfold sentSegment frameBufSize
  rw [heth]
  dsimp only
  rw [if_pos rfl, hparse]
  dsimp only
  rw [hproto]

/-- One that does not fit carries nothing. -/
theorem sentSegment_ipFrame_long (w : World) (proto : Byte) (ip : Ip) (mac : Mac) {payload : Bytes}
    (hlong : 108 < payload.length) : sentSegment (w.ipFrame proto ip mac payload).2 = none := by
  have hnil : (buildIpv4 w.server.pktId proto ourIp ip payload 128).1 = [] := by
    unfold buildIpv4
    rw [if_pos (by omega)]
  unfold World.ipFrame
  dsimp only
  rw [hnil]
  unfold sentSegment
  rw [parseEth_buildEth mac w.server.mac ethIpv4 (by decide)]
  rfl

theorem sentSegment_other {proto : Byte} (hproto : proto ≠ ipProtoTcp) (w : World) (ip : Ip) (mac : Mac) (payload : Bytes) :
    sentSegment (w.ipFrame proto ip mac payload).2 = none := by
  by_cases hfits : payload.length ≤ 108
  · rw [sentSegment_ipFrame w proto ip mac hfits, if_neg hproto]
  · exact sentSegment_ipFrame_long w proto ip mac (by omega)

/-- Between `w` and `v` the sockets stayed as they were, and no segment was sent. -/
structure World.Aside (w v : World) : Prop where
  sockets : v.server.sockets = w.server.sockets
  segments : ∀ frame, Output.frame frame ∈ v.out → Output.frame frame ∈ w.out ∨ sentSegment frame = none

namespace World.Aside

variable {e : Env} {u v w : World}

theorem refl (w : World) : Aside w w := ⟨rfl, fun _ h => .inl h⟩

theorem trans (h : Aside u v) (h' : Aside v w) : Aside u w := by
  refine ⟨h'.sockets.trans h.sockets, fun frame hframe => ?_⟩
  rcases h'.segments frame hframe with hold | hnone
  · exact h.segments frame hold
  · exact .inr hnone

theorem reply (w : World) (pid : Nat) (data : Vector Word dataFields) : Aside w (w.reply pid data) := by
  refine ⟨rfl, fun frame hframe => ?_⟩
  rcases List.mem_append.1 hframe with hold | hnew
  · exact .inl hold
  · cases List.mem_singleton.1 hnew

theorem replyData (w : World) (pid : Nat) (op val : Word) : Aside w (w.replyData pid op val) := reply ..

theorem withPing (w : World) (ping : PingSm) : Aside w (w.withPing ping) := ⟨rfl, fun _ h => .inl h⟩

theorem sendPacket {f : Bytes} (h : sentSegment f = none) (e : Env) (w : World) : Aside w (w.sendPacket e f).1 := by
  refine ⟨rfl, fun frame hframe => ?_⟩
  rcases List.mem_append.1 hframe with hold | hnew
  · exact .inl hold
  · cases List.mem_singleton.1 hnew
    exact .inr h

theorem sendFrame {f : Bytes} (h : sentSegment f = none) (e : Env) (w : World) : Aside w (w.sendFrame e f).1 := by
  unfold World.sendFrame
  split
  · exact refl w
  · exact sendPacket h e w

theorem sendIp {proto : Byte} (hproto : proto ≠ ipProtoTcp) (e : Env) (w : World) (ip : Ip) (mac : Mac) (payload : Bytes) :
    Aside w ((w.ipFrame proto ip mac payload).1.sendFrame e (w.ipFrame proto ip mac payload).2).1 :=
  have hstart : Aside w (w.ipFrame proto ip mac payload).1 := ⟨rfl, fun _ h => .inl h⟩
  hstart.trans (sendFrame (sentSegment_other hproto w ip mac payload) e _)

theorem resolveMac (e : Env) (w : World) (ip : Ip) : Aside w (w.resolveMac e ip).1 := by
  unfold World.resolveMac
  split
  · exact refl w
  · exact sendFrame (sentSegment_arp ..) e w

theorem handlePing (e : Env) (w : World) (msg : Message) : Aside w (w.handlePing e msg) := by
  unfold World.handlePing
  dsimp only
  split
  · exact replyData ..
  · split
    · have hsend : ∀ (v : World) (ip : Ip) (mac : Mac), Aside v (v.buildAndSendIcmpRequest e ip mac).1 :=
        fun v ip mac => sendIp (by decide) e v ip mac _
      split
      · exact ((withPing w _).trans (hsend ..)).trans (withPing ..)
      · exact ((withPing w _).trans (hsend ..)).trans (replyData ..)
    · split
      · exact replyData ..
      · exact (sendPacket (sentSegment_arp ..) e w).trans (withPing ..)

theorem handleUdpSend (e : Env) (w : World) (msg : Message) : Aside w (w.handleUdpSend e msg) := by
  have hresolve := resolveMac e w (toLeBytes ((msg.getData 1).setWidth 32))
  unfold World.handleUdpSend
  dsimp only
  generalize w.resolveMac e (toLeBytes ((msg.getData 1).setWidth 32)) = out at hresolve ⊢
  obtain ⟨v, mac⟩ := out
  cases mac with
  | none => exact hresolve.trans (replyData ..)
  | some mac =>
    dsimp only
    split
    · exact (hresolve.trans (sendIp (by decide) e v _ mac _)).trans (replyData ..)
    · exact (hresolve.trans (sendIp (by decide) e v _ mac _)).trans (replyData ..)

end World.Aside

namespace World

variable {e : Env} {w : World}

@[simp] theorem sockets_withConn (w : World) (conn : TcpConn) : (w.withConn conn).server.sockets = w.server.sockets := rfl

@[simp] theorem sockets_replyData (w : World) (pid : Nat) (op val : Word) :
    (w.replyData pid op val).server.sockets = w.server.sockets := rfl

@[simp] theorem sockets_sendFrame (e : Env) (w : World) (f : Bytes) : (w.sendFrame e f).1.server.sockets = w.server.sockets := by
  unfold sendFrame
  split <;> rfl

@[simp] theorem sockets_sendTcpPacket (e : Env) (w : World) (ip : Ip) (mac : Mac) (sp dp : BitVec 16) (seq ack : BitVec 32)
    (flags : Byte) (window : BitVec 16) (p : Bytes) :
    (w.sendTcpPacket e ip mac sp dp seq ack flags window p).server.sockets = w.server.sockets := by
  unfold sendTcpPacket
  dsimp only
  split
  · rfl
  · rw [sockets_sendFrame]
    rfl

@[simp] theorem sockets_resolveMac (e : Env) (w : World) (ip : Ip) :
    (w.resolveMac e ip).1.server.sockets = w.server.sockets := (Aside.resolveMac e w ip).sockets

@[simp] theorem sockets_tcpSmSendSyn (e : Env) (w : World) (ip : Ip) (mac : Mac) :
    (w.tcpSmSendSyn e ip mac).1.server.sockets = w.server.sockets := by
  unfold tcpSmSendSyn
  dsimp only
  rw [sockets_sendFrame]
  rfl

theorem sockets_handleTcpConnect (e : Env) (w : World) (msg : Message) :
    (w.handleTcpConnect e msg).server.sockets = w.server.sockets := by
  unfold handleTcpConnect
  dsimp only
  split
  · rfl
  · split
    · rfl
    · generalize hv : w.withConn _ = v
      have hsockets : v.server.sockets = w.server.sockets := by rw [← hv]; rfl
      have hresolve := sockets_resolveMac e v (toLeBytes ((msg.getData 1).setWidth 32))
      generalize v.resolveMac e (toLeBytes ((msg.getData 1).setWidth 32)) = out at hresolve ⊢
      obtain ⟨u, mac⟩ := out
      have hu : u.server.sockets = w.server.sockets := hresolve.trans hsockets
      cases mac with
      | none => exact hu
      | some mac =>
        have hsyn := sockets_tcpSmSendSyn e u (toLeBytes ((msg.getData 1).setWidth 32)) mac
        dsimp only
        generalize u.tcpSmSendSyn e (toLeBytes ((msg.getData 1).setWidth 32)) mac = syn at hsyn ⊢
        split
        · exact hsyn.trans hu
        · exact hsyn.trans hu

theorem sockets_handleTcpSend (e : Env) (w : World) (msg : Message) :
    (w.handleTcpSend e msg).server.sockets = w.server.sockets := by
  unfold handleTcpSend
  dsimp only
  split
  · rfl
  · split
    · rfl
    · rw [sockets_replyData, sockets_sendTcpPacket, sockets_withConn]

theorem sockets_handleTcpRecv (w : World) (msg : Message) : (w.handleTcpRecv msg).server.sockets = w.server.sockets := by
  unfold handleTcpRecv
  dsimp only
  split <;> rfl

theorem sockets_handleTcpClose (e : Env) (w : World) : (w.handleTcpClose e).server.sockets = w.server.sockets := by
  unfold handleTcpClose
  dsimp only
  rw [sockets_withConn]
  split
  · rw [sockets_sendTcpPacket, sockets_withConn]
  · rfl

/-- A port is bound in a socket that is not in use. -/
theorem sockets_handleUdpBind (w : World) (msg : Message) {i : Fin 4} (h : (w.server.sockets.get i).active = true) :
    (w.handleUdpBind msg).server.sockets.get i = w.server.sockets.get i := by
  show (w.server.sockets.bind ((msg.getData 1).setWidth 16) msg.sender).1.get i = _
  unfold UdpTable.bind
  split
  · rfl
  · split
    · rfl
    · rename_i j hj
      have hfree := Slots.first_spec hj
      refine Slots.get_set_of_ne _ (fun hij => ?_) _
      rw [← hij, h] at hfree
      cases hfree

/-- A connect is refused while the connection is open. -/
theorem handleTcpConnect_open (e : Env) (msg : Message) (h : w.server.conn.state ≠ .closed) :
    w.handleTcpConnect e msg = w.replyData msg.sender opNetTcpConnect 0xFF := by
  unfold handleTcpConnect
  dsimp only
  rw [TcpConn.connect_open h]
  dsimp only
  rw [if_pos rfl]
  split <;> rfl

/-- A send is refused on a connection that is not established. -/
theorem handleTcpSend_refused (e : Env) (msg : Message)
    (h : ¬ (w.server.conn.state = .established ∧ (lookupMac w.server.arpTable w.server.conn.remoteIp).isSome = true)) :
    w.handleTcpSend e msg = w.replyErr msg.sender opNetTcpSend := by
  unfold handleTcpSend
  dsimp only
  split
  · rfl
  · rename_i hstate
    rw [not_not] at hstate
    split
    · rfl
    · rename_i mac hmac
      exact absurd ⟨hstate, by rw [hmac]; rfl⟩ h

theorem length_fillTcpChecksum (src dst : Ip) (seg : Bytes) : (fillTcpChecksum src dst seg).length = seg.length := by
  unfold fillTcpChecksum
  split
  · rfl
  · simp
    omega

/-- A short segment is sent. -/
theorem sendTcpPacket_sends (e : Env) (w : World) (ip : Ip) (mac : Mac) (sp dp : BitVec 16) (seq ack : BitVec 32) (flags : Byte)
    (window : BitVec 16) {payload : Bytes} (hshort : payload.length ≤ 40) :
    ∃ frame, Output.frame frame ∈ (w.sendTcpPacket e ip mac sp dp seq ack flags window payload).out ∧
      sentSegment frame ≠ none := by
  have hbuild : (buildTcp sp dp seq ack flags window payload 80).length = 20 + payload.length := by
    unfold buildTcp
    rw [if_neg (by omega), List.length_append]
    rfl
  have hfits : (fillTcpChecksum ourIp ip (buildTcp sp dp seq ack flags window payload 80)).length ≤ 108 := by
    rw [length_fillTcpChecksum, hbuild]
    omega
  have hsome := sentSegment_ipFrame w ipProtoTcp ip mac hfits
  rw [if_pos rfl] at hsome
  unfold sendTcpPacket
  dsimp only
  rw [if_neg (by rw [← List.length_eq_zero_iff, hbuild]; omega)]
  generalize w.ipFrame ipProtoTcp ip mac (fillTcpChecksum ourIp ip (buildTcp sp dp seq ack flags window payload 80)) = out
    at hsome ⊢
  refine ⟨out.2, ?_, by rw [hsome]; exact Option.some_ne_none _⟩
  unfold sendFrame
  rw [if_neg (fun hnil => by rw [hnil] at hsome; cases hsome)]
  exact List.mem_append_right _ (List.mem_singleton_self _)

/-- Any other send puts a segment on the wire. -/
theorem handleTcpSend_sends (e : Env) (msg : Message) (hstate : w.server.conn.state = .established)
    (hmac : (lookupMac w.server.arpTable w.server.conn.remoteIp).isSome = true) :
    ∃ frame, Output.frame frame ∈ (w.handleTcpSend e msg).out ∧ sentSegment frame ≠ none := by
  obtain ⟨mac, hmac⟩ := Option.isSome_iff_exists.1 hmac
  unfold handleTcpSend
  dsimp only
  rw [if_neg (not_not.2 hstate), hmac]
  dsimp only
  generalize hpayload : (unpackWords (payloadWords msg) 40).take (min (msg.getData 2).toNat 40) = payload
  have hshort : payload.length ≤ 40 := by
    rw [← hpayload, List.length_take]
    omega
  obtain ⟨frame, hframe, hseg⟩ := sendTcpPacket_sends e
    (w.withConn { w.server.conn with seq := w.server.conn.seq + BitVec.ofNat 32 payload.length }) w.server.conn.remoteIp mac
    w.server.conn.localPort w.server.conn.remotePort w.server.conn.seq w.server.conn.ack (tcpAck ||| tcpPsh) 65535 hshort
  exact ⟨frame, List.mem_append_left _ hframe, hseg⟩

/-- Which handler takes the request, with what the others leave alone. -/
theorem handleIpc_owner_cases (e : Env) (w : World) (msg : Message) :
    (msg.getData 0 = opNetUdpBind ∧ w.handleIpc e msg = w.handleUdpBind msg) ∨
    (msg.getData 0 = opNetUdpRecv ∧ w.handleIpc e msg = w.handleUdpRecv msg) ∨
    (msg.getData 0 = opNetTcpConnect ∧ w.handleIpc e msg = w.handleTcpConnect e msg) ∨
    (msg.getData 0 = opNetTcpSend ∧ w.handleIpc e msg = w.handleTcpSend e msg) ∨
    (msg.getData 0 = opNetTcpRecv ∧ w.handleIpc e msg = w.handleTcpRecv msg) ∨
    (msg.getData 0 = opNetTcpClose ∧ w.handleIpc e msg = (w.handleTcpClose e).replyData msg.sender opNetTcpClose 0) ∨
    ((msg.getData 0 ≠ opNetUdpRecv ∧ msg.getData 0 ≠ opNetTcpSend ∧ msg.getData 0 ≠ opNetTcpRecv ∧
        msg.getData 0 ≠ opNetTcpClose) ∧
      (w.handleIpc e msg).connectSide = w.connectSide ∧ Aside w (w.handleIpc e msg)) := by
  by_cases hbind : msg.getData 0 = opNetUdpBind
  · refine .inl ⟨hbind, ?_⟩
    unfold handleIpc
    dsimp only
    rw [hbind]
    rfl
  by_cases hudp : msg.getData 0 = opNetUdpRecv
  · refine .inr (.inl ⟨hudp, ?_⟩)
    unfold handleIpc
    dsimp only
    rw [hudp]
    rfl
  by_cases hudpSend : msg.getData 0 = opNetUdpSend
  · have heq : w.handleIpc e msg = w.handleUdpSend e msg := by
      unfold handleIpc
      dsimp only
      rw [hudpSend]
      rfl
    rw [heq, hudpSend]
    exact .inr (.inr (.inr (.inr (.inr (.inr ⟨by decide, connectSide_handleUdpSend .., Aside.handleUdpSend ..⟩)))))
  rcases handleIpc_cases e w msg with
    ⟨hop, heq⟩ | ⟨hop, heq⟩ | ⟨hop, heq⟩ | ⟨hop, heq⟩ | ⟨hop, heq⟩ | ⟨hping, hconnect, hclose, hside, -⟩
  · rw [heq, hop]
    exact .inr (.inr (.inr (.inr (.inr (.inr ⟨by decide, connectSide_handlePing .., Aside.handlePing ..⟩)))))
  · exact .inr (.inr (.inl ⟨hop, heq⟩))
  · exact .inr (.inr (.inr (.inl ⟨hop, heq⟩)))
  · exact .inr (.inr (.inr (.inr (.inl ⟨hop, heq⟩))))
  · exact .inr (.inr (.inr (.inr (.inr (.inl ⟨hop, heq⟩)))))
  · by_cases hsend : msg.getData 0 = opNetTcpSend
    · refine .inr (.inr (.inr (.inl ⟨hsend, ?_⟩)))
      unfold handleIpc
      dsimp only
      rw [hsend]
      rfl
    by_cases hrecv : msg.getData 0 = opNetTcpRecv
    · exact .inr (.inr (.inr (.inr (.inl ⟨hrecv, handleIpc_tcpRecv hrecv⟩))))
    refine .inr (.inr (.inr (.inr (.inr (.inr ⟨⟨hudp, hsend, hrecv, hclose⟩, hside, ?_⟩)))))
    unfold handleIpc replyErr
    dsimp only
    rw [if_neg hping, if_neg hbind, if_neg hudpSend, if_neg hudp, if_neg hconnect, if_neg hsend, if_neg hrecv, if_neg hclose]
    split
    · exact Aside.replyData ..
    · exact Aside.replyData ..

end World

/-! ### The runs -/

namespace Server

variable {s y : Server} {e : Env} {msg : Message} {out : List Output}

/-- No bytes wait on a closed connection. -/
def Clear (s : Server) : Prop := s.conn.state = .closed → s.conn.rxBuf = []

/-- A request that stays aside leaves others alone. -/
private theorem respects_of_aside {w : World} (hside : w.connectSide = s.enter.connectSide) (haside : World.Aside s.enter w) :
    RespectsOthers s msg w.server w.out := by
  refine ⟨fun i _ _ => by rw [haside.sockets]; rfl, fun _ _ => ⟨congrArg ConnectSide.conn hside, fun frame hframe => ?_⟩⟩
  exact (haside.segments frame hframe).resolve_left fun hold => nomatch hold

/-- A request that is only answered. -/
private theorem respects_of_replyData (pid : Nat) (op val : Word) :
    (s.enter.replyData pid op val).server.conn = s.conn ∧
      ∀ frame, Output.frame frame ∈ (s.enter.replyData pid op val).out → sentSegment frame = none :=
  ⟨rfl, fun frame hframe => ((World.Aside.replyData s.enter pid op val).segments frame hframe).resolve_left fun hold => nomatch hold⟩

/-- The owner's requests leave others alone. -/
theorem respects_of_owned (howned : OwnedRequest s msg) :
    RespectsOthers s msg (s.enter.handleIpc e msg).server (s.enter.handleIpc e msg).out := by
  rcases World.handleIpc_owner_cases e s.enter msg with
    ⟨-, heq⟩ | ⟨hop, heq⟩ | ⟨-, heq⟩ | ⟨hop, heq⟩ | ⟨hop, heq⟩ | ⟨hop, heq⟩ | ⟨-, hside, haside⟩
  · rw [heq]
    refine ⟨fun i hactive _ => World.sockets_handleUdpBind s.enter msg hactive, fun _ _ => ⟨rfl, fun frame hframe => ?_⟩⟩
    cases List.mem_singleton.1 hframe
  · rw [heq]
    cases hi : s.sockets.pendingAt ((msg.getData 1).setWidth 16) with
    | none =>
      rw [World.handleUdpRecv_none hi]
      exact ⟨fun _ _ _ => rfl, fun _ _ => respects_of_replyData ..⟩
    | some i =>
      rw [World.handleUdpRecv_some hi]
      refine ⟨fun j _ hother => ?_, fun _ _ => ⟨rfl, fun frame hframe => ?_⟩⟩
      · refine Slots.get_set_of_ne _ (fun hji => hother ?_) _
        rw [hji]
        exact howned.udpRecv hop i hi
      · cases List.mem_singleton.1 hframe
  · rw [heq]
    refine ⟨fun i _ _ => by rw [World.sockets_handleTcpConnect]; rfl, fun hopen _ => ?_⟩
    rw [World.handleTcpConnect_open e msg hopen]
    exact respects_of_replyData ..
  · rw [heq]
    refine ⟨fun i _ _ => by rw [World.sockets_handleTcpSend]; rfl, fun _ hother => ?_⟩
    rw [World.handleTcpSend_refused e msg fun h => hother (howned.tcpSend hop h.1 h.2)]
    exact respects_of_replyData ..
  · rw [heq]
    refine ⟨fun i _ _ => by rw [World.sockets_handleTcpRecv]; rfl, fun _ hother => ?_⟩
    rw [World.handleTcpRecv_none (not_not.1 fun h => hother (howned.tcpRecv hop h))]
    exact respects_of_replyData ..
  · rw [heq]
    refine ⟨fun i _ _ => ?_, fun hopen hother => absurd (howned.tcpClose hop hopen) hother⟩
    show (s.enter.handleTcpClose e).server.sockets.get i = _
    rw [World.sockets_handleTcpClose]
    rfl
  · exact respects_of_aside hside haside

/-- A request that leaves others alone is the owner's. -/
theorem owned_of_respects (hclear : s.Clear)
    (h : RespectsOthers s msg (s.enter.handleIpc e msg).server (s.enter.handleIpc e msg).out) : OwnedRequest s msg := by
  refine ⟨fun hop i hi => ?_, fun hop hstate hmac => ?_, fun hop hdata => ?_, fun hop hopen => ?_⟩
  · by_contra hother
    have heq : s.enter.handleIpc e msg = s.enter.handleUdpRecv msg := by
      unfold World.handleIpc
      dsimp only
      rw [hop]
      rfl
    have hspec := Slots.first_spec hi
    rw [Bool.and_eq_true] at hspec
    obtain ⟨hbound, hhas⟩ := hspec
    unfold UdpSocket.isBound at hbound
    rw [Bool.and_eq_true] at hbound
    have hsame := h.sockets i hbound.1 hother
    rw [heq, World.handleUdpRecv_some hi] at hsame
    have htaken : (Slots.set s.sockets i { s.sockets.get i with hasData := false }).get i = s.sockets.get i := hsame
    rw [Slots.get_set_self] at htaken
    rw [← htaken] at hhas
    cases hhas
  · by_contra hother
    have heq : s.enter.handleIpc e msg = s.enter.handleTcpSend e msg := by
      unfold World.handleIpc
      dsimp only
      rw [hop]
      rfl
    obtain ⟨frame, hframe, hseg⟩ := World.handleTcpSend_sends (w := s.enter) e msg hstate hmac
    have hopen : s.conn.state ≠ .closed := by
      rw [hstate]
      exact TcpState.noConfusion
    rw [heq] at h
    exact hseg ((h.conn hopen hother).2 frame hframe)
  · by_contra hother
    have hopen : s.conn.state ≠ .closed := fun hclosed => hdata (hclear hclosed)
    have hsame := (h.conn hopen hother).1
    rw [World.handleIpc_tcpRecv hop, World.conn_handleTcpRecv] at hsame
    exact hdata (congrArg TcpConn.rxBuf hsame).symm
  · by_contra hother
    have heq : s.enter.handleIpc e msg = (s.enter.handleTcpClose e).replyData msg.sender opNetTcpClose 0 := by
      unfold World.handleIpc
      dsimp only
      rw [hop]
      rfl
    have hsame := (h.conn hopen hother).1
    rw [heq] at hsame
    have hstate := congrArg TcpConn.state hsame
    exact hopen hstate.symm

theorem respects_iff (hclear : s.Clear) (op : Env × NetOp) : s.Respects op ↔ s.Owned op := by
  constructor
  · intro h msg hop
    obtain ⟨e, op⟩ := op
    cases hop
    exact owned_of_respects hclear (h _ _ rfl msg rfl)
  · intro h y out hstep msg hop
    obtain ⟨e, op⟩ := op
    cases hop
    cases hstep
    exact respects_of_owned (h msg rfl)

/-- A segment ends the connection, or leaves it alone, or leaves it established. -/
private theorem handleTcp_outcome (conn : TcpConn) (srcIp : Ip) (g : Bytes) :
    (handleTcp conn srcIp g).2 = some .reset ∨ (handleTcp conn srcIp g).2 = some .closed ∨
      (handleTcp conn srcIp g).1 = conn ∨ (handleTcp conn srcIp g).1.state = .established := by
  by_cases haccepts : conn.accepts srcIp g = true
  · rw [handleTcp_of_accepts haccepts]
    unfold TcpConn.receive
    cases hstate : conn.state with
    | synSent =>
      dsimp only
      split_ifs
      · exact .inr (.inr (.inr rfl))
      · exact .inl rfl
      · exact .inr (.inr (.inl rfl))
    | established =>
      dsimp only
      split_ifs
      · exact .inl rfl
      · exact .inr (.inl rfl)
      · exact .inr (.inr (.inr rfl))
      · exact .inr (.inr (.inl rfl))
    | finWait1 =>
      dsimp only
      split_ifs
      · exact .inr (.inl rfl)
      · exact .inr (.inl rfl)
      · exact .inr (.inr (.inl rfl))
    | closeWait => exact .inr (.inr (.inl rfl))
    | closed => exact .inr (.inr (.inl rfl))
  · rw [handleTcp_of_not_accepts haccepts]
    exact .inr (.inr (.inl rfl))

/-- What a closed connection holds depends on the connection only, and not on its sequence number. -/
private theorem Clear.of_seq {t : Server} (h : s.Clear) {seq : BitVec 32} (hconn : t.conn = { s.conn with seq := seq }) :
    t.Clear := by
  intro hclosed
  rw [hconn] at hclosed ⊢
  exact h hclosed

private theorem Clear.of_conn {t : Server} (h : s.Clear) (hconn : t.conn = s.conn) : t.Clear := by
  have hseq : t.conn = { s.conn with seq := s.conn.seq } := hconn
  exact h.of_seq hseq

private theorem clear_handleTcpConnect (e : Env) (msg : Message) {w : World} (h : w.server.Clear) :
    (w.handleTcpConnect e msg).server.Clear := by
  rcases World.handleTcpConnect_cases e w msg with
    ⟨v, hv, heq⟩ | ⟨-, v, v', -, -, -, hstate, -, -, hsyn, heq | ⟨sm, -, -, -, -, -, heq⟩⟩
  · rw [heq]
    exact h.of_conn (congrArg ConnectSide.conn hv)
  · rw [heq]
    exact fun _ => rfl
  · obtain ⟨seq, hconn⟩ := hsyn.conn
    rw [heq]
    intro hclosed
    have hstate' : v'.server.conn.state = .closed := hclosed
    rw [hconn] at hstate'
    exact absurd (hstate.symm.trans hstate') TcpState.noConfusion

private theorem clear_resumeConnect (e : Env) {w : World} (h : w.server.Clear) : (w.resumeConnect e).server.Clear := by
  rcases World.resumeConnect_cases e w with heq | ⟨-, v, hsyn, ⟨mac, heq⟩ | heq⟩
  · rw [heq]
    exact h
  · obtain ⟨seq, hconn⟩ := hsyn.conn
    rw [heq]
    exact h.of_seq (t := v.server) hconn
  · rw [heq]
    exact fun _ => rfl

private theorem clear_handleTcpIncoming (e : Env) (srcIp : Ip) (seg : Bytes) {w : World} (h : w.server.Clear) :
    (w.handleTcpIncoming e srcIp seg).server.Clear := by
  have hconn := World.conn_handleTcpIncoming e w srcIp seg
  intro hclosed
  rw [hconn] at hclosed ⊢
  rcases handleTcp_outcome w.server.conn srcIp seg with hev | hev | hkept | hest
  · rw [hev]
    rfl
  · rw [hev]
    rfl
  · rw [hkept] at hclosed ⊢
    split
    · rfl
    · rfl
    · rename_i hreset hfin
      split at hclosed
      · exact absurd (by assumption) (hreset ·)
      · exact absurd (by assumption) (hfin ·)
      · exact h hclosed
  · split
    · rfl
    · rfl
    · rename_i hreset hfin
      split at hclosed
      · exact absurd (by assumption) (hreset ·)
      · exact absurd (by assumption) (hfin ·)
      · rw [hest] at hclosed
        cases hclosed

private theorem clear_request (h : s.Clear) (e : Env) (msg : Message) : (s.enter.handleIpc e msg).server.Clear := by
  rcases World.handleIpc_cases e s.enter msg with
    ⟨-, heq⟩ | ⟨-, heq⟩ | ⟨-, heq⟩ | ⟨-, heq⟩ | ⟨-, heq⟩ | ⟨-, -, -, heq, -⟩
  · rw [heq]
    exact h.of_conn (congrArg ConnectSide.conn (World.connectSide_handlePing e s.enter msg))
  · rw [heq]
    exact clear_handleTcpConnect e msg h
  · obtain ⟨seq, hside⟩ := World.connectSide_handleTcpSend e s.enter msg
    rw [heq]
    exact h.of_seq (congrArg ConnectSide.conn hside)
  · rw [heq]
    intro _
    rw [World.conn_handleTcpRecv]
  · rw [heq]
    exact fun _ => rfl
  · exact h.of_conn (congrArg ConnectSide.conn heq)

private theorem clear_packet (h : s.Clear) (e : Env) (frame : Bytes) : (s.enter.handlePacket e frame).server.Clear := by
  rcases World.handlePacket_cases e s.enter frame with ⟨srcIp, seg, -, heq⟩ | ⟨-, payload, heq⟩ | ⟨-, heq, -, -⟩
  · rw [heq]
    exact clear_handleTcpIncoming e srcIp seg h
  · have hside : ((s.enter.answerArp e payload).resumePing e).connectSide = s.enter.connectSide := by
      rw [World.connectSide_resumePing, World.connectSide_answerArp]
    rw [heq]
    exact clear_resumeConnect e (h.of_conn (congrArg ConnectSide.conn hside))
  · exact h.of_conn (congrArg ConnectSide.conn heq)

/-- Every event leaves a closed connection without bytes. -/
theorem clear_handle (h : s.Clear) (e : Env) (op : NetOp) : (s.handle e op).server.Clear := by
  cases op with
  | request msg => exact clear_request h e msg
  | packet frame => exact clear_packet h e frame
  | deadlines =>
    show ((s.enter.checkPing e).checkConnect e).server.Clear
    unfold World.checkConnect
    dsimp only
    split
    · exact fun _ => rfl
    · exact h.of_conn (congrArg ConnectSide.conn (World.connectSide_checkPing e s.enter))

/-- Both runs meet the condition, and their events differ in nothing but data for process `p`. -/
def PairOwned (p : Nat) (s : Server × Server) (i : (Env × NetOp) × (Env × NetOp)) : Prop :=
  s.1.Owned i.1 ∧ s.2.Owned i.2 ∧ i.1.1 = i.2.1 ∧ SameEvent p s.1 i.1.2 i.2.2

/-- Requests leave the sockets and the connection of others alone exactly when they are the owner's; and if all are, what others
than `p` get does not depend on the data for `p`. -/
theorem owners_respected (mac : Mac) (es : List ((Env × NetOp) × List Output)) (y : Server) :
    (Run step Respects (boot mac) es y ↔ Run step Owned (boot mac) es y) ∧
    ∀ (p : Nat) (fs : List (((Env × NetOp) × (Env × NetOp)) × (List Output × List Output))) (z : Server × Server),
      Run (pairStep step) (PairOwned p) (boot mac, boot mac) fs z → ∀ f ∈ fs, others p f.2.1 = others p f.2.2 := by
  constructor
  · refine Run.iff_of_invariant (P := Clear) (fun _ => rfl) (fun hclear _ => respects_iff hclear _) ?_
    intro t u i r hclear _ hstep
    cases hstep
    exact clear_handle hclear i.1 i.2
  · intro p fs z hrun
    refine (unwinding (R := fun s : Server × Server => s.1.hide p = s.2.hide p) ?_ hrun rfl).2
    rintro ⟨s₁, s₂⟩ ⟨t₁, t₂⟩ ⟨⟨e₁, op₁⟩, ⟨e₂, op₂⟩⟩ ⟨r₁, r₂⟩ hrel ⟨howned₁, howned₂, henv, hsame⟩ hstep₁ hstep₂
    cases henv
    cases hstep₁
    cases hstep₂
    have hlook := look_handle hrel howned₁ howned₂ hsame
    exact ⟨congrArg Prod.fst hlook, congrArg Prod.snd hlook⟩

/-- Process 5 binds port 53, and a datagram with one byte comes in. -/
def boundSocket : List (Env × NetOp) :=
  [(Reordering.quietEnv, .request ⟨5, #v[opNetUdpBind, 53, 0, 0, 0, 0, 0, 0]⟩),
    (Reordering.quietEnv, .packet (buildEth (Vector.replicate 6 0) (Vector.replicate 6 1) ethIpv4
      (buildIpv4 0 ipProtoUdp Reordering.gatewayIp ourIp (buildUdp 1000 53 [42] 64) 128).1 frameBufSize))]

/-- Process 6 receives at the port. -/
def foreignRecv : Env × NetOp := (Reordering.quietEnv, .request ⟨6, #v[opNetUdpRecv, 53, 0, 0, 0, 0, 0, 0]⟩)

/-- The datagram is taken, and its byte is answered to process 6. -/
theorem datagram_taken : ∃ mac es y, Run step (fun _ _ => True) (boot mac) es y ∧ ¬ y.Respects foreignRecv ∧
    ∃ data, Output.reply 6 data ∈ (y.handle foreignRecv.1 foreignRecv.2).out ∧ data[3] = 42 := by
  have hexec : (exec step (fun _ _ => True) (boot (Vector.replicate 6 0)) boundSocket).any (fun out =>
      decide ((out.1.sockets.get 0).active = true ∧ (out.1.sockets.get 0).ownerPid = 5 ∧
        (out.1.sockets.get 0).hasData = true ∧
        ((out.1.handle foreignRecv.1 foreignRecv.2).server.sockets.get 0).hasData = false ∧
        (out.1.handle foreignRecv.1 foreignRecv.2).out =
          [.reply 6 (World.udpRecvWords #v[10, 0, 2, 2] 1000 [42])])) = true := by
    decide
  obtain ⟨⟨y, es⟩, hrun, hout⟩ := (Option.any_eq_true _ _).1 hexec
  obtain ⟨hactive, howner, hhas, htaken, hreply⟩ := of_decide_eq_true hout
  refine ⟨_, es, y, run_of_exec hrun, fun h => ?_, World.udpRecvWords #v[10, 0, 2, 2] 1000 [42], ?_, by decide⟩
  · have hsame := (h _ _ rfl _ rfl).sockets 0 hactive (by rw [howner]; decide)
    rw [hsame, hhas] at htaken
    cases htaken
  · rw [hreply]
    exact List.mem_singleton_self _

end Server

end Rost.Net
