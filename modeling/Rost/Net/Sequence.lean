import Rost.Net.Server

/-!
# Sequence numbers

A segment fits if it acknowledges our SYN, or begins at the byte that is expected next.  The connection looks at neither
number: it keeps to them exactly when the segments do (`inSequence_iff`), and the buffer is a prefix of the peer's stream as
long as every part of it that comes in is the next one (`Reordering.segments_fit`).
-/

namespace Rost.Net

open Lib (Run exec run_of_exec)
open Segment

/-- A segment in an IPv4 packet, which is at most 65535 bytes long. -/
structure TcpSegment where
  bytes : Bytes
  short : bytes.length < 2 ^ 16

/-! ### One segment -/

/-- The number after our SYN. -/
def afterSyn : BitVec 32 := initialSeq + 1

/-- The segment carries data or a FIN. -/
def isDataOrFin (buf : Bytes) : Bool := has buf tcpFin || payload buf != []

/-- A handshake is completed only by the acknowledgement of our SYN, and data or a FIN change the connection only if they
begin at the byte that is expected. -/
def InSequence (conn : TcpConn) (srcIp : Ip) (buf : Bytes) : Prop :=
  let out := (handleTcp conn srcIp buf).1
  (conn.state = .synSent → out.state = .established → ackNum buf = afterSyn) ∧
    (conn.state = .established → isDataOrFin buf = true →
      (out.rxBuf ≠ conn.rxBuf ∨ out.ack ≠ conn.ack ∨ out.state ≠ conn.state) → seqNum buf = conn.ack)

/-- The segment, if it is accepted, has the right numbers. -/
def Numbered (conn : TcpConn) (srcIp : Ip) (buf : Bytes) : Prop :=
  conn.accepts srcIp buf = true →
    (conn.state = .synSent → isSynAck buf = true → ackNum buf = afterSyn) ∧
    (conn.state = .established → isDataOrFin buf = true → seqNum buf = conn.ack)

variable {conn : TcpConn} {srcIp : Ip} {buf : Bytes}

theorem handleTcp_of_accepts (h : conn.accepts srcIp buf = true) : handleTcp conn srcIp buf = conn.receive buf := if_pos h

theorem handleTcp_of_not_accepts (h : ¬ conn.accepts srcIp buf = true) : handleTcp conn srcIp buf = (conn, none) := if_neg h

/-- A handshake is completed by any SYN with an ACK. -/
theorem receive_synSent (hstate : conn.state = .synSent) :
    (conn.receive buf).1.state = .established ↔ isSynAck buf = true := by
  unfold TcpConn.receive
  rw [hstate]
  dsimp only
  split
  · rename_i hsyn
    exact ⟨fun _ => hsyn, fun _ => rfl⟩
  · rename_i hsyn
    refine ⟨fun h => ?_, fun h => absurd h hsyn⟩
    split at h
    · cases h
    · rw [hstate] at h
      cases h

theorem receive_data (hstate : conn.state = .established) (hrst : has buf tcpRst = false) (hfin : has buf tcpFin = false)
    (hdata : payload buf ≠ []) :
    conn.receive buf =
      ({ conn with
         rxBuf := conn.rxBuf ++ (payload buf).take (rxBufSize - conn.rxBuf.length)
         ack := conn.ack + BitVec.ofNat 32 (payload buf).length }, some .dataReceived) := by
  unfold TcpConn.receive
  rw [hstate]
  dsimp only
  rw [hrst, if_neg Bool.false_ne_true, hfin, if_neg Bool.false_ne_true, if_pos hdata]

theorem receive_fin (hstate : conn.state = .established) (hrst : has buf tcpRst = false) (hfin : has buf tcpFin = true) :
    conn.receive buf = ({ conn with ack := seqNum buf + 1, state := .closeWait }, some .closed) := by
  unfold TcpConn.receive
  rw [hstate]
  dsimp only
  rw [hrst, if_neg Bool.false_ne_true, if_pos hfin]

theorem receive_reset (hstate : conn.state = .established) (hrst : has buf tcpRst = true) :
    conn.receive buf = ({ conn with state := .closed }, some .reset) := by
  unfold TcpConn.receive
  rw [hstate]
  dsimp only
  rw [if_pos hrst]

/-- A bare acknowledgement. -/
theorem receive_idle (hstate : conn.state = .established) (hrst : has buf tcpRst = false) (hfin : has buf tcpFin = false)
    (hdata : payload buf = []) : conn.receive buf = (conn, none) := by
  unfold TcpConn.receive
  rw [hstate]
  dsimp only
  rw [hrst, if_neg Bool.false_ne_true, hfin, if_neg Bool.false_ne_true, if_neg (not_not.2 hdata)]

/-- Data are taken only in an established connection. -/
theorem receive_event_data (hevent : (conn.receive buf).2 = some .dataReceived) :
    conn.state = .established ∧ has buf tcpRst = false ∧ has buf tcpFin = false ∧ payload buf ≠ [] := by
  unfold TcpConn.receive at hevent
  split at hevent
  · split at hevent
    · cases hevent
    · split at hevent
      · cases hevent
      · cases hevent
  · rename_i hstate
    split at hevent
    · cases hevent
    · rename_i hrst
      split at hevent
      · cases hevent
      · rename_i hfin
        split at hevent
        · rename_i hdata
          exact ⟨hstate, Bool.eq_false_of_not_eq_true hrst, Bool.eq_false_of_not_eq_true hfin, hdata⟩
        · cases hevent
  · split at hevent
    · cases hevent
    · split at hevent
      · cases hevent
      · cases hevent
  · cases hevent
  · cases hevent

/-- Data and a FIN always change the connection. -/
theorem receive_established (hstate : conn.state = .established) (hshort : buf.length < 2 ^ 16)
    (hdata : isDataOrFin buf = true) :
    (conn.receive buf).1.ack ≠ conn.ack ∨ (conn.receive buf).1.state ≠ conn.state := by
  by_cases hrst : has buf tcpRst = true
  · rw [receive_reset hstate hrst, hstate]
    exact .inr (fun h => nomatch h)
  rw [Bool.not_eq_true] at hrst
  by_cases hfin : has buf tcpFin = true
  · rw [receive_fin hstate hrst hfin, hstate]
    exact .inr (fun h => nomatch h)
  · rw [Bool.not_eq_true] at hfin
    unfold isDataOrFin at hdata
    rw [hfin, Bool.false_or, bne_iff_ne] at hdata
    rw [receive_data hstate hrst hfin hdata]
    refine .inl fun hack => ?_
    have hlen : (payload buf).length < 2 ^ 32 := by
      have hle := length_payload_le buf
      omega
    have hpos : 0 < (payload buf).length := List.length_pos_iff.2 hdata
    have hzero : BitVec.ofNat 32 (payload buf).length = 0 := by
      have hcancel := congrArg (fun v => v - conn.ack) hack
      simpa [BitVec.add_comm conn.ack, BitVec.add_sub_cancel] using hcancel
    have hnat := congrArg BitVec.toNat hzero
    rw [BitVec.toNat_ofNat, Nat.mod_eq_of_lt hlen] at hnat
    exact absurd hnat (Nat.ne_of_gt hpos)

/-- The connection keeps to the sequence exactly when the segment does. -/
theorem inSequence_iff (hshort : buf.length < 2 ^ 16) : InSequence conn srcIp buf ↔ Numbered conn srcIp buf := by
  unfold InSequence Numbered
  by_cases haccepts : conn.accepts srcIp buf = true
  · rw [handleTcp_of_accepts haccepts]
    constructor
    · rintro ⟨hack, hseq⟩ -
      refine ⟨fun hstate hsyn => hack hstate ((receive_synSent hstate).2 hsyn), fun hstate hdata => ?_⟩
      exact hseq hstate hdata (.inr (receive_established hstate hshort hdata))
    · intro hnum
      obtain ⟨hack, hseq⟩ := hnum haccepts
      exact ⟨fun hstate hest => hack hstate ((receive_synSent hstate).1 hest), fun hstate hdata _ => hseq hstate hdata⟩
  · rw [handleTcp_of_not_accepts haccepts]
    refine ⟨fun _ h => absurd h haccepts, fun _ => ⟨fun hstate hest => ?_, fun _ _ hchange => ?_⟩⟩
    · rw [hstate] at hest
      cases hest
    · rcases hchange with h | h | h
      · exact absurd rfl h
      · exact absurd rfl h
      · exact absurd rfl h

/-! ### The peer -/

/-- Who is at the other end, the number of its SYN, and the bytes that it sends. -/
structure Peer where
  ip : Ip
  port : BitVec 16
  isn : BitVec 32
  stream : Bytes

/-- The segment carries the stream from position `pos` on; a FIN comes with the last byte or after it. -/
structure Peer.IsPart (peer : Peer) (pos : Nat) (buf : Bytes) : Prop where
  short : buf.length < 2 ^ 16
  header : 20 ≤ dataOff buf ∧ dataOff buf ≤ buf.length
  ports : srcPort buf = peer.port ∧ dstPort buf = ephemeralPortBase
  seq : seqNum buf = peer.isn + 1 + BitVec.ofNat 32 pos
  le : pos + (payload buf).length ≤ peer.stream.length
  payload : Segment.payload buf = (peer.stream.drop pos).take (Segment.payload buf).length
  flags : has buf tcpRst = false ∧ has buf tcpSyn = false
  fin : has buf tcpFin = true → pos + (Segment.payload buf).length = peer.stream.length

instance (peer : Peer) (pos : Nat) (buf : Bytes) : Decidable (peer.IsPart pos buf) :=
  decidable_of_iff
    (buf.length < 2 ^ 16 ∧ (20 ≤ dataOff buf ∧ dataOff buf ≤ buf.length) ∧
      (srcPort buf = peer.port ∧ dstPort buf = ephemeralPortBase) ∧ seqNum buf = peer.isn + 1 + BitVec.ofNat 32 pos ∧
      pos + (payload buf).length ≤ peer.stream.length ∧
      payload buf = (peer.stream.drop pos).take (payload buf).length ∧
      (has buf tcpRst = false ∧ has buf tcpSyn = false) ∧
      (has buf tcpFin = true → pos + (payload buf).length = peer.stream.length))
    ⟨fun ⟨h₁, h₂, h₃, h₄, h₅, h₆, h₇, h₈⟩ => ⟨h₁, h₂, h₃, h₄, h₅, h₆, h₇, h₈⟩,
      fun ⟨h₁, h₂, h₃, h₄, h₅, h₆, h₇, h₈⟩ => ⟨h₁, h₂, h₃, h₄, h₅, h₆, h₇, h₈⟩⟩

/-- The segment is the peer's SYN, with an ACK. -/
def Peer.IsSyn (peer : Peer) (buf : Bytes) : Prop :=
  buf.length < 2 ^ 16 ∧ srcPort buf = peer.port ∧ dstPort buf = ephemeralPortBase ∧ seqNum buf = peer.isn ∧
    isSynAck buf = true ∧ has buf tcpFin = false ∧ has buf tcpRst = false ∧ payload buf = []

instance (peer : Peer) (buf : Bytes) : Decidable (peer.IsSyn buf) :=
  inferInstanceAs (Decidable (_ ∧ _))

/-! ### The connection under the handlers -/

namespace World

variable {e : Env} {w : World}

@[simp] theorem conn_withConn (w : World) (conn : TcpConn) : (w.withConn conn).server.conn = conn := rfl
@[simp] theorem conn_withSm (w : World) (sm : TcpSm) : (w.withSm sm).server.conn = w.server.conn := rfl
@[simp] theorem conn_withPing (w : World) (ping : PingSm) : (w.withPing ping).server.conn = w.server.conn := rfl
@[simp] theorem conn_sendPacket (e : Env) (w : World) (f : Bytes) : (w.sendPacket e f).1.server.conn = w.server.conn := rfl
@[simp] theorem conn_reply (w : World) (pid : Nat) (d : Vector Word dataFields) :
    (w.reply pid d).server.conn = w.server.conn := rfl
@[simp] theorem conn_replyData (w : World) (pid : Nat) (op v : Word) :
    (w.replyData pid op v).server.conn = w.server.conn := rfl
@[simp] theorem conn_replyErr (w : World) (pid : Nat) (op : Word) : (w.replyErr pid op).server.conn = w.server.conn := rfl

@[simp] theorem conn_ipFrame (w : World) (proto : Byte) (ip : Ip) (mac : Mac) (p : Bytes) :
    (w.ipFrame proto ip mac p).1.server.conn = w.server.conn := rfl

@[simp] theorem conn_sendFrame (e : Env) (w : World) (f : Bytes) : (w.sendFrame e f).1.server.conn = w.server.conn := by
  unfold sendFrame
  split <;> rfl

@[simp] theorem conn_sendTcpPacket (e : Env) (w : World) (ip : Ip) (mac : Mac) (sp dp : BitVec 16) (seq ack : BitVec 32)
    (flags : Byte) (window : BitVec 16) (p : Bytes) :
    (w.sendTcpPacket e ip mac sp dp seq ack flags window p).server.conn = w.server.conn := by
  unfold sendTcpPacket
  dsimp only
  split
  · rfl
  · rw [conn_sendFrame]
    rfl

@[simp] theorem conn_sendAck (e : Env) (w : World) : (w.sendAck e).server.conn = w.server.conn := by
  unfold sendAck
  rw [conn_sendTcpPacket]

/-- A FIN and a reset clear the connection. -/
theorem conn_handleTcpIncoming (e : Env) (w : World) (srcIp : Ip) (buf : Bytes) :
    (w.handleTcpIncoming e srcIp buf).server.conn =
      match (handleTcp w.server.conn srcIp buf).2 with
      | some .reset | some .closed => .zeroed
      | _ => (handleTcp w.server.conn srcIp buf).1 := by
  unfold handleTcpIncoming
  dsimp only
  cases (handleTcp w.server.conn srcIp buf).2 with
  | none => rfl
  | some event =>
    cases event with
    | established =>
      dsimp only
      split
      · unfold tcpSmOnEstablished
        simp
      · simp
    | dataReceived => simp
    | closed => rfl
    | reset =>
      dsimp only
      split <;> rfl

/-- The connection after a receive. -/
theorem conn_handleTcpRecv (w : World) (msg : Message) :
    (w.handleTcpRecv msg).server.conn = { w.server.conn with rxBuf := [] } := by
  unfold handleTcpRecv
  dsimp only
  split
  · rfl
  · rename_i hlen
    have hnil : w.server.conn.rxBuf = [] := List.length_eq_zero_iff.1 (by omega)
    rw [conn_replyData]
    generalize w.server.conn = conn at hnil ⊢
    cases conn
    cases hnil
    rfl

theorem handleIpc_tcpRecv {msg : Message} (h : msg.getData 0 = opNetTcpRecv) : w.handleIpc e msg = w.handleTcpRecv msg := by
  unfold handleIpc
  simp [h, opNetTcpRecv, opNetGetIp, opNetPing, opNetUdpBind, opNetUdpSend, opNetUdpRecv, opNetTcpConnect, opNetTcpSend]

end World

/-! ### Segments in any order -/

/-- The server, and all bytes that have been put into the buffer of the connection. -/
structure Reordering where
  server : Server
  placed : Bytes

/-- The peer's SYN or a part of its stream arrives, early, late or again; or a client receives. -/
inductive PeerOp where
  | syn (e : Env) (buf : Bytes)
  | part (e : Env) (pos : Nat) (buf : Bytes)
  | recv (e : Env) (msg : Message)

/-- What a segment adds to the buffer. -/
def taken (conn : TcpConn) (srcIp : Ip) (buf : Bytes) : Bytes :=
  let out := handleTcp conn srcIp buf
  if out.2 = some .dataReceived then out.1.rxBuf.drop conn.rxBuf.length else []

namespace Reordering

def incoming (x : Reordering) (peer : Peer) (e : Env) (buf : Bytes) : Reordering × List Output :=
  let w := x.server.enter.handleTcpIncoming e peer.ip buf
  (⟨w.server, x.placed ++ taken x.server.conn peer.ip buf⟩, w.out)

def step (peer : Peer) (x : Reordering) : PeerOp → Option (Reordering × List Output)
  | .syn e buf => if peer.IsSyn buf then some (x.incoming peer e buf) else none
  | .part e pos buf => if peer.IsPart pos buf then some (x.incoming peer e buf) else none
  | .recv e msg =>
    let w := x.server.enter.handleIpc e msg
    if msg.getData 0 = opNetTcpRecv then some ({ x with server := w.server }, w.out) else none

/-- The segment has the right numbers, and data are the next part of the stream. -/
def Fits (peer : Peer) (x : Reordering) : PeerOp → Prop
  | .syn _ buf => Numbered x.server.conn peer.ip buf
  | .part _ pos buf => Numbered x.server.conn peer.ip buf ∧
      (x.server.conn.state = .established → payload buf ≠ [] → pos = x.placed.length)
  | .recv _ _ => True

/-- Only data in an established connection are put into the buffer, as many as there is room for. -/
theorem taken_cases (conn : TcpConn) (srcIp : Ip) (buf : Bytes) :
    taken conn srcIp buf = [] ∨
    (conn.state = .established ∧ payload buf ≠ [] ∧ taken conn srcIp buf = (payload buf).take (rxBufSize - conn.rxBuf.length)) := by
  unfold taken
  dsimp only
  split
  · rename_i hevent
    have haccepts : conn.accepts srcIp buf = true := by
      by_contra hnot
      rw [handleTcp_of_not_accepts hnot] at hevent
      cases hevent
    rw [handleTcp_of_accepts haccepts] at hevent ⊢
    obtain ⟨hstate, hrst, hfin, hdata⟩ := receive_event_data hevent
    rw [receive_data hstate hrst hfin hdata]
    exact .inr ⟨hstate, hdata, List.drop_left⟩
  · exact .inl rfl

/-- A segment that fits leaves a prefix of the stream. -/
theorem prefix_step {peer : Peer} {x y : Reordering} {op : PeerOp} {out : List Output} (h : x.placed <+: peer.stream)
    (hfits : x.Fits peer op) (hstep : x.step peer op = some (y, out)) : y.placed <+: peer.stream := by
  cases op with
  | syn e buf =>
    unfold step at hstep
    dsimp only at hstep
    split at hstep
    · rename_i hsyn
      cases hstep
      show x.placed ++ taken x.server.conn peer.ip buf <+: peer.stream
      rcases taken_cases x.server.conn peer.ip buf with hnil | ⟨-, hdata, -⟩
      · rw [hnil, List.append_nil]
        exact h
      · exact absurd hsyn.2.2.2.2.2.2.2 hdata
    · cases hstep
  | part e pos buf =>
    unfold step at hstep
    dsimp only at hstep
    split at hstep
    · rename_i hpart
      cases hstep
      show x.placed ++ taken x.server.conn peer.ip buf <+: peer.stream
      rcases taken_cases x.server.conn peer.ip buf with hnil | ⟨hstate, hdata, htaken⟩
      · rw [hnil, List.append_nil]
        exact h
      · have hpos := hfits.2 hstate hdata
        obtain ⟨rest, hrest⟩ := h
        have hdrop : peer.stream.drop pos = rest := by
          rw [hpos, ← hrest, List.drop_left]
        rw [htaken, hpart.payload, hdrop, List.take_take, ← hrest]
        exact (List.prefix_append_right_inj _).2 (List.take_prefix _ _)
    · cases hstep
  | recv e msg =>
    unfold step at hstep
    dsimp only at hstep
    split at hstep
    · cases hstep
      exact h
    · cases hstep

/-- The connection keeps to the sequence exactly when the segment does; and while the segments fit, what has been put into
the buffer is a prefix of the stream. -/
theorem segments_fit (peer : Peer) :
    (∀ (conn : TcpConn) (srcIp : Ip) (seg : TcpSegment), InSequence conn srcIp seg.bytes ↔ Numbered conn srcIp seg.bytes) ∧
    ∀ (s : Server) (es : List (PeerOp × List Output)) (y : Reordering),
      Run (step peer) (Fits peer) ⟨s, []⟩ es y → y.placed <+: peer.stream := by
  refine ⟨fun conn srcIp seg => inSequence_iff seg.short, fun s es y hrun => ?_⟩
  exact hrun.invariant (P := fun x => x.placed <+: peer.stream) prefix_step List.nil_prefix

def gatewayIp : Ip := #v[10, 0, 2, 2]

/-- A connection to port 80 of the gateway. -/
def openConn : TcpConn := ⟨.established, ephemeralPortBase, 80, #v[10, 0, 2, 2], afterSyn, 1, 1, 7, []⟩

def gatewayPeer : Peer := ⟨#v[10, 0, 2, 2], 80, 0, [1, 2]⟩

/-- The first byte of the stream. -/
def firstPart : Bytes := buildTcp 80 ephemeralPortBase 1 afterSyn tcpAck 0 [1] 80

def quietEnv : Env := ⟨0, 0, fun _ => true⟩

/-- The same part arrives twice, and its byte is put into the buffer twice. -/
theorem part_repeated : (∃ conn srcIp buf, ¬ InSequence conn srcIp buf) ∧
    ∃ s es y, Run (step gatewayPeer) (fun _ _ => True) ⟨s, []⟩ es y ∧ ¬ y.placed <+: gatewayPeer.stream := by
  constructor
  · refine ⟨{ openConn with ack := 2 }, #v[10, 0, 2, 2], firstPart, fun h => ?_⟩
    have hseq := h.2 rfl (by decide) (.inl (by decide))
    exact absurd hseq (by decide)
  · have hexec : (exec (step gatewayPeer) (fun _ _ => True) ⟨{ Server.boot (Vector.replicate 6 0) with conn := openConn }, []⟩
        [.part quietEnv 0 firstPart, .part quietEnv 0 firstPart]).any (fun out => decide (out.1.placed = [1, 1])) = true := by
      decide
    obtain ⟨⟨y, es⟩, hrun, hout⟩ := (Option.any_eq_true _ _).1 hexec
    refine ⟨_, es, y, run_of_exec hrun, ?_⟩
    rw [of_decide_eq_true hout]
    decide

end Reordering

end Rost.Net
