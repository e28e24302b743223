import Mathlib.Data.List.TakeDrop
import Rost.Net.Sequence

/-!
# The bytes of a connection

The peer sends its stream in order, and clients receive.  What they have got and what is still in the buffer should be the
stream up to the last number that was acknowledged.  Three things break this: data that do not fit in the buffer are
acknowledged, a receive takes the whole buffer but returns 40 bytes of it, and a FIN clears the buffer
(`Stream.acknowledged_kept`).
-/

namespace Rost.Net

open Lib (Run exec run_of_exec unpackWords packWord)
open Segment
open Reordering (openConn gatewayPeer firstPart quietEnv)

/-- The bytes in an answer to a receive. -/
def tcpBytes (data : Vector Word dataFields) : Bytes :=
  let len := data.toList.getD 1 0
  if len = 0xFFFF then [] else (unpackWords ((data.toList.drop 2).take 5) 40).take len.toNat

/-- The bytes in the answers to receives. -/
def received (out : List Output) : Bytes :=
  out.flatMap fun
    | .reply _ data => tcpBytes data
    | .frame _ => []

/-- The answer holds the bytes that are put into it. -/
theorem tcpBytes_tcpRecvWords {bytes : Bytes} (h : bytes.length ≤ 40) : tcpBytes (World.tcpRecvWords bytes) = bytes := by
  have hwords : ((World.tcpRecvWords bytes).toList.drop 2).take 5 = (List.range 5).map (packWord bytes) := rfl
  have hlen : (BitVec.ofNat 64 bytes.length).toNat = bytes.length := by
    rw [BitVec.toNat_ofNat]
    omega
  have hne : ¬ BitVec.ofNat 64 bytes.length = 0xFFFF := by
    intro heq
    rw [heq] at hlen
    have hbig : (0xFFFF : BitVec 64).toNat = 65535 := rfl
    omega
  unfold tcpBytes
  rw [hwords]
  show (if BitVec.ofNat 64 bytes.length = 0xFFFF then [] else
    (unpackWords ((List.range 5).map (packWord bytes)) 40).take (BitVec.ofNat 64 bytes.length).toNat) = bytes
  rw [if_neg hne, hlen, Lib.take_unpackWords (by decide) h]

/-- A receive returns the first 40 bytes of the buffer. -/
theorem received_handleTcpRecv (s : Server) (msg : Message) :
    received (s.enter.handleTcpRecv msg).out = s.conn.rxBuf.take 40 := by
  unfold World.handleTcpRecv
  dsimp only
  have hserver : s.enter.server.conn = s.conn := rfl
  rw [hserver]
  split
  · show tcpBytes (World.tcpRecvWords (s.conn.rxBuf.take 40)) ++ [] = s.conn.rxBuf.take 40
    rw [List.append_nil, tcpBytes_tcpRecvWords (by rw [List.length_take]; omega)]
  · rename_i hlen
    have hnil : s.conn.rxBuf = [] := List.length_eq_zero_iff.1 (by omega)
    rw [hnil]
    rfl

/-- An established connection to the peer, of whose stream nothing has come in yet. -/
structure Opened (peer : Peer) where
  server : Server
  state : server.conn.state = .established
  ip : server.conn.remoteIp = peer.ip
  ports : server.conn.remotePort = peer.port ∧ server.conn.localPort = ephemeralPortBase
  ack : server.conn.ack = peer.isn + 1
  rxBuf : server.conn.rxBuf = []

/-- `sent` is how much of its stream the peer has sent, `acked` how far the acknowledged number has moved, and `returned` are
the bytes that clients have got. -/
structure Stream where
  server : Server
  sent : Nat
  finished : Bool
  acked : Nat
  returned : Bytes

/-- The next part of the stream comes in, or a client receives. -/
inductive StreamOp where
  | part (e : Env) (buf : Bytes)
  | recv (e : Env) (msg : Message)

namespace Stream

def start {peer : Peer} (o : Opened peer) : Stream := ⟨o.server, 0, false, 0, []⟩

/-- The peer sends in order, and nothing after its FIN. -/
def step (peer : Peer) (x : Stream) : StreamOp → Option (Stream × List Output)
  | .part e buf =>
    let w := x.server.enter.handleTcpIncoming e peer.ip buf
    if peer.IsPart x.sent buf ∧ x.finished = false then
      some (
        { server := w.server
          sent := x.sent + (payload buf).length
          finished := has buf tcpFin
          acked := x.acked + ((handleTcp x.server.conn peer.ip buf).1.ack - x.server.conn.ack).toNat
          returned := x.returned }, w.out)
    else none
  | .recv e msg =>
    let w := x.server.enter.handleIpc e msg
    if msg.getData 0 = opNetTcpRecv then
      some ({ x with server := w.server, returned := x.returned ++ received w.out }, w.out)
    else none

/-- What clients have got, and what waits for them, is the stream up to the acknowledged number. -/
def Accounted (peer : Peer) (x : Stream) : Prop := x.returned ++ x.server.conn.rxBuf = peer.stream.take x.acked

/-- Whatever the step leads to is accounted for. -/
def Keeps (peer : Peer) (x : Stream) (op : StreamOp) : Prop := ∀ y out, x.step peer op = some (y, out) → y.Accounted peer

/-- Data fit in the buffer; a FIN has none, and comes when the buffer is empty; and nobody receives while more than 40 bytes
are in the buffer. -/
def Fits (x : Stream) : StreamOp → Prop
  | .part _ buf =>
    if has buf tcpFin then payload buf = [] ∧ x.server.conn.rxBuf = []
    else (payload buf).length ≤ rxBufSize - x.server.conn.rxBuf.length
  | .recv _ _ => x.server.conn.rxBuf.length ≤ 40

/-- Before the FIN the connection is the peer's and expects its next byte; after it the connection is cleared. -/
structure Consistent (peer : Peer) (x : Stream) : Prop where
  accounted : x.Accounted peer
  opened : x.finished = false → x.server.conn.state = .established ∧ x.server.conn.remoteIp = peer.ip ∧
    x.server.conn.remotePort = peer.port ∧ x.server.conn.localPort = ephemeralPortBase ∧
    x.server.conn.ack = peer.isn + 1 + BitVec.ofNat 32 x.sent ∧ x.acked = x.sent
  closed : x.finished = true → x.server.conn = .zeroed

variable {peer : Peer} {x y : Stream} {out : List Output}

theorem consistent_start (o : Opened peer) : (start o).Consistent peer := by
  refine ⟨?_, fun _ => ⟨o.state, o.ip, o.ports.1, o.ports.2, ?_, rfl⟩, fun h => nomatch h⟩
  · show [] ++ o.server.conn.rxBuf = peer.stream.take 0
    rw [o.rxBuf]
    rfl
  · show o.server.conn.ack = peer.isn + 1 + 0
    rw [o.ack]
    exact (BitVec.add_zero _).symm

/-! ### A part of the stream -/

/-- The next part is accepted. -/
theorem Consistent.accepts (h : x.Consistent peer) (hfin : x.finished = false) {buf : Bytes} (hpart : peer.IsPart x.sent buf) :
    x.server.conn.accepts peer.ip buf = true := by
  obtain ⟨hstate, hip, hremote, hlocal, -, -⟩ := h.opened hfin
  refine decide_eq_true ⟨hpart.header.1.trans hpart.header.2, ?_, hip, hremote.trans hpart.ports.1.symm,
    hlocal.trans hpart.ports.2.symm⟩
  rw [hstate]
  exact TcpState.noConfusion

/-- The difference of two numbers that are less than a segment apart. -/
private theorem toNat_add_sub (a : BitVec 32) {n : Nat} (hn : n < 2 ^ 32) : (a + BitVec.ofNat 32 n - a).toNat = n := by
  rw [BitVec.add_comm, BitVec.add_sub_cancel, BitVec.toNat_ofNat, Nat.mod_eq_of_lt hn]

/-- What comes of the next part: a FIN clears the connection, and data are added to the buffer. -/
theorem step_part (h : x.Consistent peer) {e : Env} {buf : Bytes} (hstep : x.step peer (.part e buf) = some (y, out)) :
    x.finished = false ∧ peer.IsPart x.sent buf ∧ y.returned = x.returned ∧ y.sent = x.sent + (payload buf).length ∧
    ((has buf tcpFin = true ∧ y.finished = true ∧ y.acked = x.acked + 1 ∧ y.server.conn = .zeroed) ∨
     (has buf tcpFin = false ∧ y.finished = false ∧ y.acked = x.acked + (payload buf).length ∧
        y.server.conn = { x.server.conn with
          rxBuf := x.server.conn.rxBuf ++ (payload buf).take (rxBufSize - x.server.conn.rxBuf.length)
          ack := x.server.conn.ack + BitVec.ofNat 32 (payload buf).length })) := by
  unfold step at hstep
  dsimp only at hstep
  split at hstep
  · rename_i hnext
    obtain ⟨hpart, hfin⟩ := hnext
    cases hstep
    have hhandle := handleTcp_of_accepts (h.accepts hfin hpart)
    obtain ⟨hstate, -, -, -, hack, -⟩ := h.opened hfin
    have hrst := hpart.flags.1
    refine ⟨hfin, hpart, rfl, rfl, ?_⟩
    have hconn := World.conn_handleTcpIncoming e x.server.enter peer.ip buf
    have hserver : x.server.enter.server.conn = x.server.conn := rfl
    rw [hserver, hhandle] at hconn
    dsimp only
    rw [hconn, hhandle]
    by_cases hflag : has buf tcpFin = true
    · have hreceive := receive_fin hstate hrst hflag
      rw [hreceive]
      refine .inl ⟨hflag, hflag, ?_, rfl⟩
      dsimp only
      rw [hpart.seq, hack]
      exact congrArg (x.acked + ·) (toNat_add_sub _ (by decide))
    · rw [Bool.not_eq_true] at hflag
      have hlen : (payload buf).length < 2 ^ 32 := by
        have hle := length_payload_le buf
        have hshort := hpart.short
        omega
      refine .inr ⟨hflag, hflag, ?_⟩
      by_cases hdata : payload buf = []
      · rw [receive_idle hstate hrst hflag hdata, hdata]
        simp
      · rw [receive_data hstate hrst hflag hdata]
        exact ⟨congrArg (x.acked + ·) (toNat_add_sub _ hlen), rfl⟩
  · cases hstep

/-- What comes of a receive: the buffer is emptied, and its first 40 bytes are returned. -/
theorem step_recv {e : Env} {msg : Message} (hstep : x.step peer (.recv e msg) = some (y, out)) :
    y = { x with server := y.server, returned := x.returned ++ x.server.conn.rxBuf.take 40 } ∧
      y.server.conn = { x.server.conn with rxBuf := [] } := by
  unfold step at hstep
  dsimp only at hstep
  split at hstep
  · rename_i hop
    cases hstep
    rw [World.handleIpc_tcpRecv hop]
    refine ⟨?_, World.conn_handleTcpRecv x.server.enter msg⟩
    rw [received_handleTcpRecv]
  · cases hstep

/-! ### When the bytes are kept -/

/-- The step keeps the bytes exactly when they fit. -/
theorem keeps_iff {op : StreamOp} (h : x.Consistent peer) (hstep : x.step peer op = some (y, out)) :
    y.Accounted peer ↔ x.Fits op := by
  have hacc : x.returned ++ x.server.conn.rxBuf = peer.stream.take x.acked := h.accounted
  unfold Accounted
  cases op with
  | part e buf =>
    obtain ⟨hfin, hpart, hreturned, hsent, hcases⟩ := step_part h hstep
    obtain ⟨-, -, -, -, -, hacked⟩ := h.opened hfin
    have hle := hpart.le
    rw [hreturned]
    rcases hcases with ⟨hflag, -, hy, hconn⟩ | ⟨hflag, -, hy, hconn⟩
    · show _ ↔ if has buf tcpFin then _ else _
      rw [if_pos hflag, hconn, hy, hacked]
      show x.returned ++ [] = peer.stream.take (x.sent + 1) ↔ _
      have hend := hpart.fin hflag
      rw [hacked] at hacc
      constructor
      · intro hall
        have hlen := congrArg List.length hall
        have hlen' := congrArg List.length hacc
        rw [List.length_append, List.length_take] at hlen hlen'
        rw [List.length_nil] at hlen
        exact ⟨List.length_eq_zero_iff.1 (by omega), List.length_eq_zero_iff.1 (by omega)⟩
      · rintro ⟨hdata, hempty⟩
        rw [hdata, List.length_nil] at hend
        rw [hempty] at hacc
        rw [hacc, List.take_of_length_le (by omega), List.take_of_length_le (by omega)]
    · show _ ↔ if has buf tcpFin then _ else _
      rw [if_neg (Bool.not_eq_true _ ▸ hflag), hconn, hy]
      show x.returned ++ (x.server.conn.rxBuf ++ _) = _ ↔ _
      rw [← List.append_assoc, hacc, List.take_add, hacked, ← hpart.payload, List.append_cancel_left_eq,
        List.take_eq_self_iff]
  | recv e msg =>
    obtain ⟨hy, hconn⟩ := step_recv hstep
    show _ ↔ x.server.conn.rxBuf.length ≤ 40
    have hreturned : y.returned = x.returned ++ x.server.conn.rxBuf.take 40 := by rw [hy]
    have hacked : y.acked = x.acked := by rw [hy]
    rw [hreturned, hacked, hconn, ← hacc, List.append_nil, List.append_cancel_left_eq, List.take_eq_self_iff]

/-- A step that keeps the bytes leaves the connection at the peer's next byte, or cleared. -/
theorem consistent_step {op : StreamOp} (h : x.Consistent peer) (hkeeps : x.Keeps peer op)
    (hstep : x.step peer op = some (y, out)) : y.Consistent peer := by
  have hacc := hkeeps y out hstep
  cases op with
  | part e buf =>
    obtain ⟨hfin, hpart, -, hsent, hcases⟩ := step_part h hstep
    obtain ⟨hstate, hip, hremote, hlocal, hack, hacked⟩ := h.opened hfin
    rcases hcases with ⟨-, hfinished, -, hconn⟩ | ⟨-, hfinished, hy, hconn⟩
    · refine ⟨hacc, fun hopen => ?_, fun _ => hconn⟩
      rw [hfinished] at hopen
      cases hopen
    · refine ⟨hacc, fun _ => ?_, fun hclosed => ?_⟩
      · rw [hconn, hy, hsent, hacked]
        refine ⟨hstate, hip, hremote, hlocal, ?_, rfl⟩
        show x.server.conn.ack + BitVec.ofNat 32 (payload buf).length = _
        rw [hack, BitVec.ofNat_add, BitVec.add_assoc, BitVec.add_assoc]
      · rw [hfinished] at hclosed
        cases hclosed
  | recv e msg =>
    obtain ⟨hy, hconn⟩ := step_recv hstep
    have hfinished : y.finished = x.finished := by rw [hy]
    have hsent : y.sent = x.sent := by rw [hy]
    have hacked : y.acked = x.acked := by rw [hy]
    refine ⟨hacc, fun hopen => ?_, fun hclosed => ?_⟩
    · rw [hconn, hsent, hacked]
      exact h.opened (hfinished.symm.trans hopen)
    · rw [hconn, h.closed (hfinished.symm.trans hclosed)]
      rfl

/-- No acknowledged byte is lost in a run exactly when in every step what comes in fits and what is received is short. -/
theorem acknowledged_kept {peer : Peer} (o : Opened peer) (es : List (StreamOp × List Output)) (y : Stream) :
    Run (step peer) (Keeps peer) (start o) es y ↔ Run (step peer) Fits (start o) es y := by
  refine Run.iff_of_invariant (P := Consistent peer) (consistent_start o) ?_ consistent_step
  intro t u i r hcons hstep
  refine ⟨fun hkeeps => (keeps_iff hcons hstep).1 (hkeeps u r hstep), fun hfits u' r' hstep' => ?_⟩
  rw [hstep] at hstep'
  cases hstep'
  exact (keeps_iff hcons hstep).2 hfits

/-- A FIN from the gateway. -/
def finPart : Bytes := buildTcp 80 ephemeralPortBase 2 afterSyn (tcpFin ||| tcpAck) 0 [] 80

/-- A connection to port 80 of the gateway, which sends one byte. -/
def openedGateway : Opened { gatewayPeer with stream := [1] } where
  server := { Server.boot (Vector.replicate 6 0) with conn := openConn }
  state := rfl
  ip := rfl
  ports := ⟨rfl, rfl⟩
  ack := rfl
  rxBuf := rfl

/-- The byte is acknowledged, and lost with the FIN. -/
theorem byte_lost : ∃ es y, Run (step { gatewayPeer with stream := [1] }) (fun _ _ => True) (start openedGateway) es y ∧
    ¬ y.Accounted { gatewayPeer with stream := [1] } := by
  have hexec : (exec (step { gatewayPeer with stream := [1] }) (fun _ _ => True) (start openedGateway)
      [.part quietEnv firstPart, .part quietEnv finPart]).any
      (fun out => decide (out.1.returned = [] ∧ out.1.server.conn.rxBuf = [] ∧ out.1.acked = 2)) = true := by
    decide
  obtain ⟨⟨y, es⟩, hrun, hout⟩ := (Option.any_eq_true _ _).1 hexec
  obtain ⟨hreturned, hempty, hacked⟩ := of_decide_eq_true hout
  refine ⟨es, y, run_of_exec hrun, fun hacc => ?_⟩
  unfold Accounted at hacc
  rw [hreturned, hempty, hacked] at hacc
  cases hacc

end Stream

end Rost.Net
