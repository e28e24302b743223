import Rost.Ipc.Message
import Rost.Lib.Run
import Rost.Lib.Words
import Rost.Net.Tables
import Rost.Net.Tcp

/-!
# The network server

The handlers of the requests, of the packets that come in and of the deadlines.  Connecting and pinging are done by two
small state machines that wait for an ARP reply and then for the peer.  What a handler sends and answers is appended to a
list; the readings of the clock and the results of `send_packet` are given by the environment.
-/

namespace Rost.Net

open Lib (packWord unpackWords)

def ourIp : Ip := #v[10, 0, 2, 15]

def ephemeralPortBase : BitVec 16 := 49152

/-- The size of the frame buffer. -/
def frameBufSize : Nat := 1536

def opNetPing : Word := 0x0100
def opNetUdpBind : Word := 0x0101
def opNetUdpSend : Word := 0x0102
def opNetUdpRecv : Word := 0x0103
def opNetTcpConnect : Word := 0x0104
def opNetTcpSend : Word := 0x0105
def opNetTcpRecv : Word := 0x0106
def opNetTcpClose : Word := 0x0107
def opNetGetIp : Word := 0x0108

/-! ### State -/

/-- `TCP_SM_STATE` -/
inductive SmState where
  | idle
  | waitArp
  | waitSynAck
deriving DecidableEq

/-- The connect that is pending. -/
structure TcpSm where
  state : SmState
  sender : Nat
  dstIp : BitVec 32
  dstPort : BitVec 16
  connId : Byte
  deadline : Nat
  dstMac : Mac

/-- `PENDING_STATE` -/
inductive PingState where
  | idle
  | waitArp
  | waitIcmp
deriving DecidableEq

/-- The ping that is pending. -/
structure PingSm where
  state : PingState
  sender : Nat
  targetIp : BitVec 32
  deadline : Nat
  icmpId : BitVec 16
  icmpSeq : BitVec 16
  sentNs : Nat

/-- The statics of the server, and the address of its card. -/
structure Server where
  mac : Mac
  arpTable : ArpTable
  sockets : UdpTable
  conn : TcpConn
  tcpSm : TcpSm
  ping : PingSm
  pktId : BitVec 16

def Server.boot (mac : Mac) : Server where
  mac := mac
  arpTable := .new
  sockets := .new
  conn := .zeroed
  tcpSm := ⟨.idle, 0, 0, 0, 0, 0, Vector.replicate 6 0⟩
  ping := ⟨.idle, 0, 0, 0, 0xBEEF, 0, 0⟩
  pktId := 0

/-- What the server does to the outside. -/
inductive Output where
  | frame (bytes : Bytes)
  | reply (pid : Nat) (data : Vector Word dataFields)
deriving DecidableEq

/-- The first two readings of the clock during an event, and whether the card takes the frames. -/
structure Env where
  now : Nat
  later : Nat
  accepts : Nat → Bool

/-- The server while it handles an event; `frames` is the number of frames in `out`. -/
structure World where
  server : Server
  frames : Nat
  out : List Output

namespace World

def withConn (w : World) (conn : TcpConn) : World := { w with server := { w.server with conn := conn } }

def withSm (w : World) (sm : TcpSm) : World := { w with server := { w.server with tcpSm := sm } }

def withPing (w : World) (ping : PingSm) : World := { w with server := { w.server with ping := ping } }

/-! ### Output -/

/-- `send_packet` -/
def sendPacket (e : Env) (w : World) (frame : Bytes) : World × Bool :=
  ({ w with frames := w.frames + 1, out := w.out ++ [.frame frame] }, e.accepts w.frames)

/-- `send_reply` -/
def reply (w : World) (pid : Nat) (data : Vector Word dataFields) : World := { w with out := w.out ++ [.reply pid data] }

def replyData (w : World) (pid : Nat) (op val : Word) : World := w.reply pid #v[op, val, 0, 0, 0, 0, 0, 0]

def replyErr (w : World) (pid : Nat) (op : Word) : World := w.replyData pid op 0xFFFF

/-- The frame of an IPv4 packet from us, which takes the next packet id. -/
def ipFrame (w : World) (proto : Byte) (dstIp : Ip) (dstMac : Mac) (payload : Bytes) : World × Bytes :=
  let ip := buildIpv4 w.server.pktId proto ourIp dstIp payload 128
  ({ w with server := { w.server with pktId := ip.2 } }, buildEth dstMac w.server.mac ethIpv4 ip.1 frameBufSize)

/-- `eth_len > 0 && vnet.send_packet(..)` -/
def sendFrame (e : Env) (w : World) (frame : Bytes) : World × Bool :=
  if frame = [] then (w, false) else w.sendPacket e frame

def sendTcpPacket (e : Env) (w : World) (dstIp : Ip) (dstMac : Mac) (srcP dstP : BitVec 16) (seq ack : BitVec 32)
    (flags : Byte) (window : BitVec 16) (payload : Bytes) : World :=
  let seg := buildTcp srcP dstP seq ack flags window payload 80
  if seg = [] then w
  else
    let out := w.ipFrame ipProtoTcp dstIp dstMac (fillTcpChecksum ourIp dstIp seg)
    (out.1.sendFrame e out.2).1

/-- The ACK that is sent after a handshake and after data. -/
def sendAck (e : Env) (w : World) : World :=
  let c := w.server.conn
  w.sendTcpPacket e c.remoteIp ((lookupMac w.server.arpTable c.remoteIp).getD macBroadcast) c.localPort c.remotePort
    c.seq c.ack tcpAck 65535 []

/-- A miss sends an ARP request, whose answer fills the cache later. -/
def resolveMac (e : Env) (w : World) (targetIp : Ip) : World × Option Mac :=
  match lookupMac w.server.arpTable targetIp with
  | some mac => (w, some mac)
  | none => ((w.sendFrame e (buildArpRequest w.server.mac ourIp targetIp frameBufSize)).1, none)

/-! ### Ping -/

def advancePingSeq (w : World) : World := w.withPing { w.server.ping with icmpSeq := w.server.ping.icmpSeq + 1 }

/-- The bytes of `rost-net`. -/
def icmpPayload : Bytes := [0x72, 0x6f, 0x73, 0x74, 0x2d, 0x6e, 0x65, 0x74]

def buildAndSendIcmpRequest (e : Env) (w : World) (targetIp : Ip) (dstMac : Mac) : World × Bool :=
  let icmp := buildIcmpEchoRequest w.server.ping.icmpId w.server.ping.icmpSeq icmpPayload 64
  let out := w.ipFrame ipProtoIcmp targetIp dstMac icmp
  out.1.sendFrame e out.2

def handlePing (e : Env) (w : World) (msg : Message) : World :=
  let sender := msg.sender
  let ipRaw : BitVec 32 := (msg.getData 1).setWidth 32
  let targetIp := toLeBytes ipRaw
  if w.server.ping.state ≠ .idle then w.replyData sender opNetPing 0xFFFE
  else
    let deadline := e.now + 2000000000
    match lookupMac w.server.arpTable targetIp with
    | some dstMac =>
      let out := w.advancePingSeq.buildAndSendIcmpRequest e targetIp dstMac
      if out.2 then
        out.1.withPing { out.1.server.ping with
          state := .waitIcmp
          sender := sender
          targetIp := ipRaw
          deadline := deadline
          sentNs := e.later }
      else out.1.replyData sender opNetPing 0xFFFF
    | none =>
      let frame := buildArpRequest w.server.mac ourIp targetIp frameBufSize
      if frame = [] then w.replyData sender opNetPing 0xFFFF
      else
        let w := (w.sendPacket e frame).1
        w.withPing { w.server.ping with state := .waitArp, sender := sender, targetIp := ipRaw, deadline := deadline }

/-! ### Connect -/

/-- A SYN is sent to the peer of the connection. -/
def tcpSmSendSyn (e : Env) (w : World) (dstIp : Ip) (dstMac : Mac) : World × Bool :=
  let conn := w.server.conn
  let seg := buildTcp conn.localPort conn.remotePort conn.seq 0 tcpSyn 65535 [] 64
  let w := w.withConn { conn with seq := conn.seq + 1 }
  let out := w.ipFrame ipProtoTcp dstIp dstMac (fillTcpChecksum ourIp dstIp seg)
  out.1.sendFrame e out.2

/-- The connection is closed and the connect refused. -/
def tcpSmFail (w : World) (sender : Nat) : World :=
  (w.withConn w.server.conn.close).replyData sender opNetTcpConnect 0xFF

def handleTcpConnect (e : Env) (w : World) (msg : Message) : World :=
  let sender := msg.sender
  let dstIpRaw : BitVec 32 := (msg.getData 1).setWidth 32
  let dstIp := toLeBytes dstIpRaw
  let dstPort : BitVec 16 := (msg.getData 2).setWidth 16
  if w.server.tcpSm.state ≠ .idle then w.replyData sender opNetTcpConnect 0xFF
  else
    let opened := w.server.conn.connect dstIp dstPort ephemeralPortBase sender
    let w := w.withConn opened.1
    if opened.2 = 0xFF then w.replyData sender opNetTcpConnect 0xFF
    else
      let sm : TcpSm := { w.server.tcpSm with
        sender := sender
        dstIp := dstIpRaw
        dstPort := dstPort
        connId := opened.2
        deadline := e.now + 5000000000 }
      match w.resolveMac e dstIp with
      | (w, some dstMac) =>
        let out := w.tcpSmSendSyn e dstIp dstMac
        if out.2 then out.1.withSm { sm with state := .waitSynAck, dstMac := dstMac } else out.1.tcpSmFail sender
      | (w, none) => w.withSm { sm with state := .waitArp }

def tcpSmOnArpResolved (e : Env) (w : World) (dstIp : Ip) (dstMac : Mac) : World :=
  let out := w.tcpSmSendSyn e dstIp dstMac
  let sm := out.1.server.tcpSm
  if out.2 then out.1.withSm { sm with state := .waitSynAck, dstMac := dstMac }
  else (out.1.withSm { sm with state := .idle }).tcpSmFail sm.sender

def tcpSmOnEstablished (e : Env) (w : World) : World :=
  let sm := w.server.tcpSm
  let c := w.server.conn
  let w := w.withSm { sm with state := .idle }
  let w := w.sendTcpPacket e (toLeBytes sm.dstIp) sm.dstMac c.localPort c.remotePort c.seq c.ack tcpAck 65535 []
  w.replyData sm.sender opNetTcpConnect (sm.connId.setWidth 64)

def tcpSmOnReset (w : World) : World :=
  let sm := w.server.tcpSm
  (w.withSm { sm with state := .idle }).tcpSmFail sm.sender

/-! ### Deadlines -/

def checkPing (e : Env) (w : World) : World :=
  let ping := w.server.ping
  if ping.state ≠ .idle ∧ ping.deadline ≤ e.now then
    (w.withPing { ping with state := .idle }).replyData ping.sender opNetPing 0xFFFF
  else w

def checkConnect (e : Env) (w : World) : World :=
  let sm := w.server.tcpSm
  if sm.state ≠ .idle ∧ sm.deadline ≤ e.now then (w.withSm { sm with state := .idle }).tcpSmFail sm.sender else w

def checkPendingDeadlines (e : Env) (w : World) : World := (w.checkPing e).checkConnect e

/-! ### Requests -/

/-- The words `data[3..8]` of a message. -/
def payloadWords (msg : Message) : List Word := (List.range 5).map fun k => msg.getData (3 + k)

def handleUdpSend (e : Env) (w : World) (msg : Message) : World :=
  let sender := msg.sender
  let dstIp := toLeBytes ((msg.getData 1).setWidth 32)
  let dstPort : BitVec 16 := (msg.getData 2).setWidth 16
  let srcPort : BitVec 16 := (msg.getData 2 >>> 16).setWidth 16
  let payload := (unpackWords (payloadWords msg) 40).take (min ((msg.getData 7).toNat % 65536) 40)
  match w.resolveMac e dstIp with
  | (w, none) => w.replyData sender opNetUdpSend 0xFFFD
  | (w, some dstMac) =>
    let out := w.ipFrame ipProtoUdp dstIp dstMac (buildUdp srcPort dstPort payload 64)
    let sent := out.1.sendFrame e out.2
    if sent.2 then sent.1.replyData sender opNetUdpSend 0 else sent.1.replyErr sender opNetUdpSend

def handleUdpBind (w : World) (msg : Message) : World :=
  let bound := w.server.sockets.bind ((msg.getData 1).setWidth 16) msg.sender
  ({ w with server := { w.server with sockets := bound.1 } } : World).replyData msg.sender opNetUdpBind
    (if bound.2 then 0 else 1)

/-- The length overwrites the low half of the last word. -/
def udpRecvWords (srcIp : Ip) (srcPort : BitVec 16) (rxData : Bytes) : Vector Word dataFields :=
  let data := rxData.take 40
  #v[opNetUdpRecv, (fromLeBytes srcIp).setWidth 64, srcPort.setWidth 64, packWord data 0, packWord data 1, packWord data 2,
    packWord data 3, (packWord data 4 &&& 0xFFFFFFFF00000000) ||| BitVec.ofNat 64 data.length]

def handleUdpRecv (w : World) (msg : Message) : World :=
  match w.server.sockets.getPending ((msg.getData 1).setWidth 16) with
  | (_, none) => w.replyData msg.sender opNetUdpRecv 0xFFFF
  | (sockets, some (srcIp, srcPort, rxData)) =>
    ({ w with server := { w.server with sockets := sockets } } : World).reply msg.sender (udpRecvWords srcIp srcPort rxData)

def handleTcpSend (e : Env) (w : World) (msg : Message) : World :=
  let sender := msg.sender
  let payload := (unpackWords (payloadWords msg) 40).take (min (msg.getData 2).toNat 40)
  let conn := w.server.conn
  if conn.state ≠ .established then w.replyErr sender opNetTcpSend
  else
    match lookupMac w.server.arpTable conn.remoteIp with
    | none => w.replyErr sender opNetTcpSend
    | some dstMac =>
      let w := w.withConn { conn with seq := conn.seq + BitVec.ofNat 32 payload.length }
      let w := w.sendTcpPacket e conn.remoteIp dstMac conn.localPort conn.remotePort conn.seq conn.ack (tcpAck ||| tcpPsh)
        65535 payload
      w.replyData sender opNetTcpSend 0

def tcpRecvWords (data : Bytes) : Vector Word dataFields :=
  #v[opNetTcpRecv, BitVec.ofNat 64 data.length, packWord data 0, packWord data 1, packWord data 2, packWord data 3,
    packWord data 4, 0]

/-- The whole buffer is taken, but at most 40 bytes of it are returned. -/
def handleTcpRecv (w : World) (msg : Message) : World :=
  let conn := w.server.conn
  if 0 < conn.rxBuf.length then
    (w.withConn { conn with rxBuf := [] }).reply msg.sender (tcpRecvWords (conn.rxBuf.take 40))
  else w.replyData msg.sender opNetTcpRecv 0xFFFF

/-- An open connection is told; the connect that may be pending is not. -/
def handleTcpClose (e : Env) (w : World) : World :=
  let conn := w.server.conn
  let w :=
    if conn.state = .established then
      let w := w.withConn { conn with seq := conn.seq + 1, state := .finWait1 }
      w.sendTcpPacket e conn.remoteIp ((lookupMac w.server.arpTable conn.remoteIp).getD macBroadcast) conn.localPort
        conn.remotePort conn.seq conn.ack (tcpFin ||| tcpAck) 65535 []
    else w
  w.withConn w.server.conn.close

def handleIpc (e : Env) (w : World) (msg : Message) : World :=
  let op := msg.getData 0
  let sender := msg.sender
  if op = opNetGetIp then w.replyData sender opNetGetIp ((fromLeBytes ourIp).setWidth 64)
  else if op = opNetPing then w.handlePing e msg
  else if op = opNetUdpBind then w.handleUdpBind msg
  else if op = opNetUdpSend then w.handleUdpSend e msg
  else if op = opNetUdpRecv then w.handleUdpRecv msg
  else if op = opNetTcpConnect then w.handleTcpConnect e msg
  else if op = opNetTcpSend then w.handleTcpSend e msg
  else if op = opNetTcpRecv then w.handleTcpRecv msg
  else if op = opNetTcpClose then (w.handleTcpClose e).replyData sender opNetTcpClose 0
  else w.replyErr sender op

/-! ### Packets -/

/-- A request for our address is answered. -/
def answerArp (e : Env) (w : World) (payload : Bytes) : World :=
  let out := handleArp w.server.arpTable payload w.server.mac ourIp
  let w : World := { w with server := { w.server with arpTable := out.1 } }
  match out.2 with
  | none => w
  | some (reqIp, reqMac) =>
    if be16At payload 6 = arpRequest then (w.sendFrame e (buildArpReply w.server.mac ourIp reqMac reqIp frameBufSize)).1
    else w

/-- The ping that waits for a MAC goes on when it is known. -/
def resumePing (e : Env) (w : World) : World :=
  let ping := w.server.ping
  if ping.state ≠ .waitArp then w
  else
    match lookupMac w.server.arpTable (toLeBytes ping.targetIp) with
    | none => w
    | some dstMac =>
      let out := w.advancePingSeq.buildAndSendIcmpRequest e (toLeBytes ping.targetIp) dstMac
      if out.2 then out.1.withPing { out.1.server.ping with state := .waitIcmp, sentNs := e.now }
      else (out.1.withPing { out.1.server.ping with state := .idle }).replyData ping.sender opNetPing 0xFFFF

/-- The connect that waits for a MAC goes on when it is known. -/
def resumeConnect (e : Env) (w : World) : World :=
  let sm := w.server.tcpSm
  if sm.state ≠ .waitArp then w
  else
    match lookupMac w.server.arpTable (toLeBytes sm.dstIp) with
    | none => w
    | some dstMac => w.tcpSmOnArpResolved e (toLeBytes sm.dstIp) dstMac

def handleArpPacket (e : Env) (w : World) (payload : Bytes) : World :=
  ((w.answerArp e payload).resumePing e).resumeConnect e

def handleIcmpPacket (e : Env) (w : World) (srcIp : Ip) (payload : Bytes) : World :=
  if payload = [] then w
  else if payload.getD 0 0 = icmpEchoRequest then
    if payload.length < 8 then w
    else
      match lookupMac w.server.arpTable srcIp with
      | none => w
      | some dstMac =>
        let icmp := buildIcmpEchoReply (be16At payload 4) (be16At payload 6) (payload.drop 8) 64
        let out := w.ipFrame ipProtoIcmp srcIp dstMac icmp
        (out.1.sendFrame e out.2).1
  else if payload.getD 0 0 = icmpEchoReply then
    let ping := w.server.ping
    if ping.state ≠ .waitIcmp then w
    else
      let id := if 6 ≤ payload.length then be16At payload 4 else 0
      let seq := if 8 ≤ payload.length then be16At payload 6 else 0
      if id = ping.icmpId ∧ seq = ping.icmpSeq then
        (w.withPing { ping with state := .idle }).replyData ping.sender opNetPing
          (BitVec.ofNat 64 ((e.now - ping.sentNs) / 1000000))
      else w
  else w

def handleUdpPacket (w : World) (srcIp : Ip) (payload : Bytes) : World :=
  match parseUdp payload with
  | none => w
  | some (srcPort, dstPort, data) =>
    { w with server := { w.server with sockets := w.server.sockets.deliver srcIp srcPort dstPort data } }

def handleTcpIncoming (e : Env) (w : World) (srcIp : Ip) (payload : Bytes) : World :=
  let out := handleTcp w.server.conn srcIp payload
  let w := w.withConn out.1
  match out.2 with
  | none => w
  | some .established => if w.server.tcpSm.state = .waitSynAck then w.tcpSmOnEstablished e else w.sendAck e
  | some .dataReceived => w.sendAck e
  | some .reset => if w.server.tcpSm.state = .waitSynAck then w.tcpSmOnReset else w.withConn w.server.conn.close
  | some .closed => w.withConn w.server.conn.close

def broadcastIp : Ip := #v[255, 255, 255, 255]

def handleIpv4Packet (e : Env) (w : World) (iph : Ipv4Hdr) (payload : Bytes) : World :=
  if iph.dst ≠ ourIp ∧ iph.dst ≠ broadcastIp then w
  else if iph.proto = ipProtoIcmp then w.handleIcmpPacket e iph.src payload
  else if iph.proto = ipProtoUdp then w.handleUdpPacket iph.src payload
  else if iph.proto = ipProtoTcp then w.handleTcpIncoming e iph.src payload
  else w

def handlePacket (e : Env) (w : World) (frame : Bytes) : World :=
  match parseEth frame with
  | none => w
  | some eth =>
    if eth.ethertype = ethArp then w.handleArpPacket e eth.payload
    else if eth.ethertype = ethIpv4 then
      match parseIpv4 eth.payload with
      | none => w
      | some (iph, payload) => w.handleIpv4Packet e iph payload
    else w

end World

/-! ### The main loop -/

/-- What the main loop handles next. -/
inductive NetOp where
  | request (msg : Message)
  | packet (frame : Bytes)
  | deadlines

namespace Server

/-- The server as it begins to handle an event. -/
def enter (s : Server) : World := ⟨s, 0, []⟩

def handle (s : Server) (e : Env) : NetOp → World
  | .request msg => s.enter.handleIpc e msg
  | .packet frame => s.enter.handlePacket e frame
  | .deadlines => s.enter.checkPendingDeadlines e

/-- One event; the result are the frames and the answers that it makes the server send. -/
def step (s : Server) (op : Env × NetOp) : Option (Server × List Output) :=
  some ((s.handle op.1 op.2).server, (s.handle op.1 op.2).out)

end Server

end Rost.Net
