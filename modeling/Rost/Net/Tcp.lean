import Rost.Net.Wire

/-!
# The TCP connection

The one connection of the network server: its state machine for the segments that come in, and the segments that go out.
-/

namespace Rost.Net

/-! ### Flags -/

def tcpFin : Byte := 0x01
def tcpSyn : Byte := 0x02
def tcpRst : Byte := 0x04
def tcpPsh : Byte := 0x08
def tcpAck : Byte := 0x10

inductive TcpState where
  | closed
  | synSent
  | established
  | finWait1
  | closeWait
deriving DecidableEq

/-- What `handleTcp` reports. -/
inductive TcpEvent where
  | established
  | dataReceived
  | closed
  | reset
deriving DecidableEq

/-- `TcpConn`.  `rxBuf` are the first `rx_len` bytes of the buffer; the others are never read. -/
structure TcpConn where
  state : TcpState
  localPort : BitVec 16
  remotePort : BitVec 16
  remoteIp : Ip
  /-- Our next send sequence number. -/
  seq : BitVec 32
  /-- The next byte that is expected from the peer. -/
  ack : BitVec 32
  connId : Byte
  ownerPid : Nat
  rxBuf : Bytes
deriving DecidableEq

def rxBufSize : Nat := 512

def initialSeq : BitVec 32 := 0x12345678

namespace TcpConn

def zeroed : TcpConn := ⟨.closed, 0, 0, Vector.replicate 4 0, 0, 0, 0, 0, []⟩

/-- `tcp_connect`: an active open; `0xFF` stands for a failure. -/
def connect (conn : TcpConn) (remoteIp : Ip) (remotePort localPort : BitVec 16) (ownerPid : Nat) : TcpConn × Byte :=
  if conn.state ≠ .closed then (conn, 0xFF)
  else
    ({ state := .synSent
       localPort := localPort
       remotePort := remotePort
       remoteIp := remoteIp
       seq := initialSeq
       ack := 0
       connId := 1
       ownerPid := ownerPid
       rxBuf := [] }, 1)

/-- `tcp_close` -/
def close (_ : TcpConn) : TcpConn := zeroed

end TcpConn

/-! ### Segments -/

namespace Segment

def srcPort (buf : Bytes) : BitVec 16 := be16At buf 0

def dstPort (buf : Bytes) : BitVec 16 := be16At buf 2

def seqNum (buf : Bytes) : BitVec 32 := be32At buf 4

def ackNum (buf : Bytes) : BitVec 32 := be32At buf 8

def dataOff (buf : Bytes) : Nat := (buf.getD 12 0 >>> 4).toNat * 4

def flags (buf : Bytes) : Byte := buf.getD 13 0

def payload (buf : Bytes) : Bytes := if dataOff buf ≤ buf.length then buf.drop (dataOff buf) else []

/-- The segment has the flag. -/
def has (buf : Bytes) (flag : Byte) : Bool := decide (flags buf &&& flag ≠ 0)

/-- `flags & (TCP_SYN | TCP_ACK) == (TCP_SYN | TCP_ACK)` -/
def isSynAck (buf : Bytes) : Bool := decide (flags buf &&& (tcpSyn ||| tcpAck) = tcpSyn ||| tcpAck)

theorem length_payload_le (buf : Bytes) : (payload buf).length ≤ buf.length := by
  unfold payload
  split
  · rw [List.length_drop]
    omega
  · exact Nat.zero_le _

end Segment

open Segment

/-- The segment is long enough, and it comes from the peer of the connection. -/
def TcpConn.accepts (conn : TcpConn) (srcIp : Ip) (buf : Bytes) : Bool :=
  decide (20 ≤ buf.length ∧ conn.state ≠ .closed ∧ conn.remoteIp = srcIp ∧ conn.remotePort = srcPort buf ∧
    conn.localPort = dstPort buf)

/-- What an accepted segment does in each state. -/
def TcpConn.receive (conn : TcpConn) (buf : Bytes) : TcpConn × Option TcpEvent :=
  match conn.state with
  | .synSent =>
    if isSynAck buf then
      ({ conn with ack := seqNum buf + 1, seq := ackNum buf, state := .established }, some .established)
    else if has buf tcpRst then ({ conn with state := .closed }, some .reset)
    else (conn, none)
  | .established =>
    if has buf tcpRst then ({ conn with state := .closed }, some .reset)
    else if has buf tcpFin then ({ conn with ack := seqNum buf + 1, state := .closeWait }, some .closed)
    else if payload buf ≠ [] then
      -- what does not fit is dropped, but acknowledged
      ({ conn with
         rxBuf := conn.rxBuf ++ (payload buf).take (rxBufSize - conn.rxBuf.length)
         ack := conn.ack + BitVec.ofNat 32 (payload buf).length }, some .dataReceived)
    else (conn, none)
  | .finWait1 =>
    if has buf tcpAck ∧ has buf tcpFin then ({ conn with ack := seqNum buf + 1, state := .closed }, some .closed)
    else if has buf tcpFin then ({ conn with ack := seqNum buf + 1, state := .closed }, some .closed)
    else (conn, none)
  | .closeWait | .closed => (conn, none)

/-- `handle_tcp` -/
def handleTcp (conn : TcpConn) (srcIp : Ip) (buf : Bytes) : TcpConn × Option TcpEvent :=
  if conn.accepts srcIp buf then conn.receive buf else (conn, none)

/-! ### What is sent -/

def tcpHeader (srcP dstP : BitVec 16) (seq ack : BitVec 32) (flags : Byte) (window csum : BitVec 16) : Bytes :=
  toBe16 srcP ++ toBe16 dstP ++ toBe32 seq ++ toBe32 ack ++ [0x50, flags] ++ toBe16 window ++ toBe16 csum ++ [0, 0]

def buildTcp (srcP dstP : BitVec 16) (seq ack : BitVec 32) (flags : Byte) (window : BitVec 16) (payload : Bytes) (cap : Nat) :
    Bytes :=
  if cap < 20 + payload.length then [] else tcpHeader srcP dstP seq ack flags window 0 ++ payload

/-- The room for the pseudo header and the segment. -/
def maxPseudo : Nat := 12 + 20 + 512 + 20

def tcpChecksum (src dst : Ip) (tcpData : Bytes) : BitVec 16 :=
  if maxPseudo < 12 + tcpData.length then 0
  else ipChecksum (src.toList ++ dst.toList ++ [0, 6] ++ toBe16 (BitVec.ofNat 16 tcpData.length) ++ tcpData)

def fillTcpChecksum (src dst : Ip) (seg : Bytes) : Bytes :=
  if seg.length < 20 then seg
  else
    let blank := seg.take 16 ++ [0, 0] ++ seg.drop 18
    seg.take 16 ++ toBe16 (tcpChecksum src dst blank) ++ seg.drop 18

end Rost.Net
