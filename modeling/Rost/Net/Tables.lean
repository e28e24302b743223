import Rost.Net.Wire
import Rost.Lib.Slots

/-!
# The ARP cache and the UDP sockets

Two tables that are searched from the front, with the packets of their protocols.
-/

namespace Rost.Net

open Lib (Slots)

/-! ### ARP -/

structure ArpEntry where
  valid : Bool
  ip : Ip
  mac : Mac

abbrev ArpTable := Slots 8 ArpEntry

def ArpTable.new : ArpTable := Slots.replicate 8 ⟨false, Vector.replicate 4 0, Vector.replicate 6 0⟩

def lookupMac (t : ArpTable) (ip : Ip) : Option Mac :=
  (t.first fun e => e.valid && e.ip == ip).map fun i => (t.get i).mac

/-- A full table loses its first entry. -/
def storeArp (t : ArpTable) (ip : Ip) (mac : Mac) : ArpTable :=
  match t.first fun e => e.valid && e.ip == ip with
  | some i => t.set i { t.get i with mac := mac }
  | none =>
    match t.first fun e => !e.valid with
    | some i => t.set i ⟨true, ip, mac⟩
    | none => t.set 0 ⟨true, ip, mac⟩

def arpRequest : BitVec 16 := 1
def arpReply : BitVec 16 := 2
def arpLen : Nat := 28

def arpPacket (op : BitVec 16) (senderMac : Mac) (senderIp : Ip) (targetMac : Mac) (targetIp : Ip) : Bytes :=
  toBe16 1 ++ toBe16 ethIpv4 ++ [6, 4] ++ toBe16 op ++ senderMac.toList ++ senderIp.toList ++ targetMac.toList ++
    targetIp.toList

def buildArpRequest (ourMac : Mac) (ourIp targetIp : Ip) (cap : Nat) : Bytes :=
  buildEth macBroadcast ourMac ethArp (arpPacket arpRequest ourMac ourIp (Vector.replicate 6 0) targetIp) cap

def buildArpReply (ourMac : Mac) (ourIp : Ip) (reqMac : Mac) (reqIp : Ip) (cap : Nat) : Bytes :=
  buildEth reqMac ourMac ethArp (arpPacket arpReply ourMac ourIp reqMac reqIp) cap

/-- The sender is stored; it is returned for a reply to us and for a request for our address. -/
def handleArp (t : ArpTable) (payload : Bytes) (ourMac : Mac) (ourIp : Ip) : ArpTable × Option (Ip × Mac) :=
  if payload.length < arpLen then (t, none)
  else if be16At payload 0 ≠ 1 ∨ be16At payload 2 ≠ ethIpv4 ∨ payload.getD 4 0 ≠ 6 ∨ payload.getD 5 0 ≠ 4 then (t, none)
  else
    let op := be16At payload 6
    let senderMac : Mac := sliceAt 6 payload 8
    let senderIp : Ip := sliceAt 4 payload 14
    let targetMac : Mac := sliceAt 6 payload 18
    let targetIp : Ip := sliceAt 4 payload 24
    let t := storeArp t senderIp senderMac
    if op = arpReply ∧ targetIp = ourIp ∧ targetMac = ourMac then (t, some (senderIp, senderMac))
    else if op = arpRequest ∧ targetIp = ourIp then (t, some (senderIp, senderMac))
    else (t, none)

/-! ### UDP -/

/-- `UdpSocket`.  `rxData` are the first `rx_len` bytes of the buffer. -/
structure UdpSocket where
  active : Bool
  boundPort : BitVec 16
  ownerPid : Nat
  rxIp : Ip
  rxPort : BitVec 16
  rxData : Bytes
  hasData : Bool

abbrev UdpTable := Slots 4 UdpSocket

def UdpTable.new : UdpTable := Slots.replicate 4 ⟨false, 0, 0, Vector.replicate 4 0, 0, [], false⟩

/-- The size of `rx_data`. -/
def rxDataSize : Nat := 48

/-- The socket is bound to the port. -/
def UdpSocket.isBound (port : BitVec 16) (s : UdpSocket) : Bool := s.active && s.boundPort == port

namespace UdpTable

def bind (t : UdpTable) (port : BitVec 16) (pid : Nat) : UdpTable × Bool :=
  if (t.first (UdpSocket.isBound port)).isSome then (t, false)
  else
    match t.first fun s => !s.active with
    | none => (t, false)
    | some i =>
      (t.set i { t.get i with active := true, boundPort := port, ownerPid := pid, hasData := false, rxData := [] }, true)

/-- A datagram that has not been read is overwritten. -/
def deliver (t : UdpTable) (srcIp : Ip) (srcPort dstPort : BitVec 16) (data : Bytes) : UdpTable :=
  match t.first (UdpSocket.isBound dstPort) with
  | none => t
  | some i =>
    t.set i { t.get i with rxData := data.take rxDataSize, rxIp := srcIp, rxPort := srcPort, hasData := true }

/-- The datagram that waits at the port; the socket has none then. -/
def getPending (t : UdpTable) (port : BitVec 16) : UdpTable × Option (Ip × BitVec 16 × Bytes) :=
  match t.first fun s => s.isBound port && s.hasData with
  | none => (t, none)
  | some i => (t.set i { t.get i with hasData := false }, some ((t.get i).rxIp, (t.get i).rxPort, (t.get i).rxData))

end UdpTable

def buildUdp (srcPort dstPort : BitVec 16) (payload : Bytes) (cap : Nat) : Bytes :=
  if cap < 8 + payload.length then []
  else toBe16 srcPort ++ toBe16 dstPort ++ toBe16 (BitVec.ofNat 16 (8 + payload.length)) ++ [0, 0] ++ payload

/-- The ports and the payload. -/
def parseUdp (buf : Bytes) : Option (BitVec 16 × BitVec 16 × Bytes) :=
  if buf.length < 8 then none
  else
    let length := (be16At buf 4).toNat
    if length < 8 ∨ buf.length < length then none
    else some (be16At buf 0, be16At buf 2, (buf.take length).drop 8)

end Rost.Net
