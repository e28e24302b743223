import Rost.Vfs.Path
import Rost.Lib.Words

/-!
# The health monitor

`init`, the first process: it is told of every fault, restarts the services it watches, takes their heartbeats, keeps a
boot log, and exits when a critical service is lost or a shutdown is requested.  A handler returns the new state and the
system calls it makes; what the kernel answers is a parameter.  What it prints on the serial line is left out.
-/

namespace Rost

namespace Monitor

open Lib (packWord)
open Vfs (Bytes ascii)

/-! ### Numbers of the protocol -/

def opHeartbeat : Word := 0x0001
def opLogRead : Word := 0x0002
def opLogReadReply : Word := 0x8002
def opShutdown : Word := 0x00FF

def faultDe : Word := 0xDE
def faultGp : Word := 0x0D
def faultPf : Word := 0x0E

def maxRestarts : Nat := 3
def maxServices : Nat := 8
def heartbeatTimeoutNs : Nat := 5000000000
def logEntries : Nat := 16

/-- `u64::MAX`: a service without a pid, a heartbeat that has not come. -/
def unset : Word := BitVec.ofNat 64 u64Max

/-! ### The boot log -/

structure LogEntry where
  seq : Nat
  ts : Word
  text : Bytes

def LogEntry.zeroed : LogEntry := ⟨u64Max, 0, List.replicate 32 0⟩

structure LogBuf where
  entries : Vector LogEntry logEntries
  write : Nat
  count : Nat
  nextSeq : Nat
  write_lt : write < logEntries

namespace LogBuf

def new : LogBuf := ⟨Vector.replicate logEntries .zeroed, 0, 0, 0, by decide⟩

/-- The text is cut to 31 bytes and padded with zeros. -/
def append (l : LogBuf) (ts : Word) (text : Bytes) : LogBuf where
  entries := l.entries.set l.write ⟨l.nextSeq, ts, text.take 31 ++ List.replicate (32 - min text.length 31) 0⟩ l.write_lt
  write := (l.write + 1) % logEntries
  count := if l.count < logEntries then l.count + 1 else l.count
  nextSeq := wrapAdd 64 l.nextSeq 1
  write_lt := Nat.mod_lt _ (by decide)

/-- The entry with this number, searched from the oldest one on. -/
def get (l : LogBuf) (seq : Nat) : Option LogEntry :=
  let oldestIdx := if l.count < logEntries then 0 else l.write
  ((List.range l.count).map fun i => l.entries.get ⟨(oldestIdx + i) % logEntries, Nat.mod_lt _ (by decide)⟩).find?
    fun e => e.seq == seq

end LogBuf

/-- `TextBuf::push`: a text holds 31 bytes. -/
def push (text s : Bytes) : Bytes := (text ++ s).take 31

/-- `TextBuf::push_dec` -/
def pushDec (text : Bytes) (v : Nat) : Bytes := push text ((Nat.toDigits 10 v).map fun c => BitVec.ofNat 8 c.toNat)

/-! ### State -/

structure ServiceEntry where
  name : Bytes
  critical : Bool
  pid : Word
  restartCount : Nat
deriving DecidableEq

def ServiceEntry.new (name : Bytes) (critical : Bool) : ServiceEntry := ⟨name, critical, unset, 0⟩

/-- The name without its padding. -/
def ServiceEntry.label (svc : ServiceEntry) : Bytes := svc.name.takeWhile fun b => b != 0

end Monitor

/-- What `init` keeps between two messages. -/
structure Monitor where
  services : List Monitor.ServiceEntry
  lastBeat : Vector Word Monitor.maxServices
  log : Monitor.LogBuf

namespace Monitor

open Lib (packWord)
open Vfs (Bytes ascii)

/-- The services that are watched. -/
def bootServices : List ServiceEntry :=
  [.new (ascii "uart-drv" ++ List.replicate 8 0) true, .new (ascii "rost-vfs" ++ List.replicate 8 0) true,
    .new (ascii "rost-shell" ++ List.replicate 6 0) false]

/-- The state before the first message; `myPid` and `ts` are answered by the kernel. -/
def start (myPid : Nat) (ts : Word) : Monitor where
  services := bootServices
  lastBeat := Vector.replicate maxServices unset
  log := LogBuf.new.append ts (pushDec (push [] (ascii "init started pid=")) myPid)

/-- What the kernel answers while one message is handled: the clock, call by call, and the new pid of a restart. -/
structure Answers where
  clock : Nat → Word
  restartServer : Option Nat

/-- The system calls of `init` that others can notice. -/
inductive Call where
  | restartServer (name : Bytes)
  | sendMsg (toPid : Nat) (msg : Message)
  | exit (code : Nat)
deriving DecidableEq

def Call.isExit : Call → Bool
  | .exit _ => true
  | _ => false

/-- `ordered_shutdown` -/
def orderedShutdown : List Call := [.exit 1]

/-! ### Messages -/

def isFault (op : Word) : Bool := op == faultDe || op == faultGp || op == faultPf

def faultName (op : Word) : Bytes :=
  if op = faultDe then ascii "#DE(div-by-zero)"
  else if op = faultGp then ascii "#GP(general-protection)"
  else if op = faultPf then ascii "#PF(page-fault)"
  else ascii "#??(unknown)"

/-- The index of the first service with this pid. -/
def watcher (m : Monitor) (pid : Word) : Option Nat := m.services.findIdx? fun svc => svc.pid == pid

/-- The restart logic for the service at index `i`. -/
def attemptRestart (m : Monitor) (ans : Answers) (i : Nat) : Monitor × List Call :=
  match m.services[i]? with
  | none => (m, [])
  | some svc =>
    if svc.restartCount < maxRestarts then
      let svc := { svc with restartCount := svc.restartCount + 1 }
      match ans.restartServer with
      | some newPid =>
        ({ m with
           services := m.services.set i { svc with pid := BitVec.ofNat 64 newPid }
           log := m.log.append (ans.clock 1)
             (push (push (pushDec (push [] (ascii "RESTART OK pid=")) newPid) (ascii " ")) svc.label) },
          [.restartServer svc.name])
      | none =>
        ({ m with
           services := m.services.set i svc
           log := m.log.append (ans.clock 1) (push (push [] (ascii "RESTART FAIL ")) svc.label) },
          .restartServer svc.name :: if svc.critical then orderedShutdown else [])
    else
      ({ m with
         services := m.services.set i { svc with pid := unset }
         log := m.log.append (ans.clock 1) (push (push [] (ascii "BUDGET EXHAUSTED ")) svc.label) },
        if svc.critical then orderedShutdown else [])

/-- The answer to a request for the log entry with the number `arg`. -/
def logReply (m : Monitor) (arg : Word) : Message :=
  let reply := (((Message.new 0).setData 0 opLogReadReply).setData 1 arg).setData 2 (BitVec.ofNat 64 m.log.nextSeq)
  match m.log.get arg.toNat with
  | none => reply
  | some e =>
    (List.range 4).foldl (fun reply chunk => reply.setData (4 + chunk) (packWord e.text chunk)) (reply.setData 3 e.ts)

/-- `handle_msg` -/
def handleMsg (m : Monitor) (ans : Answers) (msg : Message) : Monitor × List Call :=
  let op := msg.getData 0
  let arg := msg.getData 1
  if isFault op then
    let text := pushDec (push (push (push [] (ascii "FAULT ")) (faultName op)) (ascii " pid=")) arg.toNat
    let m := { m with log := m.log.append (ans.clock 0) text }
    match m.watcher arg with
    | none => (m, [])
    | some i => m.attemptRestart ans i
  else if op = opHeartbeat then
    match m.watcher arg with
    | none => (m, [])
    | some i =>
      -- a first match beyond the heartbeat table has no match within it
      if h : i < maxServices then ({ m with lastBeat := m.lastBeat.set i (ans.clock 0) h }, []) else (m, [])
  else if op = opLogRead then (m, [.sendMsg msg.sender (m.logReply arg)])
  else if op = opShutdown then (m, orderedShutdown)
  else (m, [])

/-- Handle messages one after the other, until `init` exits. -/
def handleAll : Monitor → List (Answers × Message) → Monitor × List Call
  | m, [] => (m, [])
  | m, (ans, msg) :: rest =>
    match m.handleMsg ans msg with
    | (m, calls) =>
      if calls.any Call.isExit then (m, calls)
      else ((m.handleAll rest).1, calls ++ (m.handleAll rest).2)

end Monitor

end Rost
