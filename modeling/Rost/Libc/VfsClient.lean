import Rost.Vfs.Server

/-!
# The client of the file server

The part of the C library that forwards file operations to the file server.  `SYS_CALL` delivers the first reply of the
server; a request that the server does not come back from has no result (`none`).  The value -1 of the C functions is the
inner `none`; the error number that they set is left out.
-/

namespace Rost.Libc

open Vfs (Env Server Reply Bytes chunkSize)
open Lib (Slots)

/-! ### Requests -/

/-- `call(VFS_PID, req, resp)` -/
def vfsCall (env : Env) (s : Server) (pid : Nat) (req : Vfs.Request) : Option (Server × Reply) :=
  (s.handle env pid req).bind fun out => out.2.head?.map fun r => (out.1, r)

/-- The path in 48 bytes with a NUL at the end; `path` is the C string without its NUL. -/
def packPath (path : Bytes) : Bytes := (path ++ [0]).take 47 ++ List.replicate (48 - min (path.length + 1) 47) 0

def vfsOpen (env : Env) (s : Server) (pid : Nat) (path : Bytes) (oflags : Byte) : Option (Server × Option Nat) :=
  (vfsCall env s pid (.open oflags (packPath path))).map fun out =>
    (out.1, match out.2 with | .fd n => some n | _ => none)

def vfsClose (env : Env) (s : Server) (pid vfd : Nat) : Option (Server × Bool) :=
  (vfsCall env s pid (.close vfd)).map fun out => (out.1, decide (out.2 = .ok))

/-- At most `bufLen` bytes of the chunk are kept. -/
def vfsReadChunk (env : Env) (s : Server) (pid vfd bufLen : Nat) : Option (Server × Option Bytes) :=
  (vfsCall env s pid (.readFd vfd)).map fun out =>
    (out.1, match out.2 with
      | .data _ chunk => some (chunk.take (min (min chunk.length chunkSize) bufLen))
      | .done => some []
      | _ => none)

/-- The number of bytes that were sent. -/
def vfsWriteChunk (env : Env) (s : Server) (pid vfd : Nat) (data : Bytes) : Option (Server × Option Nat) :=
  let n := min data.length chunkSize
  (vfsCall env s pid (.writeFd vfd n (data.take n ++ List.replicate (chunkSize - n) 0))).map fun out =>
    (out.1, match out.2 with | .ok => some n | _ => none)

/-! ### The loops of `read` and `write` -/

/-- `rem` bytes are still wanted.  Each pass but the last gets a byte, so `rem` passes are enough. -/
def readLoop (env : Env) (pid vfd : Nat) : Nat → Server → Nat → Option (Server × Option Bytes)
  | 0, s, _ => some (s, some [])
  | fuel + 1, s, rem =>
    if rem = 0 then some (s, some [])
    else
      match vfsReadChunk env s pid vfd (min rem chunkSize) with
      | none => none
      | some (s, none) => some (s, none)
      | some (s, some []) => some (s, some [])
      | some (s, some (b :: bytes)) =>
        -- an error after the first chunk ends the call with what was read
        (readLoop env pid vfd fuel s (rem - (bytes.length + 1))).map fun out =>
          (out.1, some (b :: bytes ++ out.2.getD []))

def writeLoop (env : Env) (pid vfd : Nat) : Nat → Server → Bytes → Option (Server × Option Nat)
  | 0, s, _ => some (s, some 0)
  | fuel + 1, s, data =>
    if data = [] then some (s, some 0)
    else
      match vfsWriteChunk env s pid vfd (data.take chunkSize) with
      | none => none
      | some (s, none) => some (s, none)
      | some (s, some n) =>
        (writeLoop env pid vfd fuel s (data.drop n)).map fun out => (out.1, some (n + out.2.getD 0))

/-! ### The descriptor table of a process -/

/-- `OPEN_MAX` -/
def openMax : Nat := 32

/-- `FD_TABLE`: the server's number for each descriptor that is in use. -/
abbrev FdTable := Slots openMax (Option Nat)

/-- A descriptor that is negative or one of the three standard streams is refused. -/
def toVfd (t : FdTable) (fd : Nat) : Option Nat := if h : 3 ≤ fd ∧ fd < openMax then t.get ⟨fd, h.2⟩ else none

def allocFd (t : FdTable) (vfd : Nat) : Option (FdTable × Fin openMax) :=
  ((List.finRange openMax).find? fun i => decide (3 ≤ i.val) && (t.get i).isNone).map fun i => (t.set i (some vfd), i)

def releaseFd (t : FdTable) (fd : Nat) : FdTable :=
  if h : 3 ≤ fd ∧ fd < openMax then t.set ⟨fd, h.2⟩ none else t

/-- The server, and the table of the process that makes the call. -/
abbrev Shared := Server × FdTable

/-- `open`, by its safe wrapper; the server gets `flags & 0x1F`. -/
def openPath (env : Env) (pid : Nat) (x : Shared) (path : Bytes) (flags : Byte) : Option (Shared × Option (Fin openMax)) :=
  (vfsOpen env x.1 pid path (flags &&& 0x1F)).bind fun out =>
    match out.2 with
    | none => some ((out.1, x.2), none)
    | some vfd =>
      match allocFd x.2 vfd with
      | some (t, fd) => some ((out.1, t), some fd)
      | none => (vfsClose env out.1 pid vfd).map fun closed => ((closed.1, x.2), none)

def close (env : Env) (pid : Nat) (x : Shared) (fd : Nat) : Option (Shared × Bool) :=
  match toVfd x.2 fd with
  | none => some (x, false)
  | some vfd => (vfsClose env x.1 pid vfd).map fun out => ((out.1, if out.2 then releaseFd x.2 fd else x.2), out.2)

/-- `read` on a descriptor of the file server. -/
def read (env : Env) (pid : Nat) (x : Shared) (fd count : Nat) : Option (Shared × Option Bytes) :=
  if count = 0 then some (x, some [])
  else
    match toVfd x.2 fd with
    | none => some (x, none)
    | some vfd => (readLoop env pid vfd count x.1 count).map fun out => ((out.1, x.2), out.2)

/-- `write` on a descriptor of the file server. -/
def write (env : Env) (pid : Nat) (x : Shared) (fd : Nat) (data : Bytes) : Option (Shared × Option Nat) :=
  match toVfd x.2 fd with
  | none => some (x, none)
  | some vfd => (writeLoop env pid vfd data.length x.1 data).map fun out => ((out.1, x.2), out.2)

end Rost.Libc
