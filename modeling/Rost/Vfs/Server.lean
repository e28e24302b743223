import Rost.Vfs.Static
import Rost.Vfs.Fat32
import Rost.Vfs.Mutable
import Rost.Vfs.Fd

/-!
# The server

The requests to the file server and its handlers.  A path is looked for in the writable layer, on the FAT32 volume and in
the static tree, in this order.  A handler that asks the volume may not come back (`none`).
-/

namespace Rost.Vfs

open Fat32 (DirRecord)

inductive Errno where
  | enoent | enotdir | eisdir | enosys | enospc | ebadf | emfile | eacces
deriving DecidableEq

/-- A reply to the client.  The name of an entry is what is left of it in 40 bytes that end at the first NUL. -/
inductive Reply where
  | entry (name : Bytes) (flags size : Nat)
  | done
  | data (total : Nat) (chunk : Bytes)
  | stat (flags size : Nat)
  | mount (path fstype : Bytes)
  | ok
  | fd (n : Nat)
  | error (errno : Errno)
deriving DecidableEq

/-- What the server is built with, and the disk. -/
structure Env where
  progs : Static.Programs
  disk : Disk

/-- The one write session: the node that is written, and where the next bytes go. -/
structure WriteSession where
  idx : Fin maxNodes
  offset : Nat
deriving DecidableEq

/-- The statics of the server. -/
structure Server where
  nodes : Nodes
  table : FdTable
  ws : Option WriteSession

namespace Server

def new : Server := ⟨.replicate _ .empty, .replicate _ .empty, none⟩

/-- Up to 40 bytes from `offset` on. -/
def dataReply (contents : Bytes) (offset : Nat) : Reply :=
  if contents.length ≤ offset then .done else .data contents.length ((contents.drop offset).take chunkSize)

/-! ### Listing a directory -/

/-- A set of up to 32 names, cut to 40 bytes. -/
def seenAdd (seen : List Bytes) (name : Bytes) : List Bytes :=
  if 32 ≤ seen.length then seen else seen ++ [name.take 40]

def seenContains (seen : List Bytes) (name : Bytes) : Bool := seen.any fun n => eqCi n name

def entryReply (name : Bytes) (flags size : Nat) : Reply := .entry (trimNull (name.take nameBytes)) flags size

/-- The path of a child, in 64 bytes. -/
def buildChildPath (parent name : Bytes) : Bytes :=
  if trimNull parent = [slash] then slash :: (trimNull name).take 63
  else
    let dir := (trimNull parent).take 63
    if dir.length < 63 then dir ++ slash :: (trimNull name).take (63 - dir.length - 1) else dir

/-- Whether the static tree has the directory; an error if no layer has it. -/
def hasStaticDir (env : Env) (s : Server) (target : Bytes) : Option (Except Errno Bool) :=
  let node := (Mutable.find s.nodes (trimNull target)).map s.nodes.get
  match Static.lookup env.progs target with
  | some n =>
    if n.isDir then some (.ok true)
    else if node.any MutNode.isDir then some (.ok false)
    else some (.error .enotdir)
  | none =>
    match node with
    | some n => some (if n.isDir then .ok false else .error .enotdir)
    | none => do
      match ← Fat32.lookup env.disk (trimNull target) with
      | some fi => some (if fi.isDir then .ok false else .error .enotdir)
      | none => some (.error .enoent)

/-- The entries of the volume that no node of the writable layer shadows. -/
def fatEntries (seenByMut : List Bytes) (records : List DirRecord) : List DirRecord :=
  records.filter fun r => !seenContains seenByMut r.name

/-- The entries of the static tree that nothing shadows. -/
def staticEntries (env : Env) (s : Server) (target : Bytes) (fatSeen : List Bytes) : List (Bytes × Node) :=
  match Static.lookup env.progs target with
  | some (.dir children) => children.filter fun entry =>
      (Mutable.find s.nodes (buildChildPath target entry.1)).isNone && !seenContains fatSeen (trimNull entry.1)
  | _ => []

def handleReaddir (env : Env) (s : Server) (path : Bytes) : Option (List Reply) := do
  let target := if trimNull path = [] then [slash] else path
  match ← s.hasStaticDir env target with
  | .error e => some [.error e]
  | .ok static =>
    let children := Mutable.childrenOf s.nodes (trimNull target)
    let seenByMut := children.foldl (fun seen c => seenAdd seen (trimNull c.1)) []
    let records ← Fat32.readdir env.disk (trimNull target)
    let fat := fatEntries seenByMut records
    let fatSeen := fat.foldl (fun seen r => seenAdd seen r.name) []
    some (fat.map (fun r => entryReply r.name (if r.isDir then 1 else 0) r.size) ++
      (if static then s.staticEntries env target fatSeen else []).map (fun c => entryReply c.1 c.2.flags c.2.size) ++
      children.map (fun c => entryReply c.1 (s.nodes.get c.2).flags.toNat (s.nodes.get c.2).dlen) ++ [.done])

/-! ### Reading by path -/

def handleRead (env : Env) (s : Server) (offset : Nat) (path : Bytes) : Option Reply :=
  match Mutable.find s.nodes (trimNull path) with
  | some i => some (if (s.nodes.get i).isDir then .error .eisdir else dataReply (s.nodes.get i).contents offset)
  | none => do
    match ← Fat32.readFile env.disk (trimNull path) (offset % 2 ^ 32) with
    | some (size, bytes) => some (if bytes = [] then .done else .data size bytes)
    | none =>
      match Static.lookup env.progs path with
      | none => some (.error .enoent)
      | some (.dir _) => some (.error .eisdir)
      | some (.file data _) => some (dataReply data offset)

def handleStat (env : Env) (s : Server) (path : Bytes) : Option Reply :=
  match Mutable.find s.nodes (trimNull path) with
  | some i => some (.stat (s.nodes.get i).flags.toNat (s.nodes.get i).dlen)
  | none => do
    match ← Fat32.lookup env.disk (trimNull path) with
    | some fi => some (.stat (if fi.isDir then 1 else 0) fi.size)
    | none =>
      match Static.lookup env.progs path with
      | none => some (.error .enoent)
      | some n => some (.stat n.flags n.size)

def handleMount : List Reply := [.mount (ascii "/") (ascii "ramfs"), .done]

/-! ### The write session -/

def handleWriteOpen (env : Env) (s : Server) (flags : Byte) (path : Bytes) : Server × Reply :=
  if (Static.lookup env.progs path).any Node.isDir then (s, .error .eisdir)
  else if (Mutable.find s.nodes (trimNull path)).any fun i => (s.nodes.get i).isDir then (s, .error .eisdir)
  else
    match Mutable.alloc s.nodes (trimNull path) (flags &&& ~~~flagDir) with
    | none => (s, .error .enospc)
    | some (nodes, i) => ({ s with nodes := Mutable.truncate nodes i, ws := some ⟨i, 0⟩ }, .ok)

def handleWriteData (s : Server) (chunkLen : Nat) (bytes : Bytes) : Server × Reply :=
  match s.ws with
  | none => (s, .error .ebadf)
  | some w =>
    let valid := min chunkLen chunkSize
    match Mutable.writeChunk s.nodes w.idx w.offset (bytes.take valid) with
    | none => (s, .error .enospc)
    | some nodes => ({ s with nodes := nodes, ws := some { w with offset := w.offset + valid } }, .ok)

def handleWriteClose (s : Server) : Server × Reply :=
  match s.ws with
  | none => (s, .error .ebadf)
  | some _ => ({ s with ws := none }, .ok)

/-! ### Directories and removal -/

def handleMkdir (env : Env) (s : Server) (path : Bytes) : Server × Reply :=
  if (Static.lookup env.progs path).any fun n => !n.isDir then (s, .error .enotdir)
  else
    match Mutable.alloc s.nodes (trimNull path) flagDir with
    | some (nodes, _) => ({ s with nodes := nodes }, .ok)
    | none => (s, .error .enospc)

def handleUnlink (s : Server) (path : Bytes) : Server × Reply :=
  let found := Mutable.find s.nodes (trimNull path)
  let ws := if s.ws.any fun w => decide (found = some w.idx) then none else s.ws
  let table := Fd.freeAllPath s.table ((trimNull path).take 64)
  match Mutable.remove s.nodes (trimNull path) with
  | some nodes => (⟨nodes, table, ws⟩, .ok)
  | none => (⟨s.nodes, table, ws⟩, .error .enoent)

/-! ### File descriptors -/

/-- The file is opened for writing, which takes a node of the writable layer. -/
def openForWrite (env : Env) (s : Server) (oflags : Byte) (path : Bytes) : Except Errno Nodes :=
  let created : Except Errno Nodes :=
    if oflags &&& oCreat ≠ 0 then
      match Mutable.alloc s.nodes (trimNull path) 0 with
      | none => .error .enospc
      | some (nodes, _) => .ok nodes
    else if (Mutable.find s.nodes (trimNull path)).isSome then .ok s.nodes
    else
      match Static.lookup env.progs path with
      | none => .error .enoent
      | some n => .error (if n.isDir then .eisdir else .eacces)
  created.map fun nodes =>
    if oflags &&& oTrunc ≠ 0 then
      match Mutable.find nodes (trimNull path) with
      | some i => Mutable.truncate nodes i
      | none => nodes
    else nodes

/-- The file is opened for reading. -/
def openForRead (env : Env) (s : Server) (path : Bytes) : Except Errno Nodes :=
  if (Mutable.find s.nodes (trimNull path)).isSome then .ok s.nodes
  else
    match Static.lookup env.progs path with
    | none => .error .enoent
    | some _ => .ok s.nodes

/-- `O_WRONLY` or `O_RDWR`. -/
def isWrite (oflags : Byte) : Bool := decide (oflags &&& 0x03 = oWronly ∨ oflags &&& 0x03 = oRdwr)

def handleOpen (env : Env) (s : Server) (sender : Nat) (oflags : Byte) (path : Bytes) : Server × Reply :=
  match if isWrite oflags then s.openForWrite env oflags path else s.openForRead env path with
  | .error e => (s, .error e)
  | .ok nodes =>
    let initOffset :=
      if oflags &&& oAppend ≠ 0 then ((Mutable.find nodes (trimNull path)).map fun i => (nodes.get i).dlen).getD 0 else 0
    match Fd.alloc s.table sender (trimNull path) oflags with
    | none => ({ s with nodes := nodes }, .error .emfile)
    | some (table, n) =>
      ({ s with nodes := nodes, table := if 0 < initOffset then Fd.seek table sender n initOffset else table }, .fd n)

def handleClose (s : Server) (sender fd : Nat) : Server × Reply :=
  match Fd.free s.table sender fd with
  | some table => ({ s with table := table }, .ok)
  | none => (s, .error .ebadf)

/-- A reply with data moves the descriptor on. -/
def advanceBy (s : Server) (sender fd : Nat) : Reply → Server × Reply
  | .data total chunk => ({ s with table := Fd.advance s.table sender fd chunk.length }, .data total chunk)
  | r => (s, r)

def handleReadFd (env : Env) (s : Server) (sender fd : Nat) : Option (Server × Reply) :=
  match Fd.get s.table sender fd with
  | none => some (s, .error .ebadf)
  | some e =>
    if !e.readable then some (s, .error .eacces)
    else
      match Mutable.find s.nodes e.path with
      | some i =>
        if (s.nodes.get i).isDir then some (s, .error .eisdir)
        else some (s.advanceBy sender fd (dataReply (s.nodes.get i).contents e.offset))
      | none => do
        match ← Fat32.readFile env.disk e.path e.offset with
        | some (size, bytes) =>
          if bytes = [] then some (s, .done) else some (s.advanceBy sender fd (.data size bytes))
        | none =>
          match Static.lookup env.progs e.path with
          | none => some (s, .error .enoent)
          | some (.dir _) => some (s, .error .eisdir)
          | some (.file data _) => some (s.advanceBy sender fd (dataReply data e.offset))

def handleWriteFd (s : Server) (sender fd chunkLen : Nat) (bytes : Bytes) : Server × Reply :=
  match Fd.get s.table sender fd with
  | none => (s, .error .ebadf)
  | some e =>
    if !e.writable then (s, .error .eacces)
    else
      match Mutable.find s.nodes e.path with
      | none => (s, .error .eacces)
      | some i =>
        let writeAt := if e.oflags &&& oAppend ≠ 0 then (s.nodes.get i).dlen else e.offset
        let valid := min chunkLen chunkSize
        match Mutable.writeChunk s.nodes i writeAt (bytes.take valid) with
        | none => (s, .error .enospc)
        | some nodes => ({ s with nodes := nodes, table := Fd.advance s.table sender fd valid }, .ok)

def handleSeek (s : Server) (sender fd newOffset : Nat) : Server × Reply :=
  if (Fd.get s.table sender fd).isNone then (s, .error .ebadf)
  else ({ s with table := Fd.seek s.table sender fd newOffset }, .ok)

def handleFstat (env : Env) (s : Server) (sender fd : Nat) : Option Reply :=
  match Fd.get s.table sender fd with
  | none => some (.error .ebadf)
  | some e =>
    match Mutable.find s.nodes e.path with
    | some i => some (.stat (s.nodes.get i).flags.toNat (s.nodes.get i).dlen)
    | none => do
      match ← Fat32.lookup env.disk e.path with
      | some fi => some (.stat (if fi.isDir then 1 else 0) fi.size)
      | none =>
        match Static.lookup env.progs e.path with
        | none => some (.error .enoent)
        | some n => some (.stat n.flags n.size)

end Server

/-! ### Requests -/

/-- The requests, with their arguments. -/
inductive Request where
  | readdir (path : Bytes)
  | read (offset : Nat) (path : Bytes)
  | stat (path : Bytes)
  | mount
  | writeOpen (flags : Byte) (path : Bytes)
  | writeData (chunkLen : Nat) (bytes : Bytes)
  | writeClose
  | mkdir (path : Bytes)
  | unlink (path : Bytes)
  | open (oflags : Byte) (path : Bytes)
  | close (fd : Nat)
  | readFd (fd : Nat)
  | writeFd (fd chunkLen : Nat) (bytes : Bytes)
  | seek (fd newOffset : Nat)
  | fstat (fd : Nat)
  | unknown
deriving DecidableEq

/-- The request in a message. -/
def Request.decode (data : Vector Word dataFields) : Request :=
  let low8 := fun w : Word => w.toNat % 2 ^ 8
  let path := unpackPath data
  match data[0].toNat with
  | 0x20 => .readdir path
  | 0x22 => .read data[1].toNat path
  | 0x23 => .stat path
  | 0x24 => .mount
  | 0x25 => .writeOpen (data[1].setWidth 8) path
  | 0x26 => .writeData data[1].toNat (unpackBytesFrom data 2)
  | 0x27 => .writeClose
  | 0x28 => .mkdir path
  | 0x29 => .unlink path
  | 0x30 => .open (data[1].setWidth 8) path
  | 0x31 => .close (low8 data[1])
  | 0x32 => .readFd (low8 data[1])
  | 0x33 => .writeFd (low8 data[1]) data[2].toNat (unpackBytesFrom data 3)
  | 0x34 => .seek (low8 data[1]) (data[2].toNat % 2 ^ 32)
  | 0x35 => .fstat (low8 data[1])
  | _ => .unknown

theorem Request.path_of_unlink {data : Vector Word dataFields} {path : Bytes}
    (h : Request.decode data = .unlink path) : path = unpackPath data := by
  unfold decode at h
  simp only at h
  split at h <;> cases h
  rfl

/-- The requests that change nothing. -/
def Request.reads : Request → Bool
  | .readdir _ | .read _ _ | .stat _ | .mount | .fstat _ | .unknown => true
  | _ => false

namespace Server

/-- Handle a request of the process `sender`. -/
def handle (env : Env) (s : Server) (sender : Nat) : Request → Option (Server × List Reply)
  | .readdir path => (s.handleReaddir env path).map fun rs => (s, rs)
  | .read offset path => (s.handleRead env offset path).map fun r => (s, [r])
  | .stat path => (s.handleStat env path).map fun r => (s, [r])
  | .mount => some (s, handleMount)
  | .writeOpen flags path => some ((s.handleWriteOpen env flags path).map id fun r => [r])
  | .writeData chunkLen bytes => some ((s.handleWriteData chunkLen bytes).map id fun r => [r])
  | .writeClose => some (s.handleWriteClose.map id fun r => [r])
  | .mkdir path => some ((s.handleMkdir env path).map id fun r => [r])
  | .unlink path => some ((s.handleUnlink path).map id fun r => [r])
  | .open oflags path => some ((s.handleOpen env sender oflags path).map id fun r => [r])
  | .close fd => some ((s.handleClose sender fd).map id fun r => [r])
  | .readFd fd => (s.handleReadFd env sender fd).map fun out => out.map id fun r => [r]
  | .writeFd fd chunkLen bytes => some ((s.handleWriteFd sender fd chunkLen bytes).map id fun r => [r])
  | .seek fd newOffset => some ((s.handleSeek sender fd newOffset).map id fun r => [r])
  | .fstat fd => (s.handleFstat env sender fd).map fun r => (s, [r])
  | .unknown => some (s, [.error .enosys])

/-- Without a disk, and with empty demo programs. -/
def bareEnv : Env := ⟨⟨[], []⟩, ⟨false, fun _ => none⟩⟩

/-- One round of `dispatch_loop`. -/
def dispatch (env : Env) (s : Server) (req : Message) : Option (Server × List Reply) :=
  s.handle env req.sender (.decode req.data)

/-! ### What the handlers do -/

variable {env : Env} {s : Server} {oflags : Byte} {path : Bytes} {nodes : Nodes} {i : Fin maxNodes}

/-- A handler that only reads changes nothing. -/
theorem same_of_map {α : Type} {x : Option α} {f : α → List Reply} {s' : Server} {replies : List Reply}
    (h : x.map (fun r => (s, f r)) = some (s', replies)) : s' = s := by
  obtain ⟨r, -, heq⟩ := Option.map_eq_some_iff.1 h
  simp only [Prod.mk.injEq] at heq
  exact heq.1.symm

@[simp] theorem snd_advanceBy (sender fd : Nat) (r : Reply) : (s.advanceBy sender fd r).2 = r := by
  cases r <;> rfl

/-- A read through a descriptor changes nothing but the offset. -/
theorem handleReadFd_cases {sender fd : Nat} {out : Server × Reply} (h : s.handleReadFd env sender fd = some out) :
    (∃ r, out = (s, r)) ∨ ∃ r, out = s.advanceBy sender fd r := by
  unfold handleReadFd at h
  split at h
  · cases h
    exact .inl ⟨_, rfl⟩
  · split at h
    · cases h
      exact .inl ⟨_, rfl⟩
    · split at h
      · split at h
        · cases h
          exact .inl ⟨_, rfl⟩
        · cases h
          exact .inr ⟨_, rfl⟩
      · obtain ⟨found, -, h⟩ := Option.bind_eq_some_iff.1 h
        split at h
        · split at h
          · cases h
            exact .inl ⟨_, rfl⟩
          · cases h
            exact .inr ⟨_, rfl⟩
        · split at h
          · cases h
            exact .inl ⟨_, rfl⟩
          · cases h
            exact .inl ⟨_, rfl⟩
          · cases h
            exact .inr ⟨_, rfl⟩

/-- The handler that has left the state `s'`. -/
inductive Handled (env : Env) (s : Server) (sender : Nat) : Request → Server → Prop
  | reads {req : Request} (h : req.reads = true) : Handled env s sender req s
  | writeOpen (flags : Byte) (path : Bytes) :
      Handled env s sender (.writeOpen flags path) (s.handleWriteOpen env flags path).1
  | writeData (chunkLen : Nat) (bytes : Bytes) :
      Handled env s sender (.writeData chunkLen bytes) (s.handleWriteData chunkLen bytes).1
  | writeClose : Handled env s sender .writeClose s.handleWriteClose.1
  | mkdir (path : Bytes) : Handled env s sender (.mkdir path) (s.handleMkdir env path).1
  | unlink (path : Bytes) : Handled env s sender (.unlink path) (s.handleUnlink path).1
  | open (oflags : Byte) (path : Bytes) :
      Handled env s sender (.open oflags path) (s.handleOpen env sender oflags path).1
  | close (fd : Nat) : Handled env s sender (.close fd) (s.handleClose sender fd).1
  | readFd {fd : Nat} {out : Server × Reply} (h : s.handleReadFd env sender fd = some out) :
      Handled env s sender (.readFd fd) out.1
  | writeFd (fd chunkLen : Nat) (bytes : Bytes) :
      Handled env s sender (.writeFd fd chunkLen bytes) (s.handleWriteFd sender fd chunkLen bytes).1
  | seek (fd newOffset : Nat) : Handled env s sender (.seek fd newOffset) (s.handleSeek sender fd newOffset).1

theorem handled_of_handle {sender : Nat} {req : Request} {s' : Server} {replies : List Reply}
    (h : s.handle env sender req = some (s', replies)) : Handled env s sender req s' := by
  cases req with
  | readdir | read | stat | fstat =>
    rw [same_of_map h]
    exact .reads rfl
  | mount | unknown =>
    cases h
    exact .reads rfl
  | writeOpen flags path =>
    cases h
    exact .writeOpen flags path
  | writeData chunkLen bytes =>
    cases h
    exact .writeData chunkLen bytes
  | writeClose =>
    cases h
    exact .writeClose
  | mkdir path =>
    cases h
    exact .mkdir path
  | unlink path =>
    cases h
    exact .unlink path
  | «open» oflags path =>
    cases h
    exact .open oflags path
  | close fd =>
    cases h
    exact .close fd
  | readFd fd =>
    obtain ⟨out, hout, heq⟩ := Option.map_eq_some_iff.1 h
    cases heq
    exact .readFd hout
  | writeFd fd chunkLen bytes =>
    cases h
    exact .writeFd fd chunkLen bytes
  | seek fd newOffset =>
    cases h
    exact .seek fd newOffset

theorem openForWrite_of_find (h : Mutable.find s.nodes (trimNull path) = some i) :
    s.openForWrite env oflags path = .ok (if oflags &&& oTrunc ≠ 0 then Mutable.truncate s.nodes i else s.nodes) := by
  unfold openForWrite
  rw [Mutable.alloc_of_find h]
  simp only [h, Option.isSome_some, if_true, ite_self, Except.map]

/-- A file that is opened for reading changes nothing. -/
theorem openForRead_ok (h : s.openForRead env path = .ok nodes) : nodes = s.nodes := by
  unfold openForRead at h
  split at h
  · cases h
    rfl
  · split at h
    · cases h
    · cases h
      rfl

end Server

end Rost.Vfs
