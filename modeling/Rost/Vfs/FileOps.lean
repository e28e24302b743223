import Rost.Vfs.Server

/-!
# What a request does to the nodes

Every request changes the table of nodes by a few operations: a node is created in a free slot, a file is emptied, bytes
are written to it, a node is removed.  `fileOps` lists the operations of a request, and `effects_dispatch` says that its
handler does just these.
-/

namespace Rost.Vfs

open Lib (Slots)

/-- An operation on the node in a slot. -/
inductive FileOp where
  | create (i : Fin maxNodes) (flags : Byte)
  | truncate (i : Fin maxNodes)
  | write (i : Fin maxNodes) (offset : Nat) (src : Bytes)
  | remove (i : Fin maxNodes)

/-- The operation takes the one table to the other. -/
inductive Effect : FileOp → Nodes → Nodes → Prop
  | create {nodes : Nodes} {i : Fin maxNodes} {n : MutNode} (hfree : (nodes.get i).used = false) (hused : n.used = true)
      (hdlen : n.dlen = 0) (hdata : ∀ k, n.data k = 0) : Effect (.create i n.flags) nodes (nodes.set i n)
  | truncate (nodes : Nodes) (i : Fin maxNodes) : Effect (.truncate i) nodes (Mutable.truncate nodes i)
  | write {nodes : Nodes} {i : Fin maxNodes} {offset : Nat} {src : Bytes} (h : offset + src.length ≤ maxData) :
      Effect (.write i offset src) nodes (nodes.set i ((nodes.get i).write offset src h))
  | remove (nodes : Nodes) (i : Fin maxNodes) : Effect (.remove i) nodes (nodes.set i { nodes.get i with used := false })

/-- The operations take the one table to the other, one after another. -/
inductive Effects : List FileOp → Nodes → Nodes → Prop
  | nil (nodes : Nodes) : Effects [] nodes nodes
  | cons {op : FileOp} {ops : List FileOp} {nodes nodes₁ nodes' : Nodes} (h : Effect op nodes nodes₁)
      (hrest : Effects ops nodes₁ nodes') : Effects (op :: ops) nodes nodes'

theorem Effects.append {ops ops' : List FileOp} {nodes nodes₁ nodes' : Nodes} (h : Effects ops nodes nodes₁)
    (h' : Effects ops' nodes₁ nodes') : Effects (ops ++ ops') nodes nodes' := by
  induction h with
  | nil => exact h'
  | cons heff _ ih => exact .cons heff (ih h')

theorem Effects.of_eq {nodes nodes' : Nodes} (h : nodes' = nodes) : Effects [] nodes nodes' := h ▸ .nil nodes'

theorem Effect.effects {op : FileOp} {nodes nodes' : Nodes} (h : Effect op nodes nodes') : Effects [op] nodes nodes' :=
  .cons h (.nil _)

/-- What each operation keeps holds at the end. -/
theorem Effects.invariant {P : Nodes → Prop} {ops : List FileOp} {nodes nodes' : Nodes} (h : Effects ops nodes nodes')
    (hP : ∀ {op m m'}, op ∈ ops → P m → Effect op m m' → P m') (hs : P nodes) : P nodes' := by
  induction h with
  | nil => exact hs
  | cons heff _ ih => exact ih (fun hmem => hP (List.mem_cons_of_mem _ hmem)) (hP List.mem_cons_self hs heff)

/-- The operation that `mutable::alloc` does. -/
def Mutable.allocOps (nodes : Nodes) (path : Bytes) (flags : Byte) : List FileOp :=
  match find nodes path, alloc nodes path flags with
  | none, some (_, i) => [.create i flags]
  | _, _ => []

theorem Mutable.effects_alloc {nodes nodes' : Nodes} {path : Bytes} {flags : Byte} {i : Fin maxNodes}
    (h : alloc nodes path flags = some (nodes', i)) : Effects (allocOps nodes path flags) nodes nodes' := by
  unfold allocOps
  cases hfind : find nodes path with
  | some j =>
    rw [alloc_of_find hfind] at h
    simp only [Option.some.injEq, Prod.mk.injEq] at h
    obtain ⟨rfl, -⟩ := h
    exact .nil _
  | none =>
    obtain ⟨-, hfree, n, rfl, -, rfl, hdlen, hused, hdata⟩ := alloc_of_find_none hfind h
    rw [h]
    exact (Effect.create hfree hused hdlen (by simp [hdata])).effects

theorem Mutable.allocOps_of_none {nodes : Nodes} {path : Bytes} {flags : Byte} (h : alloc nodes path flags = none) :
    allocOps nodes path flags = [] := by
  unfold allocOps
  rw [h]
  cases find nodes path <;> rfl

theorem Mutable.mem_allocOps {nodes : Nodes} {path : Bytes} {flags : Byte} {op : FileOp}
    (h : op ∈ allocOps nodes path flags) : find nodes path = none ∧ ∃ i, op = .create i flags := by
  unfold allocOps at h
  split at h
  · rename_i i hfind halloc
    exact ⟨hfind, i, List.mem_singleton.1 h⟩
  · cases h

/-- To empty a file that has just been created changes nothing. -/
theorem Mutable.truncate_created {nodes nodes' : Nodes} {path : Bytes} {flags : Byte} {i j : Fin maxNodes}
    (hfind : find nodes path = none) (halloc : alloc nodes path flags = some (nodes', i)) (hj : find nodes' path = some j) :
    truncate nodes' j = nodes' := by
  obtain ⟨-, -, n, rfl, -, -, hdlen, -, -⟩ := alloc_of_find_none hfind halloc
  have hat := Slots.first_spec hj
  have hij : j = i := by
    by_contra hne
    rw [Slots.get_set_of_ne _ hne, Slots.first_eq_none_iff.1 hfind j] at hat
    cases hat
  apply truncate_eq_self
  rw [hij, Slots.get_set_self, hdlen]

namespace Server

/-- Where the request writes, and what. -/
def writeTarget (s : Server) (sender : Nat) : Request → Option (Fin maxNodes × Nat × Bytes)
  | .writeData chunkLen bytes => s.ws.map fun w => (w.idx, w.offset, bytes.take (min chunkLen chunkSize))
  | .writeFd fd chunkLen bytes =>
    (Fd.get s.table sender fd).bind fun e =>
      if e.writable then
        (Mutable.find s.nodes e.path).map fun i =>
          (i, if e.oflags &&& oAppend ≠ 0 then (s.nodes.get i).dlen else e.offset, bytes.take (min chunkLen chunkSize))
      else none
  | _ => none

/-- The operations that the request does, whatever its reply is. -/
def fileOps (env : Env) (s : Server) (sender : Nat) (req : Request) : List FileOp :=
  match req with
  | .writeOpen flags path =>
    if (Static.lookup env.progs path).any Node.isDir then []
    else if (Mutable.find s.nodes (trimNull path)).any fun i => (s.nodes.get i).isDir then []
    else
      match Mutable.alloc s.nodes (trimNull path) (flags &&& ~~~flagDir) with
      | none => []
      | some (_, i) => Mutable.allocOps s.nodes (trimNull path) (flags &&& ~~~flagDir) ++ [.truncate i]
  | .mkdir path =>
    if (Static.lookup env.progs path).any fun n => !n.isDir then [] else Mutable.allocOps s.nodes (trimNull path) flagDir
  | .unlink path => ((Mutable.find s.nodes (trimNull path)).map FileOp.remove).toList
  | .open oflags path =>
    if isWrite oflags then
      match Mutable.find s.nodes (trimNull path) with
      | some i => if oflags &&& oTrunc ≠ 0 then [.truncate i] else []
      | none => if oflags &&& oCreat ≠ 0 then Mutable.allocOps s.nodes (trimNull path) 0 else []
    else []
  | req =>
    match s.writeTarget sender req with
    | some (i, offset, src) => if offset + src.length ≤ maxData then [.write i offset src] else []
    | none => []

variable {env : Env} {s : Server} {sender : Nat}

/-- A request writes once, or removes one node, or creates and empties files. -/
theorem fileOps_cases (env : Env) (s : Server) (sender : Nat) (req : Request) :
    (∃ i offset src, s.fileOps env sender req = [.write i offset src] ∧
      s.writeTarget sender req = some (i, offset, src) ∧ offset + src.length ≤ maxData) ∨
    (∃ path i, req = .unlink path ∧ Mutable.find s.nodes (trimNull path) = some i ∧
      s.fileOps env sender req = [.remove i]) ∨
    ∀ op ∈ s.fileOps env sender req, (∃ i flags, op = .create i flags) ∨ ∃ i, op = .truncate i := by
  cases req with
  | writeData chunkLen bytes | writeFd fd chunkLen bytes =>
    unfold fileOps
    simp only
    split
    · rename_i i offset src htarget
      split
      · rename_i hfits
        exact .inl ⟨i, offset, src, rfl, htarget, hfits⟩
      · exact .inr (.inr fun op hop => by cases hop)
    · exact .inr (.inr fun op hop => by cases hop)
  | unlink path =>
    cases hfind : Mutable.find s.nodes (trimNull path) with
    | some i => exact .inr (.inl ⟨path, i, rfl, hfind, by simp [fileOps, hfind]⟩)
    | none => exact .inr (.inr fun op hop => by simp [fileOps, hfind] at hop)
  | writeOpen flags path =>
    refine .inr (.inr fun op hop => ?_)
    unfold fileOps at hop
    simp only at hop
    split at hop
    · cases hop
    · split at hop
      · cases hop
      · split at hop
        · cases hop
        · rename_i i halloc
          rcases List.mem_append.1 hop with hop | hop
          · obtain ⟨-, j, heq⟩ := Mutable.mem_allocOps hop
            exact .inl ⟨j, _, heq⟩
          · exact .inr ⟨i, List.mem_singleton.1 hop⟩
  | mkdir path =>
    refine .inr (.inr fun op hop => ?_)
    unfold fileOps at hop
    simp only at hop
    split at hop
    · cases hop
    · obtain ⟨-, j, heq⟩ := Mutable.mem_allocOps hop
      exact .inl ⟨j, _, heq⟩
  | «open» oflags path =>
    refine .inr (.inr fun op hop => ?_)
    unfold fileOps at hop
    simp only at hop
    split at hop
    · split at hop
      · rename_i i hfind
        split at hop
        · exact .inr ⟨i, List.mem_singleton.1 hop⟩
        · cases hop
      · split at hop
        · obtain ⟨-, j, heq⟩ := Mutable.mem_allocOps hop
          exact .inl ⟨j, _, heq⟩
        · cases hop
    · cases hop
  | _ => exact .inr (.inr fun op hop => by simp [fileOps, writeTarget] at hop)

theorem effects_handleWriteOpen (flags : Byte) (path : Bytes) :
    Effects (s.fileOps env sender (.writeOpen flags path)) s.nodes (s.handleWriteOpen env flags path).1.nodes := by
  simp only [fileOps, handleWriteOpen]
  split
  · exact .nil _
  · split
    · exact .nil _
    · cases halloc : Mutable.alloc s.nodes (trimNull path) (flags &&& ~~~flagDir) with
      | none => exact .nil _
      | some out =>
        obtain ⟨nodes, i⟩ := out
        exact (Mutable.effects_alloc halloc).append (Effect.truncate nodes i).effects

theorem effects_handleMkdir (path : Bytes) :
    Effects (s.fileOps env sender (.mkdir path)) s.nodes (s.handleMkdir env path).1.nodes := by
  simp only [fileOps, handleMkdir]
  split
  · exact .nil _
  · cases halloc : Mutable.alloc s.nodes (trimNull path) flagDir with
    | none =>
      rw [Mutable.allocOps_of_none halloc]
      exact .nil _
    | some out => exact Mutable.effects_alloc halloc

theorem effects_handleUnlink (path : Bytes) :
    Effects (s.fileOps env sender (.unlink path)) s.nodes (s.handleUnlink path).1.nodes := by
  simp only [fileOps, handleUnlink, Mutable.remove]
  cases Mutable.find s.nodes (trimNull path) with
  | none => exact .nil _
  | some i => exact (Effect.remove s.nodes i).effects

theorem effects_openForWrite {oflags : Byte} {path : Bytes} {nodes : Nodes} (hwrite : isWrite oflags = true)
    (h : s.openForWrite env oflags path = .ok nodes) :
    Effects (s.fileOps env sender (.open oflags path)) s.nodes nodes := by
  simp only [fileOps, hwrite, if_true]
  cases hfind : Mutable.find s.nodes (trimNull path) with
  | some i =>
    rw [openForWrite_of_find hfind] at h
    cases h
    simp only
    split
    · exact (Effect.truncate s.nodes i).effects
    · exact .nil _
  | none =>
    unfold openForWrite at h
    simp only [hfind, Option.isSome_none, Bool.false_eq_true, if_false] at h
    by_cases hcreat : oflags &&& oCreat ≠ 0
    · rw [if_pos hcreat] at h ⊢
      cases halloc : Mutable.alloc s.nodes (trimNull path) 0 with
      | none =>
        rw [halloc] at h
        cases h
      | some out =>
        obtain ⟨nodes₁, i⟩ := out
        rw [halloc] at h
        simp only [Except.map, Except.ok.injEq] at h
        have hsame : nodes = nodes₁ := by
          rw [← h]
          split
          · split
            · rename_i j hj
              exact Mutable.truncate_created hfind halloc hj
            · rfl
          · rfl
        rw [hsame]
        exact Mutable.effects_alloc halloc
    · rw [if_neg hcreat] at h
      cases hstatic : Static.lookup env.progs path <;> simp [hstatic, Except.map] at h

/-- A file that is not opened leaves the nodes as they are. -/
theorem fileOps_of_error {oflags : Byte} {path : Bytes} {e : Errno}
    (h : (if isWrite oflags = true then s.openForWrite env oflags path else s.openForRead env path) = .error e) :
    Effects (s.fileOps env sender (.open oflags path)) s.nodes s.nodes := by
  simp only [fileOps]
  by_cases hwrite : isWrite oflags = true
  · rw [if_pos hwrite] at h ⊢
    cases hfind : Mutable.find s.nodes (trimNull path) with
    | some i =>
      rw [openForWrite_of_find hfind] at h
      cases h
    | none =>
      simp only
      by_cases hcreat : oflags &&& oCreat ≠ 0
      · unfold openForWrite at h
        rw [if_pos hcreat] at h ⊢
        cases halloc : Mutable.alloc s.nodes (trimNull path) 0 with
        | some out =>
          rw [halloc] at h
          cases h
        | none =>
          rw [Mutable.allocOps_of_none halloc]
          exact .nil _
      · rw [if_neg hcreat]
        exact .nil _
  · rw [if_neg hwrite]
    exact .nil _

theorem effects_handleOpen (oflags : Byte) (path : Bytes) :
    Effects (s.fileOps env sender (.open oflags path)) s.nodes (s.handleOpen env sender oflags path).1.nodes := by
  have hnodes : ∀ nodes, (if isWrite oflags = true then s.openForWrite env oflags path else s.openForRead env path) =
      .ok nodes → Effects (s.fileOps env sender (.open oflags path)) s.nodes nodes := by
    intro nodes hok
    by_cases hwrite : isWrite oflags = true
    · rw [if_pos hwrite] at hok
      exact effects_openForWrite hwrite hok
    · rw [if_neg hwrite] at hok
      rw [openForRead_ok hok]
      simp only [fileOps]
      rw [if_neg hwrite]
      exact .nil _
  unfold handleOpen
  split
  · rename_i hok
    exact fileOps_of_error hok
  · rename_i nodes hok
    cases halloc : Fd.alloc s.table sender (trimNull path) oflags with
    | none => simpa [halloc] using hnodes nodes hok
    | some out => simpa [halloc] using hnodes nodes hok

/-- A chunk that does not fit is not written. -/
theorem effects_writeChunk (i : Fin maxNodes) (offset : Nat) (src : Bytes) :
    Effects (if offset + src.length ≤ maxData then [.write i offset src] else []) s.nodes
      ((Mutable.writeChunk s.nodes i offset src).getD s.nodes) := by
  unfold Mutable.writeChunk
  by_cases hfits : offset + src.length ≤ maxData
  · rw [if_pos hfits, dif_pos hfits]
    exact (Effect.write hfits).effects
  · rw [if_neg hfits, dif_neg hfits]
    exact .nil _

theorem effects_handleWriteData (chunkLen : Nat) (bytes : Bytes) :
    Effects (s.fileOps env sender (.writeData chunkLen bytes)) s.nodes (s.handleWriteData chunkLen bytes).1.nodes := by
  simp only [fileOps, writeTarget, handleWriteData]
  cases s.ws with
  | none => exact .nil _
  | some w =>
    have heff := s.effects_writeChunk w.idx w.offset (bytes.take (min chunkLen chunkSize))
    simp only [Option.map_some]
    cases hchunk : Mutable.writeChunk s.nodes w.idx w.offset (bytes.take (min chunkLen chunkSize)) with
    | none => simpa [hchunk] using heff
    | some nodes => simpa [hchunk] using heff

theorem effects_handleWriteFd (fd chunkLen : Nat) (bytes : Bytes) :
    Effects (s.fileOps env sender (.writeFd fd chunkLen bytes)) s.nodes
      (s.handleWriteFd sender fd chunkLen bytes).1.nodes := by
  simp only [fileOps, writeTarget, handleWriteFd]
  cases Fd.get s.table sender fd with
  | none => exact .nil _
  | some e =>
    simp only [Option.bind_some]
    by_cases hwritable : e.writable = true
    · simp only [hwritable, Bool.not_true, Bool.false_eq_true, if_true, if_false]
      cases Mutable.find s.nodes e.path with
      | none => exact .nil _
      | some i =>
        simp only [Option.map_some]
        generalize (if e.oflags &&& oAppend ≠ 0 then (s.nodes.get i).dlen else e.offset) = writeAt
        have heff := s.effects_writeChunk i writeAt (bytes.take (min chunkLen chunkSize))
        cases hchunk : Mutable.writeChunk s.nodes i writeAt (bytes.take (min chunkLen chunkSize)) with
        | none =>
          rw [hchunk] at heff
          exact heff
        | some nodes =>
          rw [hchunk] at heff
          exact heff
    · simp only [hwritable, Bool.false_eq_true, if_false]
      exact .nil _

theorem nodes_handleWriteClose : s.handleWriteClose.1.nodes = s.nodes := by
  unfold handleWriteClose
  split <;> rfl

theorem nodes_handleClose (fd : Nat) : (s.handleClose sender fd).1.nodes = s.nodes := by
  unfold handleClose
  split <;> rfl

theorem nodes_handleSeek (fd newOffset : Nat) : (s.handleSeek sender fd newOffset).1.nodes = s.nodes := by
  unfold handleSeek
  split <;> rfl

theorem nodes_advanceBy (fd : Nat) (r : Reply) : (s.advanceBy sender fd r).1.nodes = s.nodes := by
  cases r <;> rfl

theorem nodes_handleReadFd {fd : Nat} {out : Server × Reply} (h : s.handleReadFd env sender fd = some out) :
    out.1.nodes = s.nodes := by
  rcases handleReadFd_cases h with ⟨r, rfl⟩ | ⟨r, rfl⟩
  · rfl
  · exact nodes_advanceBy fd r

theorem fileOps_of_reads {req : Request} (h : req.reads = true) : s.fileOps env sender req = [] := by
  cases req with
  | readdir | read | stat | mount | fstat | unknown => rfl
  | _ => cases h

/-- A request does its operations on the nodes, and nothing else. -/
theorem Handled.effects {req : Request} {s' : Server} (h : Handled env s sender req s') :
    Effects (s.fileOps env sender req) s.nodes s'.nodes := by
  cases h with
  | reads hreads =>
    rw [fileOps_of_reads hreads]
    exact .nil _
  | writeOpen flags path => exact effects_handleWriteOpen flags path
  | writeData chunkLen bytes => exact effects_handleWriteData chunkLen bytes
  | writeClose => exact .of_eq nodes_handleWriteClose
  | mkdir path => exact effects_handleMkdir path
  | unlink path => exact effects_handleUnlink path
  | «open» oflags path => exact effects_handleOpen oflags path
  | close fd => exact .of_eq (nodes_handleClose fd)
  | readFd hout => exact .of_eq (nodes_handleReadFd hout)
  | writeFd fd chunkLen bytes => exact effects_handleWriteFd fd chunkLen bytes
  | seek fd newOffset => exact .of_eq (nodes_handleSeek fd newOffset)

theorem effects_dispatch {req : Message} {s' : Server} {replies : List Reply}
    (h : s.dispatch env req = some (s', replies)) :
    Effects (s.fileOps env req.sender (.decode req.data)) s.nodes s'.nodes := (handled_of_handle h).effects

end Server

end Rost.Vfs
