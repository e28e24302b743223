import Rost.Vfs.Server
import Rost.Lib.Run

/-!
# Failed requests

A request that is answered with an error should change nothing.  Two handlers break this: `OP_OPEN` creates or truncates
the node before it asks for a descriptor, and `OP_UNLINK` closes the descriptors of a path before it looks for the node.
`failed_unchanged_iff` says exactly when they do.
-/

namespace Rost.Vfs

open Lib (Slots Run exec run_of_exec)

/-! ### The condition -/

namespace Server

/-- The request fails after it has changed something: there is no descriptor for a file that has been created or truncated,
or there is no node at a path that somebody has open. -/
def LeavesHalf (s : Server) (sender : Nat) : Request → Prop
  | .open oflags path =>
    isWrite oflags = true ∧ Fd.NoneLeft s.table sender (trimNull path) ∧
      match Mutable.find s.nodes (trimNull path) with
      | none => oflags &&& oCreat ≠ 0 ∧ Mutable.CanCreate s.nodes (trimNull path)
      | some i => oflags &&& oTrunc ≠ 0 ∧ (s.nodes.get i).dlen ≠ 0
  | .unlink path =>
    Mutable.find s.nodes (trimNull path) = none ∧
      ∃ i, (s.table.get i).used = true ∧ (s.table.get i).path = (trimNull path).take 64
  | _ => False

/-- If the request is answered with an error, nothing has changed. -/
def FailsClean (env : Env) (s : Server) (req : Message) : Prop :=
  ∀ s' replies e, s.dispatch env req = some (s', replies) → .error e ∈ replies → s' = s

/-- A handler that has answered with an error leaves the state as it was. -/
def Clean (s : Server) (out : Server × Reply) : Prop := ∀ e, out.2 = .error e → out.1 = s

theorem clean_same (s : Server) (r : Reply) : s.Clean (s, r) := fun _ _ => rfl

theorem clean_of_ne {s : Server} {out : Server × Reply} (h : ∀ e, out.2 ≠ .error e) : s.Clean out :=
  fun e he => absurd he (h e)

variable {env : Env} {s : Server} {sender : Nat}

theorem clean_handleWriteOpen (flags : Byte) (path : Bytes) : s.Clean (s.handleWriteOpen env flags path) := by
  unfold handleWriteOpen
  split
  · exact s.clean_same _
  · split
    · exact s.clean_same _
    · split
      · exact s.clean_same _
      · exact clean_of_ne (by simp)

theorem clean_handleWriteData (chunkLen : Nat) (bytes : Bytes) : s.Clean (s.handleWriteData chunkLen bytes) := by
  unfold handleWriteData
  split
  · exact s.clean_same _
  · simp only
    split
    · exact s.clean_same _
    · exact clean_of_ne (by simp)

theorem clean_handleWriteClose : s.Clean s.handleWriteClose := by
  unfold handleWriteClose
  split
  · exact s.clean_same _
  · exact clean_of_ne (by simp)

theorem clean_handleMkdir (path : Bytes) : s.Clean (s.handleMkdir env path) := by
  unfold handleMkdir
  split
  · exact s.clean_same _
  · split
    · exact clean_of_ne (by simp)
    · exact s.clean_same _

theorem clean_handleClose (fd : Nat) : s.Clean (s.handleClose sender fd) := by
  unfold handleClose
  split
  · exact clean_of_ne (by simp)
  · exact s.clean_same _

theorem clean_advanceBy (fd : Nat) (r : Reply) : s.Clean (s.advanceBy sender fd r) := by
  cases r with
  | data total chunk => exact clean_of_ne (by simp [advanceBy])
  | _ => exact s.clean_same _

theorem clean_handleReadFd {fd : Nat} {out : Server × Reply} (h : s.handleReadFd env sender fd = some out) : s.Clean out := by
  rcases handleReadFd_cases h with ⟨r, rfl⟩ | ⟨r, rfl⟩
  · exact s.clean_same r
  · exact clean_advanceBy fd r

theorem clean_handleWriteFd (fd chunkLen : Nat) (bytes : Bytes) : s.Clean (s.handleWriteFd sender fd chunkLen bytes) := by
  unfold handleWriteFd
  split
  · exact s.clean_same _
  · split
    · exact s.clean_same _
    · split
      · exact s.clean_same _
      · simp only
        split
        · exact s.clean_same _
        · exact clean_of_ne (by simp)

theorem clean_handleSeek (fd newOffset : Nat) : s.Clean (s.handleSeek sender fd newOffset) := by
  unfold handleSeek
  split
  · exact s.clean_same _
  · exact clean_of_ne (by simp)

/-! ### Opening a file -/

/-- A file is opened for writing: its node is there already, and is truncated perhaps; or it is created. -/
theorem openForWrite_ok {oflags : Byte} {path : Bytes} {nodes : Nodes} (h : s.openForWrite env oflags path = .ok nodes) :
    (∃ i, Mutable.find s.nodes (trimNull path) = some i ∧
      nodes = if oflags &&& oTrunc ≠ 0 then Mutable.truncate s.nodes i else s.nodes) ∨
    (Mutable.find s.nodes (trimNull path) = none ∧ oflags &&& oCreat ≠ 0 ∧ Mutable.CanCreate s.nodes (trimNull path) ∧
      ∃ j, (s.nodes.get j).used = false ∧ (nodes.get j).used = true) := by
  unfold openForWrite at h
  cases hfind : Mutable.find s.nodes (trimNull path) with
  | some i =>
    left
    have hcreated : nodes = if oflags &&& oTrunc ≠ 0 then Mutable.truncate s.nodes i else s.nodes := by
      rw [Mutable.alloc_of_find hfind] at h
      simp only [hfind, Option.isSome_some, if_true, ite_self, Except.map, Except.ok.injEq] at h
      exact h.symm
    exact ⟨i, rfl, hcreated⟩
  | none =>
    right
    simp only [hfind, Option.isSome_none] at h
    by_cases hcreat : oflags &&& oCreat ≠ 0
    · rw [if_pos hcreat] at h
      cases halloc : Mutable.alloc s.nodes (trimNull path) 0 with
      | none =>
        rw [halloc] at h
        cases h
      | some out =>
        obtain ⟨nodes₁, j⟩ := out
        obtain ⟨hroom, hfree, n, rfl, -, -, -, hused, -⟩ := Mutable.alloc_of_find_none hfind halloc
        rw [halloc] at h
        simp only [Except.map, Except.ok.injEq] at h
        refine ⟨rfl, hcreat, hroom, j, hfree, ?_⟩
        subst h
        split
        · split
          · rw [Mutable.used_truncate, Slots.get_set_self, hused]
          · rw [Slots.get_set_self, hused]
        · rw [Slots.get_set_self, hused]
    · rw [if_neg hcreat] at h
      simp only [Bool.false_eq_true, if_false] at h
      cases hstatic : Static.lookup env.progs path with
      | none =>
        rw [hstatic] at h
        cases h
      | some n =>
        rw [hstatic] at h
        cases h

theorem openForWrite_of_canCreate {oflags : Byte} {path : Bytes} (h : Mutable.find s.nodes (trimNull path) = none)
    (hcreat : oflags &&& oCreat ≠ 0) (hroom : Mutable.CanCreate s.nodes (trimNull path)) :
    ∃ nodes, s.openForWrite env oflags path = .ok nodes := by
  have hcreated : ∃ nodes j, Mutable.alloc s.nodes (trimNull path) 0 = some (nodes, j) := Mutable.alloc_isSome h hroom
  obtain ⟨nodes, j, halloc⟩ := hcreated
  unfold openForWrite
  rw [if_pos hcreat, halloc]
  exact ⟨_, rfl⟩

theorem clean_handleOpen_iff (oflags : Byte) (path : Bytes) :
    s.Clean (s.handleOpen env sender oflags path) ↔ ¬ s.LeavesHalf sender (.open oflags path) := by
  constructor
  · rintro hclean ⟨hwrite, hnone, hchange⟩
    have hopened : ∃ nodes, s.openForWrite env oflags path = .ok nodes ∧ nodes ≠ s.nodes := by
      cases hfind : Mutable.find s.nodes (trimNull path) with
      | some i =>
        rw [hfind] at hchange
        refine ⟨_, openForWrite_of_find hfind, fun heq => hchange.2 ?_⟩
        rw [if_pos hchange.1] at heq
        rw [← heq]
        simp [Mutable.truncate, MutNode.truncate]
      | none =>
        rw [hfind] at hchange
        have hopened : ∃ nodes, s.openForWrite env oflags path = .ok nodes :=
          openForWrite_of_canCreate hfind hchange.1 hchange.2
        obtain ⟨nodes, hok⟩ := hopened
        refine ⟨nodes, hok, fun heq => ?_⟩
        rcases openForWrite_ok hok with ⟨i, hi, -⟩ | ⟨-, -, -, j, hfree, hused⟩
        · rw [hfind] at hi
          cases hi
        · rw [heq, hfree] at hused
          cases hused
    obtain ⟨nodes, hok, hne⟩ := hopened
    have hout : s.handleOpen env sender oflags path = ({ s with nodes := nodes }, .error .emfile) := by
      unfold handleOpen
      rw [if_pos hwrite, hok, Fd.alloc_eq_none_iff.2 hnone]
    rw [hout] at hclean
    exact hne (congrArg Server.nodes (hclean .emfile rfl))
  · intro hnot e he
    unfold handleOpen at he ⊢
    split
    · rfl
    · rename_i nodes hok
      rw [hok] at he
      simp only at he
      simp only
      split
      · rename_i halloc
        have hnone := Fd.alloc_eq_none_iff.1 halloc
        have hsame : nodes = s.nodes := by
          by_cases hwrite : isWrite oflags = true
          · rw [if_pos hwrite] at hok
            rcases openForWrite_ok hok with ⟨i, hi, heq⟩ | ⟨hfind, hcreat, hroom, -⟩
            · by_cases htrunc : oflags &&& oTrunc ≠ 0
              · have hempty : (s.nodes.get i).dlen = 0 := by
                  by_contra hdlen
                  refine hnot ⟨hwrite, hnone, ?_⟩
                  rw [hi]
                  exact ⟨htrunc, hdlen⟩
                rw [heq, if_pos htrunc, Mutable.truncate_eq_self hempty]
              · rw [heq, if_neg htrunc]
            · refine absurd ⟨hwrite, hnone, ?_⟩ hnot
              rw [hfind]
              exact ⟨hcreat, hroom⟩
          · rw [if_neg hwrite] at hok
            exact openForRead_ok hok
        rw [hsame]
      · rename_i table n halloc
        rw [halloc] at he
        simp at he

/-! ### Removing a file -/

theorem clean_handleUnlink_iff (path : Bytes) :
    s.Clean (s.handleUnlink path) ↔ ¬ s.LeavesHalf sender (.unlink path) := by
  unfold handleUnlink Mutable.remove
  cases hfind : Mutable.find s.nodes (trimNull path) with
  | some i =>
    constructor
    · rintro - ⟨hnone, -⟩
      rw [hfind] at hnone
      cases hnone
    · intro _
      exact clean_of_ne (by simp)
  | none =>
    have hws : (if s.ws.any fun w => decide (none = some w.idx) then none else s.ws) = s.ws := by
      cases s.ws with
      | none => rfl
      | some w => simp
    simp only [Option.map_none, hws]
    constructor
    · rintro hclean ⟨-, i, hi⟩
      have htable := congrArg Server.table (hclean .enoent rfl)
      exact Fd.freeAllPath_eq_self_iff.1 htable i hi
    · intro hnot e _
      have htable : Fd.freeAllPath s.table ((trimNull path).take 64) = s.table :=
        Fd.freeAllPath_eq_self_iff.2 fun i hi => hnot ⟨hfind, i, hi⟩
      simp only [htable]

/-! ### Every request -/

/-- The reply of a handler is the only one. -/
private theorem failsClean_iff {out : Server × Reply} :
    (∀ s' replies e, some (out.map id fun r => [r]) = some (s', replies) → Reply.error e ∈ replies → s' = s) ↔
      s.Clean out := by
  obtain ⟨s₁, r⟩ := out
  constructor
  · intro h e he
    exact h s₁ [r] e rfl (by simpa using he.symm)
  · intro h s' replies e heq hmem
    simp only [Prod.map_apply, id_eq, Option.some.injEq, Prod.mk.injEq] at heq
    obtain ⟨rfl, rfl⟩ := heq
    exact h e (List.mem_singleton.1 hmem).symm

/-- A request that is answered with an error has changed nothing, except exactly in these cases. -/
theorem failed_unchanged_iff (env : Env) (s : Server) (req : Message) :
    s.FailsClean env req ↔ ¬ s.LeavesHalf req.sender (.decode req.data) := by
  unfold FailsClean dispatch
  cases Request.decode req.data with
  | readdir | read | stat | fstat => exact iff_of_true (fun _ _ _ h _ => same_of_map h) id
  | mount | unknown =>
    refine iff_of_true (fun s' replies e h _ => ?_) id
    cases h
    rfl
  | writeOpen flags path => exact iff_of_true (failsClean_iff.2 (clean_handleWriteOpen flags path)) id
  | writeData chunkLen bytes => exact iff_of_true (failsClean_iff.2 (clean_handleWriteData chunkLen bytes)) id
  | writeClose => exact iff_of_true (failsClean_iff.2 clean_handleWriteClose) id
  | mkdir path => exact iff_of_true (failsClean_iff.2 (clean_handleMkdir path)) id
  | unlink path => exact failsClean_iff.trans (clean_handleUnlink_iff path)
  | «open» oflags path => exact failsClean_iff.trans (clean_handleOpen_iff oflags path)
  | close fd => exact iff_of_true (failsClean_iff.2 (clean_handleClose fd)) id
  | readFd fd =>
    refine iff_of_true (fun s' replies e h hmem => ?_) id
    obtain ⟨out, hout, heq⟩ := Option.map_eq_some_iff.1 h
    exact failsClean_iff.2 (clean_handleReadFd hout) s' replies e (congrArg some heq) hmem
  | writeFd fd chunkLen bytes => exact iff_of_true (failsClean_iff.2 (clean_handleWriteFd fd chunkLen bytes)) id
  | seek fd newOffset => exact iff_of_true (failsClean_iff.2 (clean_handleSeek fd newOffset)) id

/-- A request of process 9 with the given words before the path, which is `/motd.txt`. -/
def onMotd (op flags : Word) : Message := ⟨9, #v[op, flags, 0x78742E64746F6D2F, 0x74, 0, 0, 0, 0]⟩

/-- Two requests of a process that fail half-way.  It opens `/motd.txt` for reading, and `OP_UNLINK` does not find the
file, but closes the descriptor; and when it has eight descriptors, `OP_OPEN` does not give it another one, but creates
the file. -/
theorem failed_changed :
    (∃ es s s', Run (dispatch bareEnv) (fun _ _ => True) new es s ∧
      s.dispatch bareEnv (onMotd 0x29 0) = some (s', [.error .enoent]) ∧ s' ≠ s) ∧
    ∃ es s s', Run (dispatch bareEnv) (fun _ _ => True) new es s ∧
      s.dispatch bareEnv (onMotd 0x30 5) = some (s', [.error .emfile]) ∧ s' ≠ s := by
  refine ⟨?_, ?_⟩
  · have hexec : (exec (dispatch bareEnv) (fun _ _ => True) new [onMotd 0x30 0]).any (fun out =>
        (out.1.dispatch bareEnv (onMotd 0x29 0)).any fun next => decide (next.2 = [.error .enoent] ∧
          (next.1.table.get 0).used ≠ (out.1.table.get 0).used)) = true := by decide
    obtain ⟨⟨s, es⟩, hrun, hnext⟩ := (Option.any_eq_true _ _).1 hexec
    obtain ⟨⟨s', replies⟩, hcall, hout⟩ := (Option.any_eq_true _ _).1 hnext
    obtain ⟨hreply, hused⟩ := of_decide_eq_true hout
    exact ⟨es, s, s', run_of_exec hrun, by rw [hcall, ← hreply], fun heq => hused (by rw [heq])⟩
  · have hexec : (exec (dispatch bareEnv) (fun _ _ => True) new (List.replicate 8 (onMotd 0x30 0))).any (fun out =>
        (out.1.dispatch bareEnv (onMotd 0x30 5)).any fun next => decide (next.2 = [.error .emfile] ∧
          (next.1.nodes.get 0).used ≠ (out.1.nodes.get 0).used)) = true := by decide
    obtain ⟨⟨s, es⟩, hrun, hnext⟩ := (Option.any_eq_true _ _).1 hexec
    obtain ⟨⟨s', replies⟩, hcall, hout⟩ := (Option.any_eq_true _ _).1 hnext
    obtain ⟨hreply, hused⟩ := of_decide_eq_true hout
    exact ⟨es, s, s', run_of_exec hrun, by rw [hcall, ← hreply], fun heq => hused (by rw [heq])⟩

end Server

end Rost.Vfs
