import Rost.Vfs.FileOps
import Rost.Lib.Run

/-!
# The tables agree

Directories are empty nodes, the write session stands on a file in use, and every descriptor has a number of its own.  The
last two hold in every run.  A directory gets contents when it is written through a descriptor, and a file that is removed
stays open under another spelling of its path; `tables_agree` is about the runs without these two.
-/

namespace Rost.Vfs

open Lib (Slots Run exec run_of_exec)

/-! ### Descriptors -/

namespace Fd

/-- The descriptors in use have numbers below eight, and no two of one process have the same. -/
structure Numbered (table : FdTable) : Prop where
  fd_lt : ∀ i, (table.get i).used = true → (table.get i).fd < fdsPerProc
  inj : ∀ i j, (table.get i).used = true → (table.get j).used = true → (table.get i).pid = (table.get j).pid →
    (table.get i).fd = (table.get j).fd → i = j

/-- What is in use in `table'` was there in `table`. -/
def Kept (table table' : FdTable) : Prop :=
  ∀ i, (table'.get i).used = true → (table.get i).used = true ∧ (table'.get i).pid = (table.get i).pid ∧
    (table'.get i).fd = (table.get i).fd ∧ (table'.get i).path = (table.get i).path

variable {table table' : FdTable} {pid fd n : Nat} {path : Bytes} {oflags : Byte}

theorem Kept.refl (table : FdTable) : Kept table table := fun _ h => ⟨h, rfl, rfl, rfl⟩

theorem Numbered.of_kept (h : Numbered table) (hkept : Kept table table') : Numbered table' := by
  constructor
  · intro i hi
    obtain ⟨hused, -, hfd, -⟩ := hkept i hi
    rw [hfd]
    exact h.fd_lt i hused
  · intro i j hi hj hpid hfd
    obtain ⟨hui, hpi, hfi, -⟩ := hkept i hi
    obtain ⟨huj, hpj, hfj, -⟩ := hkept j hj
    rw [hpi, hpj] at hpid
    rw [hfi, hfj] at hfd
    exact h.inj i j hui huj hpid hfd

theorem Numbered.alloc (h : Numbered table) (halloc : alloc table pid path oflags = some (table', n)) :
    Numbered table' := by
  obtain ⟨hlt, hnone, i, hfree, rfl⟩ := alloc_spec halloc
  have hother : ∀ j, (table.get j).used = true → (table.get j).pid = pid → (table.get j).fd ≠ n := by
    intro j hused hpid hfd
    have hfor := Slots.first_eq_none_iff.1 hnone j
    rw [isFor_iff.2 ⟨hused, hpid, hfd⟩] at hfor
    cases hfor
  constructor
  · intro j hj
    by_cases hji : j = i
    · rw [hji, Slots.get_set_self]
      exact hlt
    · rw [Slots.get_set_of_ne _ hji] at hj ⊢
      exact h.fd_lt j hj
  · intro j k hj hk hpid hfd
    by_cases hji : j = i
    · by_cases hki : k = i
      · rw [hji, hki]
      · rw [hji, Slots.get_set_self, Slots.get_set_of_ne _ hki] at hpid hfd
        rw [Slots.get_set_of_ne _ hki] at hk
        exact absurd hfd.symm (hother k hk hpid.symm)
    · rw [Slots.get_set_of_ne _ hji] at hj hpid hfd
      by_cases hki : k = i
      · rw [hki, Slots.get_set_self] at hpid hfd
        exact absurd hfd (hother j hj hpid)
      · rw [Slots.get_set_of_ne _ hki] at hk hpid hfd
        exact h.inj j k hj hk hpid hfd

theorem kept_modify {f : FdEntry → FdEntry}
    (hf : ∀ e, (f e).pid = e.pid ∧ (f e).fd = e.fd ∧ (f e).used = e.used ∧ (f e).path = e.path) :
    Kept table (modify table pid fd f) := by
  unfold modify
  cases slot table pid fd with
  | none => exact .refl table
  | some i =>
    intro j hj
    by_cases hji : j = i
    · subst hji
      rw [Slots.get_set_self] at hj ⊢
      obtain ⟨hpid, hfd, hused, hpath⟩ := hf (table.get j)
      exact ⟨hused ▸ hj, hpid, hfd, hpath⟩
    · simp only at hj ⊢
      rw [Slots.get_set_of_ne _ hji] at hj ⊢
      exact ⟨hj, rfl, rfl, rfl⟩

theorem kept_advance (delta : Nat) : Kept table (advance table pid fd delta) := kept_modify fun _ => ⟨rfl, rfl, rfl, rfl⟩

theorem kept_seek (newOffset : Nat) : Kept table (seek table pid fd newOffset) := kept_modify fun _ => ⟨rfl, rfl, rfl, rfl⟩

theorem kept_free (h : free table pid fd = some table') : Kept table table' := by
  obtain ⟨i, -, rfl⟩ := Option.map_eq_some_iff.1 h
  intro j hj
  by_cases hji : j = i
  · rw [hji, Slots.get_set_self] at hj
    cases hj
  · rw [Slots.get_set_of_ne _ hji] at hj ⊢
    exact ⟨hj, rfl, rfl, rfl⟩

/-- What stays open has another path. -/
theorem path_ne_of_freeAllPath {i : Fin maxFds} (h : ((freeAllPath table path).get i).used = true) :
    (freeAllPath table path).get i = table.get i ∧ (table.get i).path ≠ path := by
  unfold freeAllPath at h ⊢
  rw [Slots.get_update] at h ⊢
  by_cases hpath : ((table.get i).used && decide ((table.get i).path = path)) = true
  · rw [if_pos hpath] at h
    cases h
  · rw [if_neg hpath] at h ⊢
    refine ⟨rfl, fun heq => hpath ?_⟩
    simp [h, heq]

theorem kept_freeAllPath : Kept table (freeAllPath table path) := by
  intro i hi
  have hsame := (path_ne_of_freeAllPath hi).1
  rw [hsame] at hi ⊢
  exact ⟨hi, rfl, rfl, rfl⟩

end Fd

/-! ### Nodes -/

/-- Directories are empty. -/
def DirsEmpty (nodes : Nodes) : Prop :=
  ∀ i, (nodes.get i).used = true → (nodes.get i).isDir = true → (nodes.get i).dlen = 0

/-- A write puts no bytes into a directory. -/
def FileOp.SparesDirs (nodes : Nodes) : FileOp → Prop
  | .write i offset src => (nodes.get i).isDir = true → offset + src.length = 0
  | _ => True

theorem DirsEmpty.effect {nodes nodes' : Nodes} {op : FileOp} (h : DirsEmpty nodes) (hspares : op.SparesDirs nodes)
    (heff : Effect op nodes nodes') : DirsEmpty nodes' := by
  intro j hused hdir
  cases heff with
  | @create _ i n hfree hn hdlen hdata =>
    by_cases hj : j = i
    · rw [hj, Slots.get_set_self, hdlen]
    · rw [Slots.get_set_of_ne _ hj] at hused hdir ⊢
      exact h j hused hdir
  | truncate _ i =>
    unfold Mutable.truncate at hused hdir ⊢
    by_cases hj : j = i
    · rw [hj, Slots.get_set_self, MutNode.dlen_truncate]
    · rw [Slots.get_set_of_ne _ hj] at hused hdir ⊢
      exact h j hused hdir
  | @write _ i offset src hfits =>
    by_cases hj : j = i
    · subst hj
      rw [Slots.get_set_self] at hused hdir ⊢
      have hempty := h j hused hdir
      have hnone := hspares hdir
      rw [MutNode.dlen_write]
      split <;> omega
    · rw [Slots.get_set_of_ne _ hj] at hused hdir ⊢
      exact h j hused hdir
  | remove _ i =>
    by_cases hj : j = i
    · rw [hj, Slots.get_set_self] at hused
      cases hused
    · rw [Slots.get_set_of_ne _ hj] at hused hdir ⊢
      exact h j hused hdir

/-- The node is a file in use. -/
def IsFile (i : Fin maxNodes) (nodes : Nodes) : Prop := (nodes.get i).used = true ∧ (nodes.get i).isDir = false

/-- A file that is not removed remains one. -/
theorem IsFile.effect {i : Fin maxNodes} {nodes nodes' : Nodes} {op : FileOp} (h : IsFile i nodes) (hop : op ≠ .remove i)
    (heff : Effect op nodes nodes') : IsFile i nodes' := by
  obtain ⟨hused, hdir⟩ := h
  cases heff with
  | @create _ j n hfree hn hdlen hdata =>
    have hij : i ≠ j := by
      rintro rfl
      rw [hfree] at hused
      cases hused
    unfold IsFile
    rw [Slots.get_set_of_ne _ hij]
    exact ⟨hused, hdir⟩
  | truncate _ j =>
    unfold IsFile Mutable.truncate
    by_cases hij : i = j
    · subst hij
      rw [Slots.get_set_self]
      exact ⟨hused, hdir⟩
    · rw [Slots.get_set_of_ne _ hij]
      exact ⟨hused, hdir⟩
  | @write _ j offset src hfits =>
    unfold IsFile
    by_cases hij : i = j
    · subst hij
      rw [Slots.get_set_self]
      exact ⟨hused, hdir⟩
    · rw [Slots.get_set_of_ne _ hij]
      exact ⟨hused, hdir⟩
  | remove _ j =>
    have hij : i ≠ j := fun heq => hop (heq ▸ rfl)
    unfold IsFile
    rw [Slots.get_set_of_ne _ hij]
    exact ⟨hused, hdir⟩

theorem IsFile.effects {i : Fin maxNodes} {nodes nodes' : Nodes} {ops : List FileOp} (h : IsFile i nodes)
    (hops : .remove i ∉ ops) (heff : Effects ops nodes nodes') : IsFile i nodes' :=
  heff.invariant (P := IsFile i) (fun hmem hm hop => hm.effect (fun heq => hops (heq ▸ hmem)) hop) h

namespace Server

/-- The write session stands on a file in use. -/
def SessionFile (s : Server) : Prop := ∀ w, s.ws = some w → IsFile w.idx s.nodes

variable {env : Env} {s : Server} {sender : Nat}

theorem remove_mem_fileOps {req : Request} {i : Fin maxNodes} (h : .remove i ∈ s.fileOps env sender req) :
    ∃ path, req = .unlink path ∧ Mutable.find s.nodes (trimNull path) = some i := by
  rcases fileOps_cases env s sender req with ⟨j, offset, src, hops, -, -⟩ | ⟨path, j, hreq, hfind, hops⟩ | hops
  · rw [hops] at h
    cases List.mem_singleton.1 h
  · rw [hops] at h
    cases List.mem_singleton.1 h
    exact ⟨path, hreq, hfind⟩
  · rcases hops _ h with ⟨j, flags, heq⟩ | ⟨j, heq⟩
    · cases heq
    · cases heq

/-! ### The handlers -/

/-- A request opens one descriptor at most. -/
def Opens (sender : Nat) (table table' : FdTable) : Prop :=
  Fd.Kept table table' ∨
    ∃ path oflags n t, Fd.alloc table sender path oflags = some (t, n) ∧ Fd.Kept t table'

theorem numbered_of_opens {table table' : FdTable} (h : Fd.Numbered table) (hopens : Opens sender table table') :
    Fd.Numbered table' := by
  rcases hopens with hkept | ⟨path, oflags, n, t, halloc, hkept⟩
  · exact h.of_kept hkept
  · exact (h.alloc halloc).of_kept hkept

theorem kept_advanceBy (fd : Nat) (r : Reply) : Fd.Kept s.table (s.advanceBy sender fd r).1.table := by
  cases r with
  | data total chunk => exact Fd.kept_advance _
  | _ => exact .refl _

theorem kept_handleReadFd {fd : Nat} {out : Server × Reply} (h : s.handleReadFd env sender fd = some out) :
    Fd.Kept s.table out.1.table := by
  rcases handleReadFd_cases h with ⟨r, rfl⟩ | ⟨r, rfl⟩
  · exact .refl _
  · exact kept_advanceBy fd r

theorem opens_handleOpen (oflags : Byte) (path : Bytes) :
    Opens sender s.table (s.handleOpen env sender oflags path).1.table := by
  unfold handleOpen
  split
  · exact .inl (.refl _)
  · cases halloc : Fd.alloc s.table sender (trimNull path) oflags with
    | none => exact .inl (.refl _)
    | some out =>
      obtain ⟨table, n⟩ := out
      have hkept : ∀ k, Fd.Kept table (if 0 < k then Fd.seek table sender n k else table) := by
        intro k
        split
        · exact Fd.kept_seek k
        · exact .refl _
      exact .inr ⟨_, _, n, table, halloc, hkept _⟩

theorem kept_handleUnlink (path : Bytes) : Fd.Kept s.table (s.handleUnlink path).1.table := by
  unfold handleUnlink
  simp only
  split <;> exact Fd.kept_freeAllPath

theorem kept_handleClose (fd : Nat) : Fd.Kept s.table (s.handleClose sender fd).1.table := by
  unfold handleClose
  split
  · rename_i table hfree
    exact Fd.kept_free hfree
  · exact .refl _

theorem kept_handleWriteFd (fd chunkLen : Nat) (bytes : Bytes) :
    Fd.Kept s.table (s.handleWriteFd sender fd chunkLen bytes).1.table := by
  unfold handleWriteFd
  split
  · exact .refl _
  · split
    · exact .refl _
    · split
      · exact .refl _
      · simp only
        split
        · exact .refl _
        · exact Fd.kept_advance _

theorem kept_handleSeek (fd newOffset : Nat) : Fd.Kept s.table (s.handleSeek sender fd newOffset).1.table := by
  unfold handleSeek
  split
  · exact .refl _
  · exact Fd.kept_seek _

/-- The handlers that do not ask the descriptors leave them as they are. -/
theorem table_handleWriteOpen (flags : Byte) (path : Bytes) :
    (s.handleWriteOpen env flags path).1.table = s.table := by
  unfold handleWriteOpen
  split
  · rfl
  · split
    · rfl
    · split <;> rfl

theorem table_handleWriteData (chunkLen : Nat) (bytes : Bytes) :
    (s.handleWriteData chunkLen bytes).1.table = s.table := by
  unfold handleWriteData
  split
  · rfl
  · simp only
    split <;> rfl

theorem table_handleMkdir (path : Bytes) : (s.handleMkdir env path).1.table = s.table := by
  unfold handleMkdir
  split
  · rfl
  · split <;> rfl

theorem table_handleWriteClose : s.handleWriteClose.1.table = s.table := by
  unfold handleWriteClose
  split <;> rfl

theorem Handled.opens {req : Request} {s' : Server} (h : Handled env s sender req s') : Opens sender s.table s'.table := by
  have hsame : ∀ {table : FdTable}, table = s.table → Opens sender s.table table := by
    rintro table rfl
    exact .inl (.refl _)
  cases h with
  | reads => exact hsame rfl
  | writeOpen flags path => exact hsame (table_handleWriteOpen flags path)
  | writeData chunkLen bytes => exact hsame (table_handleWriteData chunkLen bytes)
  | writeClose => exact hsame table_handleWriteClose
  | mkdir path => exact hsame (table_handleMkdir path)
  | unlink path => exact .inl (kept_handleUnlink path)
  | «open» oflags path => exact opens_handleOpen oflags path
  | close fd => exact .inl (kept_handleClose fd)
  | readFd hout => exact .inl (kept_handleReadFd hout)
  | writeFd fd chunkLen bytes => exact .inl (kept_handleWriteFd fd chunkLen bytes)
  | seek fd newOffset => exact .inl (kept_handleSeek fd newOffset)

/-! ### The write session -/

theorem ws_handleMkdir (path : Bytes) : (s.handleMkdir env path).1.ws = s.ws := by
  unfold handleMkdir
  split
  · rfl
  · split <;> rfl

theorem ws_handleOpen (oflags : Byte) (path : Bytes) : (s.handleOpen env sender oflags path).1.ws = s.ws := by
  unfold handleOpen
  split
  · rfl
  · simp only
    split <;> rfl

theorem ws_handleClose (fd : Nat) : (s.handleClose sender fd).1.ws = s.ws := by
  unfold handleClose
  split <;> rfl

theorem ws_handleReadFd {fd : Nat} {out : Server × Reply} (h : s.handleReadFd env sender fd = some out) :
    out.1.ws = s.ws := by
  rcases handleReadFd_cases h with ⟨r, rfl⟩ | ⟨r, rfl⟩
  · rfl
  · cases r <;> rfl

theorem ws_handleWriteFd (fd chunkLen : Nat) (bytes : Bytes) :
    (s.handleWriteFd sender fd chunkLen bytes).1.ws = s.ws := by
  unfold handleWriteFd
  split
  · rfl
  · split
    · rfl
    · split
      · rfl
      · simp only
        split <;> rfl

theorem ws_handleSeek (fd newOffset : Nat) : (s.handleSeek sender fd newOffset).1.ws = s.ws := by
  unfold handleSeek
  split <;> rfl

/-- A file that is created or found for a write session. -/
theorem isFile_alloc {nodes nodes' : Nodes} {path : Bytes} {flags : Byte} {i : Fin maxNodes}
    (h : Mutable.alloc nodes path (flags &&& ~~~flagDir) = some (nodes', i))
    (hdir : ((Mutable.find nodes path).any fun i => (nodes.get i).isDir) = false) : IsFile i nodes' := by
  cases hfind : Mutable.find nodes path with
  | some j =>
    rw [Mutable.alloc_of_find hfind] at h
    simp only [Option.some.injEq, Prod.mk.injEq] at h
    obtain ⟨rfl, rfl⟩ := h
    rw [hfind] at hdir
    exact ⟨Mutable.used_of_find hfind, by simpa using hdir⟩
  | none =>
    have hclear : ∀ b : Byte, b &&& ~~~flagDir &&& flagDir = 0 := by decide
    obtain ⟨-, -, n, rfl, -, hflags, -, hused, -⟩ := Mutable.alloc_of_find_none hfind h
    unfold IsFile MutNode.isDir
    rw [Slots.get_set_self, hflags, hclear]
    exact ⟨hused, by simp⟩

theorem session_handleWriteOpen {flags : Byte} {path : Bytes} {w : WriteSession}
    (hw : (s.handleWriteOpen env flags path).1.ws = some w) :
    s.ws = some w ∨ IsFile w.idx (s.handleWriteOpen env flags path).1.nodes := by
  unfold handleWriteOpen at hw ⊢
  split at hw
  · exact .inl hw
  · rename_i hstatic
    rw [if_neg hstatic]
    split at hw
    · exact .inl hw
    · rename_i hdir
      rw [if_neg hdir]
      split at hw
      · exact .inl hw
      · rename_i nodes i halloc
        have hfile := isFile_alloc halloc (by simpa using hdir)
        cases hw
        exact .inr (hfile.effect (by simp) (.truncate nodes i))

theorem session_handleUnlink {path : Bytes} {w : WriteSession} (hw : (s.handleUnlink path).1.ws = some w) :
    s.ws = some w ∧ Mutable.find s.nodes (trimNull path) ≠ some w.idx := by
  have hws : (if s.ws.any fun w => decide (Mutable.find s.nodes (trimNull path) = some w.idx) then none else s.ws) = some w := by
    unfold handleUnlink at hw
    simp only at hw
    split at hw <;> exact hw
  split at hws
  · cases hws
  · rename_i hany
    rw [hws] at hany
    exact ⟨hws, by simpa using hany⟩

/-- A session goes on at the node where it was, and this is not removed; or it starts at a file. -/
theorem Handled.session {req : Request} {s' : Server} {w : WriteSession} (h : Handled env s sender req s')
    (hw : s'.ws = some w) :
    (∃ w₀, s.ws = some w₀ ∧ w₀.idx = w.idx ∧ .remove w.idx ∉ s.fileOps env sender req) ∨ IsFile w.idx s'.nodes := by
  have hkeeps : ∀ {req}, (∀ path, req ≠ .unlink path) → .remove w.idx ∉ s.fileOps env sender req := by
    intro req hne hmem
    obtain ⟨path, heq, -⟩ := remove_mem_fileOps hmem
    exact hne path heq
  have hsame : ∀ {req}, (∀ path, req ≠ .unlink path) → s.ws = some w →
      ∃ w₀, s.ws = some w₀ ∧ w₀.idx = w.idx ∧ .remove w.idx ∉ s.fileOps env sender req :=
    fun hne hws => ⟨w, hws, rfl, hkeeps hne⟩
  cases h with
  | reads hreads =>
    refine .inl ⟨w, hw, rfl, ?_⟩
    rw [fileOps_of_reads hreads]
    exact List.not_mem_nil
  | writeOpen flags path =>
    rcases session_handleWriteOpen hw with hws | hfile
    · exact .inl (hsame (by simp) hws)
    · exact .inr hfile
  | writeData chunkLen bytes =>
    refine .inl ?_
    unfold handleWriteData at hw
    cases hws : s.ws with
    | none =>
      rw [hws] at hw
      simp [hws] at hw
    | some w₀ =>
      rw [hws] at hw
      simp only at hw
      split at hw
      · rw [hws] at hw
        cases hw
        exact ⟨w, rfl, rfl, hkeeps (by simp)⟩
      · cases hw
        exact ⟨w₀, rfl, rfl, hkeeps (by simp)⟩
  | writeClose =>
    unfold handleWriteClose at hw
    split at hw
    · exact .inl (hsame (by simp) hw)
    · cases hw
  | mkdir path => exact .inl (hsame (by simp) (ws_handleMkdir path ▸ hw))
  | unlink path =>
    obtain ⟨hws, hfind⟩ := session_handleUnlink hw
    refine .inl ⟨w, hws, rfl, fun hmem => ?_⟩
    obtain ⟨path', heq, hfound⟩ := remove_mem_fileOps hmem
    cases heq
    exact hfind hfound
  | «open» oflags path => exact .inl (hsame (by simp) (ws_handleOpen oflags path ▸ hw))
  | close fd => exact .inl (hsame (by simp) (ws_handleClose fd ▸ hw))
  | readFd hout => exact .inl (hsame (by simp) (ws_handleReadFd hout ▸ hw))
  | writeFd fd chunkLen bytes => exact .inl (hsame (by simp) (ws_handleWriteFd fd chunkLen bytes ▸ hw))
  | seek fd newOffset => exact .inl (hsame (by simp) (ws_handleSeek fd newOffset ▸ hw))

theorem Handled.sessionFile {req : Request} {s' : Server} (h : Handled env s sender req s') (hs : s.SessionFile) :
    s'.SessionFile := by
  intro w hw
  rcases h.session hw with ⟨w₀, hw₀, hidx, hkeeps⟩ | hfile
  · exact (hidx ▸ hs w₀ hw₀ : IsFile w.idx s.nodes).effects hkeeps h.effects
  · exact hfile

/-! ### Every run -/

/-- What the tables of the server have to do with each other. -/
structure TablesAgree (s : Server) : Prop where
  dirs : ∀ i, (s.nodes.get i).used = true → (s.nodes.get i).isDir = true → (s.nodes.get i).dlen = 0
  session : ∀ w, s.ws = some w → (s.nodes.get w.idx).used = true ∧ (s.nodes.get w.idx).isDir = false
  fd_lt : ∀ i, (s.table.get i).used = true → (s.table.get i).fd < 8
  fd_distinct : ∀ i j, (s.table.get i).used = true → (s.table.get j).used = true → i ≠ j →
    ((s.table.get i).pid, (s.table.get i).fd) ≠ ((s.table.get j).pid, (s.table.get j).fd)

/-- No descriptor is open under a path with the same canonical form. -/
def NoneOpen (s : Server) (path : Bytes) : Prop :=
  ∀ i, (s.table.get i).used = true → canon (s.table.get i).path ≠ canon (trimNull path)

/-- No bytes are written to a directory. -/
def SparesDirs (s : Server) (sender : Nat) (req : Request) : Prop :=
  ∀ i offset src, s.writeTarget sender req = some (i, offset, src) → offset + src.length ≤ maxData →
    (s.nodes.get i).isDir = true → offset + src.length = 0

/-- A file that is removed is open under this spelling of its path only. -/
def OneSpelling (s : Server) : Request → Prop
  | .unlink path => Mutable.find s.nodes (trimNull path) ≠ none → ∀ i, (s.table.get i).used = true →
      canon (s.table.get i).path = canon (trimNull path) → (s.table.get i).path = trimNull path
  | _ => True

def KeepsTables (s : Server) (req : Message) : Prop :=
  s.SparesDirs req.sender (.decode req.data) ∧ s.OneSpelling (.decode req.data)

theorem Handled.dirsEmpty {req : Request} {s' : Server} (h : Handled env s sender req s') (hs : DirsEmpty s.nodes)
    (hspares : s.SparesDirs sender req) : DirsEmpty s'.nodes := by
  rcases fileOps_cases env s sender req with ⟨i, offset, src, hops, htarget, hfits⟩ | ⟨path, i, -, -, hops⟩ | hops
  · have heff := h.effects
    rw [hops] at heff
    cases heff with
    | cons hop hrest =>
      cases hrest
      refine hs.effect ?_ hop
      exact hspares i offset src htarget hfits
  · have heff := h.effects
    rw [hops] at heff
    cases heff with
    | cons hop hrest =>
      cases hrest
      refine hs.effect ?_ hop
      trivial
  · refine h.effects.invariant (P := DirsEmpty) (fun hmem hm hop => hm.effect ?_ hop) hs
    rcases hops _ hmem with ⟨i, flags, rfl⟩ | ⟨i, rfl⟩
    · trivial
    · trivial

/-- A file that has been removed is open no longer, if it was open under this spelling only. -/
theorem noneOpen_handleUnlink {path : Bytes} (hlen : path.length ≤ 64) (hone : s.OneSpelling (.unlink path))
    (h : (s.handleUnlink path).2 = .ok) : (s.handleUnlink path).1.NoneOpen path := by
  have htake : (trimNull path).take 64 = trimNull path :=
    List.take_of_length_le (Nat.le_trans (length_trimNull_le path) hlen)
  unfold handleUnlink at h ⊢
  simp only at h ⊢
  cases hremove : Mutable.remove s.nodes (trimNull path) with
  | none =>
    rw [hremove] at h
    cases h
  | some nodes =>
    have hfound : Mutable.find s.nodes (trimNull path) ≠ none := by
      intro hnone
      unfold Mutable.remove at hremove
      rw [hnone] at hremove
      cases hremove
    intro i hused heq
    simp only [htake] at hused heq
    obtain ⟨hsame, hne⟩ := Fd.path_ne_of_freeAllPath hused
    rw [hsame] at hused heq
    exact hne (hone hfound i hused heq)

theorem dirsEmpty_new : DirsEmpty new.nodes := by
  intro i hused
  cases hused

theorem numbered_new : Fd.Numbered new.table := by
  constructor
  · intro i hused
    cases hused
  · intro i j hused
    cases hused

/-- In every run in which no bytes are written to a directory, and no file is removed that is open under another spelling
of its path, the tables agree; and a removed file is not open. -/
theorem tables_agree (env : Env) {es : List (Message × List Reply)} {s : Server}
    (h : Run (dispatch env) KeepsTables new es s) :
    s.TablesAgree ∧ ∀ req path s', s.KeepsTables req → Request.decode req.data = .unlink path →
      s.dispatch env req = some (s', [.ok]) → s'.NoneOpen path := by
  have hdirs : DirsEmpty s.nodes :=
    h.invariant (P := fun s => DirsEmpty s.nodes)
      (fun hs hkeeps hstep => (handled_of_handle hstep).dirsEmpty hs hkeeps.1) dirsEmpty_new
  have hsession : s.SessionFile :=
    h.invariant (P := SessionFile) (fun hs _ hstep => (handled_of_handle hstep).sessionFile hs) fun w hw => by cases hw
  have hnumbered : Fd.Numbered s.table :=
    h.invariant (P := fun s => Fd.Numbered s.table)
      (fun hs _ hstep => numbered_of_opens hs (handled_of_handle hstep).opens) numbered_new
  refine ⟨⟨hdirs, hsession, hnumbered.fd_lt, fun i j hi hj hne heq => ?_⟩, ?_⟩
  · simp only [Prod.mk.injEq] at heq
    exact hne (hnumbered.inj i j hi hj heq.1 heq.2)
  · intro req path s' hkeeps hreq hstep
    have hlen : path.length ≤ 64 := by
      have hpath : path = unpackPath req.data := Request.path_of_unlink hreq
      rw [hpath, length_unpackPath]
      decide
    have hone := hkeeps.2
    unfold dispatch at hstep
    rw [hreq] at hstep hone
    simp only [handle, Option.some.injEq, Prod.ext_iff, Prod.map_fst, id_eq, Prod.map_snd, List.cons.injEq, and_true] at hstep
    obtain ⟨rfl, hok⟩ := hstep
    exact noneOpen_handleUnlink hlen hone hok

/-- A request of process 9 with the path `/d`, or `/d/`. -/
def onD (op flags path : Word) : Message := ⟨9, #v[op, flags, path, 0, 0, 0, 0, 0]⟩

theorem tables_agree_opened : ∃ es s, Run (dispatch bareEnv) KeepsTables new es s ∧ es ≠ [] ∧ s.TablesAgree ∧
    ∀ req path s', s.KeepsTables req → Request.decode req.data = .unlink path →
      s.dispatch bareEnv req = some (s', [.ok]) → s'.NoneOpen path := by
  have hkeeps : KeepsTables new (onD 0x30 6 0x642F) := ⟨fun i offset src htarget => (by cases htarget), trivial⟩
  obtain ⟨s, replies, hstep⟩ : ∃ s replies, dispatch bareEnv new (onD 0x30 6 0x642F) = some (s, replies) := ⟨_, _, rfl⟩
  have hrun : Run (dispatch bareEnv) KeepsTables new _ s := .single hkeeps hstep
  exact ⟨_, s, hrun, by simp, tables_agree bareEnv hrun⟩

/-- A process makes the directory `/d`, opens it for writing and writes a byte to it.  Or it creates the file `/d`, which it
opens as `/d/`, and removes it as `/d`; the descriptor is still open. -/
theorem tables_disagree :
    (∃ es s, Run (dispatch bareEnv) (fun _ _ => True) new es s ∧ ¬ s.TablesAgree) ∧
    ∃ es s s', Run (dispatch bareEnv) (fun _ _ => True) new es s ∧
      s.dispatch bareEnv (onD 0x29 0 0x642F) = some (s', [.ok]) ∧
      Request.decode (onD 0x29 0 0x642F).data = .unlink (unpackPath (onD 0x29 0 0x642F).data) ∧
      ¬ s'.NoneOpen (unpackPath (onD 0x29 0 0x642F).data) := by
  refine ⟨?_, ?_⟩
  · have hexec : (exec (dispatch bareEnv) (fun _ _ => True) new
        [onD 0x28 0 0x642F, onD 0x30 1 0x642F, ⟨9, #v[0x33, 0, 1, 0x78, 0, 0, 0, 0]⟩]).any (fun out => decide (
          (out.1.nodes.get 0).used = true ∧ (out.1.nodes.get 0).isDir = true ∧ (out.1.nodes.get 0).dlen = 1)) = true := by
      decide
    obtain ⟨⟨s, es⟩, hrun, hout⟩ := (Option.any_eq_true _ _).1 hexec
    obtain ⟨hused, hdir, hdlen⟩ := of_decide_eq_true hout
    refine ⟨es, s, run_of_exec hrun, fun hagree => ?_⟩
    have hempty := hagree.dirs 0 hused hdir
    exact absurd (hempty.symm.trans hdlen) (by decide)
  · have hexec : (exec (dispatch bareEnv) (fun _ _ => True) new [onD 0x30 6 0x2F642F]).any (fun out =>
        (out.1.dispatch bareEnv (onD 0x29 0 0x642F)).any fun next => decide (next.2 = [.ok] ∧
          (next.1.table.get 0).used = true ∧ canon (next.1.table.get 0).path =
            canon (trimNull (unpackPath (onD 0x29 0 0x642F).data)))) = true := by decide
    obtain ⟨⟨s, es⟩, hrun, hnext⟩ := (Option.any_eq_true _ _).1 hexec
    obtain ⟨⟨s', replies⟩, hcall, hout⟩ := (Option.any_eq_true _ _).1 hnext
    obtain ⟨hok, hused, heq⟩ := of_decide_eq_true hout
    exact ⟨es, s, s', run_of_exec hrun, by rw [hcall, ← hok], rfl, fun hnone => hnone 0 hused heq⟩

end Server

end Rost.Vfs
