import Rost.Vfs.FileOps
import Rost.Lib.Sparse
import Rost.Lib.Run

/-!
# Files as sparse byte arrays

The server is run beside a specification that keeps, for each slot of the table, the writes to its file since the file was
created or emptied.  The contents of the files agree with it as long as no write leaves a gap over old bytes: emptying a
file sets its length only, and a write behind the end brings back what stood there (`files_sparse`,
`files_not_sparse`).
-/

namespace Rost.Vfs

open Lib (Slots Sparse Run exec run_of_exec)

instance zeroByte : Zero Byte := ⟨0⟩

/-- What the operation does to the files of the specification. -/
def FileOp.apply (files : Fin maxNodes → Sparse Byte) : FileOp → Fin maxNodes → Sparse Byte
  | .create i _ | .truncate i => fun j => if j = i then [] else files j
  | .write i offset src => fun j => if j = i then (offset, src) :: files j else files j
  | .remove _ => files

/-- The files in use are the files of the specification. -/
def HoldsFiles (files : Fin maxNodes → Sparse Byte) (nodes : Nodes) : Prop :=
  ∀ i, (nodes.get i).used = true → Sparse.Holds (nodes.get i).data (nodes.get i).dlen (files i)

/-- There are zeros between the end of the file and the place of a write. -/
def GapClear (nodes : Nodes) (i : Fin maxNodes) (offset : Nat) : Prop :=
  ∀ k < offset, (nodes.get i).dlen ≤ k → (nodes.get i).data k = 0

theorem HoldsFiles.effect {files : Fin maxNodes → Sparse Byte} {nodes nodes' : Nodes} {op : FileOp}
    (h : HoldsFiles files nodes) (hgap : ∀ i offset src, op = .write i offset src → GapClear nodes i offset) (heff : Effect op nodes nodes') :
    HoldsFiles (op.apply files) nodes' := by
  intro j hused
  cases heff with
  | @create _ i n hfree hn hdlen hdata =>
    by_cases hj : j = i
    · rw [hj, Slots.get_set_self, hdlen]
      simpa [FileOp.apply] using Sparse.holds_nil n.data
    · rw [Slots.get_set_of_ne _ hj] at hused ⊢
      simpa [FileOp.apply, hj] using h j hused
  | truncate _ i =>
    unfold Mutable.truncate at hused ⊢
    by_cases hj : j = i
    · rw [hj, Slots.get_set_self]
      simpa [FileOp.apply] using Sparse.holds_nil (nodes.get i).truncate.data
    · rw [Slots.get_set_of_ne _ hj] at hused ⊢
      simpa [FileOp.apply, hj] using h j hused
  | @write _ i offset src hfits =>
    by_cases hj : j = i
    · subst hj
      rw [Slots.get_set_self] at hused ⊢
      have hclear : ∀ k, (nodes.get j).dlen ≤ k → k < offset → (nodes.get j).data k = 0 :=
        fun k hk hoff => hgap j offset src rfl k hoff hk
      have hholds := (Sparse.holds_write_iff (h j hused) offset src).2 hclear
      simp only [FileOp.apply, if_true]
      exact hholds
    · rw [Slots.get_set_of_ne _ hj] at hused ⊢
      simpa [FileOp.apply, hj] using h j hused
  | remove _ i =>
    by_cases hj : j = i
    · rw [hj, Slots.get_set_self] at hused
      cases hused
    · rw [Slots.get_set_of_ne _ hj] at hused ⊢
      exact h j hused

/-- A request with at most one write, which leaves no old bytes in a gap. -/
theorem HoldsFiles.effects {files : Fin maxNodes → Sparse Byte} {nodes nodes' : Nodes} {ops : List FileOp}
    (h : HoldsFiles files nodes) (heff : Effects ops nodes nodes')
    (hgap : ∀ i offset src, .write i offset src ∈ ops → ops = [.write i offset src] ∧ GapClear nodes i offset) :
    HoldsFiles (ops.foldl FileOp.apply files) nodes' := by
  induction heff generalizing files with
  | nil => exact h
  | @cons op ops nodes nodes₁ nodes' hop hrest ih =>
    refine ih (h.effect ?_ hop) ?_
    · rintro i offset src rfl
      exact (hgap i offset src List.mem_cons_self).2
    · intro i offset src hmem
      have hsingle := (hgap i offset src (List.mem_cons_of_mem _ hmem)).1
      rw [List.cons.injEq] at hsingle
      rw [hsingle.2] at hmem
      cases hmem

namespace Server

/-- A write that fits leaves no old bytes in a gap. -/
def KeepsSparse (s : Server) (req : Message) : Prop :=
  match s.writeTarget req.sender (.decode req.data) with
  | some (i, offset, src) => offset + src.length ≤ maxData → GapClear s.nodes i offset
  | none => True

instance decidableKeepsSparse (s : Server) (req : Message) : Decidable (s.KeepsSparse req) := by
  unfold KeepsSparse GapClear
  cases s.writeTarget req.sender (.decode req.data) with
  | none => exact isTrue trivial
  | some target => infer_instance

/-- What clients read from the files in use. -/
structure ReadsSparse (env : Env) (s : Server) (files : Fin maxNodes → Sparse Byte) : Prop where
  contents : ∀ i, (s.nodes.get i).used = true → (s.nodes.get i).contents = (files i).contents
  size : ∀ i, (s.nodes.get i).used = true → (s.nodes.get i).dlen = (files i).size ∧ (files i).size ≤ maxData
  read : ∀ path i, Mutable.find s.nodes (trimNull path) = some i → (s.nodes.get i).isDir = false → ∀ offset,
    s.handleRead env offset path = some (dataReply (files i).contents offset)
  readFd : ∀ sender fd e i, Fd.get s.table sender fd = some e → e.readable = true → Mutable.find s.nodes e.path = some i →
    (s.nodes.get i).isDir = false →
    (s.handleReadFd env sender fd).map Prod.snd = some (dataReply (files i).contents e.offset)

variable {env : Env} {s : Server}

/-- A request writes once at most. -/
theorem write_mem_fileOps {sender : Nat} {req : Request} {i : Fin maxNodes} {offset : Nat} {src : Bytes}
    (h : .write i offset src ∈ s.fileOps env sender req) :
    s.fileOps env sender req = [.write i offset src] ∧ s.writeTarget sender req = some (i, offset, src) ∧
      offset + src.length ≤ maxData := by
  rcases fileOps_cases env s sender req with ⟨j, off, bs, hops, htarget, hfits⟩ | ⟨path, j, -, -, hops⟩ | hops
  · rw [hops] at h ⊢
    cases List.mem_singleton.1 h
    exact ⟨rfl, htarget, hfits⟩
  · rw [hops] at h
    cases List.mem_singleton.1 h
  · rcases hops _ h with ⟨j, flags, heq⟩ | ⟨j, heq⟩
    · cases heq
    · cases heq

theorem readsSparse_of_holdsFiles {files : Fin maxNodes → Sparse Byte} (h : HoldsFiles files s.nodes) :
    s.ReadsSparse env files := by
  have hcontents : ∀ i, (s.nodes.get i).used = true → (s.nodes.get i).contents = (files i).contents :=
    fun i hused => (h i hused).contents_eq
  refine ⟨hcontents, fun i hused => ?_, fun path i hfind hdir offset => ?_,
    fun sender fd e i hget hreadable hfind hdir => ?_⟩
  · have hsize := (h i hused).size_eq
    have hle := (s.nodes.get i).dlen_le
    exact ⟨hsize, hsize ▸ hle⟩
  · unfold handleRead
    rw [hfind]
    simp only [hdir, Bool.false_eq_true, if_false]
    rw [hcontents i (Mutable.used_of_find hfind)]
  · unfold handleReadFd
    rw [hget]
    simp only [hreadable, hfind, hdir, Bool.not_true, Bool.false_eq_true, if_false, Option.map_some, snd_advanceBy]
    rw [hcontents i (Mutable.used_of_find hfind)]

/-- The server beside the specification. -/
structure Tracked where
  server : Server
  files : Fin maxNodes → Sparse Byte

namespace Tracked

/-- The server handles the request, and the specification does its operations. -/
def step (env : Env) (x : Tracked) (req : Message) : Option (Tracked × List Reply) :=
  (x.server.dispatch env req).map fun out =>
    (⟨out.1, (x.server.fileOps env req.sender (.decode req.data)).foldl FileOp.apply x.files⟩, out.2)

def new : Tracked := ⟨Server.new, fun _ => []⟩

/-- The specification runs along with every run of the server. -/
theorem run_of_dispatch {env : Env} {G : Server → Message → Prop} {es : List (Message × List Reply)} {s : Server}
    (h : Run (dispatch env) G Server.new es s) :
    ∃ files, Run (step env) (fun x req => G x.server req) new es ⟨s, files⟩ := by
  induction h with
  | nil => exact ⟨fun _ => [], .nil _⟩
  | @snoc t u es req replies hrun hguard hstep ih =>
    obtain ⟨files, hfiles⟩ := ih
    have hnext : step env ⟨t, files⟩ req =
        some (⟨u, (t.fileOps env req.sender (.decode req.data)).foldl FileOp.apply files⟩, replies) := by
      unfold step
      rw [hstep]
      rfl
    exact ⟨_, hfiles.snoc hguard hnext⟩

theorem holdsFiles_step {env : Env} {x y : Tracked} {req : Message} {replies : List Reply}
    (h : HoldsFiles x.files x.server.nodes) (hkeeps : x.server.KeepsSparse req)
    (hstep : x.step env req = some (y, replies)) : HoldsFiles y.files y.server.nodes := by
  obtain ⟨⟨s', rs⟩, hdispatch, heq⟩ := Option.map_eq_some_iff.1 hstep
  simp only [Prod.mk.injEq] at heq
  obtain ⟨rfl, rfl⟩ := heq
  refine h.effects (effects_dispatch hdispatch) fun i offset src hmem => ?_
  obtain ⟨hsingle, htarget, hfits⟩ := write_mem_fileOps hmem
  unfold KeepsSparse at hkeeps
  rw [htarget] at hkeeps
  exact ⟨hsingle, hkeeps hfits⟩

end Tracked

/-- In every run without a write over old bytes, clients read from the files what the specification says. -/
theorem files_sparse (env : Env) {es : List (Message × List Reply)} {s : Server}
    (h : Run (dispatch env) KeepsSparse new es s) :
    ∃ files, Run (Tracked.step env) (fun _ _ => True) .new es ⟨s, files⟩ ∧ s.ReadsSparse env files := by
  obtain ⟨files, hrun⟩ := Tracked.run_of_dispatch h
  have hholds : HoldsFiles files s.nodes := by
    refine hrun.invariant (P := fun x => HoldsFiles x.files x.server.nodes) Tracked.holdsFiles_step ?_
    intro i hused
    cases hused
  exact ⟨files, hrun.mono fun _ _ _ => trivial, readsSparse_of_holdsFiles hholds⟩

/-- Process 9 opens `/f`. -/
def openF (oflags : Word) : Message := ⟨9, #v[0x30, oflags, 0x662F, 0, 0, 0, 0, 0]⟩

/-- Process 9 writes to its descriptor 0. -/
def writeF (chunkLen bytes : Word) : Message := ⟨9, #v[0x33, 0, chunkLen, bytes, 0, 0, 0, 0]⟩

theorem files_sparse_written : ∃ es s files, Run (dispatch bareEnv) KeepsSparse new es s ∧
    Run (Tracked.step bareEnv) (fun _ _ => True) .new es ⟨s, files⟩ ∧ s.ReadsSparse bareEnv files ∧
    (s.nodes.get 0).contents = ascii "ab" := by
  have hexec : (exec (dispatch bareEnv) KeepsSparse new [openF 6, writeF 2 0x6261]).any (fun out =>
      decide ((out.1.nodes.get 0).contents = ascii "ab")) = true := by decide
  obtain ⟨⟨s, es⟩, hrun, hcontents⟩ := (Option.any_eq_true _ _).1 hexec
  obtain ⟨files, hfiles, hreads⟩ := files_sparse bareEnv (run_of_exec hrun)
  exact ⟨es, s, files, run_of_exec hrun, hfiles, hreads, of_decide_eq_true hcontents⟩

/-- A process writes `ab` to `/f`, empties the file by opening it again, and writes `c` through its first descriptor at
offset 2.  The file contains `abc`, and not two zeros and a `c`. -/
theorem files_not_sparse : ∃ es x, Run (Tracked.step bareEnv) (fun _ _ => True) .new es x ∧
    ¬ x.server.ReadsSparse bareEnv x.files := by
  have hexec : (exec (Tracked.step bareEnv) (fun _ _ => True) .new
      [openF 6, writeF 2 0x6261, openF 0xA, writeF 1 0x63]).any (fun out => decide (
        (out.1.server.nodes.get 0).used = true ∧ (out.1.server.nodes.get 0).contents = ascii "abc" ∧
        (out.1.files 0).contents = [0, 0, 0x63])) = true := by decide
  obtain ⟨⟨x, es⟩, hrun, hout⟩ := (Option.any_eq_true _ _).1 hexec
  obtain ⟨hused, hcontents, hspec⟩ := of_decide_eq_true hout
  refine ⟨es, x, run_of_exec hrun, fun hreads => ?_⟩
  have heq := hreads.contents 0 hused
  rw [hcontents, hspec] at heq
  exact absurd heq (by decide)

end Server

end Rost.Vfs
