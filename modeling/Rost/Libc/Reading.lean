import Rost.Libc.VfsClient
import Rost.Vfs.Files

/-!
# Reading a file

The server decides how long a chunk is and moves the descriptor on by that; `read` keeps as much of the chunk as its caller
has asked for.  As long as no chunk is longer than that, successive reads return the file without gaps (`read_in_order`);
what does not fit is lost (`read_skips`).
-/

namespace Rost.Vfs

variable {env : Env} {nodes : Nodes} {path : Bytes}

/-- What the server replies to a read at an offset of the path. -/
def readAt (env : Env) (nodes : Nodes) (path : Bytes) (off : Nat) : Option Reply :=
  match Mutable.find nodes path with
  | some i => some (if (nodes.get i).isDir then .error .eisdir else Server.dataReply (nodes.get i).contents off)
  | none => do
    match ← Fat32.readFile env.disk path off with
    | some (size, bytes) => some (if bytes = [] then .done else .data size bytes)
    | none =>
      match Static.lookup env.progs path with
      | none => some (.error .enoent)
      | some (.dir _) => some (.error .eisdir)
      | some (.file data _) => some (Server.dataReply data off)

theorem Server.handleReadFd_eq {s : Server} {pid fd : Nat} {e : FdEntry} (hget : Fd.get s.table pid fd = some e)
    (hreadable : e.readable = true) :
    s.handleReadFd env pid fd = (readAt env s.nodes e.path e.offset).map (s.advanceBy pid fd) := by
  unfold handleReadFd readAt
  rw [hget]
  simp only [hreadable, Bool.not_true, Bool.false_eq_true, if_false]
  cases Mutable.find s.nodes e.path with
  | some i =>
    by_cases hdir : (s.nodes.get i).isDir = true
    · simp [hdir, advanceBy]
    · simp [hdir]
  | none =>
    cases Fat32.readFile env.disk e.path e.offset with
    | none => rfl
    | some found =>
      cases found with
      | some out =>
        by_cases hempty : out.2 = []
        · simp [hempty, advanceBy]
        · simp [hempty]
      | none =>
        cases Static.lookup env.progs e.path with
        | none => rfl
        | some n => cases n <;> rfl

/-! ### The file behind a path -/

/-- The server reads `content` at the path; at `off` it sends `len off` bytes of it. -/
structure Served (env : Env) (nodes : Nodes) (path : Bytes) (content : Bytes) (len : Nat → Nat) : Prop where
  chunk : ∀ off < content.length,
    readAt env nodes path off = some (.data content.length ((content.drop off).take (len off)))
  pos : ∀ off < content.length, 0 < len off
  le : ∀ off < content.length, len off ≤ chunkSize ∧ off + len off ≤ content.length
  done : ∀ off, content.length ≤ off → readAt env nodes path off = some .done
  lt : content.length < 2 ^ 32

/-- The chunk of the writable layer and of the static tree. -/
def wholeChunk (content : Bytes) (off : Nat) : Nat := min chunkSize (content.length - off)

private theorem served_of_dataReply {content : Bytes} (hlt : content.length < 2 ^ 32)
    (h : ∀ off, readAt env nodes path off = some (Server.dataReply content off)) :
    Served env nodes path content (wholeChunk content) := by
  constructor
  · intro off hoff
    rw [h off]
    unfold Server.dataReply wholeChunk
    rw [if_neg (by omega)]
    congr 2
    rw [← List.length_drop, List.take_eq_take_min]
  · intro off hoff
    unfold wholeChunk chunkSize
    omega
  · intro off hoff
    unfold wholeChunk
    omega
  · intro off hoff
    rw [h off]
    unfold Server.dataReply
    rw [if_pos hoff]
  · exact hlt

theorem served_mutable {i : Fin maxNodes} (hfind : Mutable.find nodes path = some i) (hdir : (nodes.get i).isDir = false) :
    Served env nodes path (nodes.get i).contents (wholeChunk (nodes.get i).contents) := by
  refine served_of_dataReply ?_ fun off => ?_
  · have hle := (nodes.get i).dlen_le
    rw [MutNode.length_contents]
    unfold maxData at hle
    omega
  · unfold readAt
    rw [hfind]
    simp [hdir]

theorem served_static {data : Bytes} {flags : Nat} (hlt : data.length < 2 ^ 32) (hfind : Mutable.find nodes path = none)
    (hfat : ∀ off, Fat32.readFile env.disk path off = some none)
    (hlookup : Static.lookup env.progs path = some (.file data flags)) :
    Served env nodes path data (wholeChunk data) := by
  refine served_of_dataReply hlt fun off => ?_
  unfold readAt
  rw [hfind]
  simp [hfat off, hlookup]

namespace Fat32

variable {disk : Disk}

/-- The sector with number `q` of the chain that starts at `first`. -/
def sectorAt (disk : Disk) (v : Volume) (first q : Nat) : Option (Nat → Byte) :=
  match follow disk v (q / v.spc) first with
  | some (some clus) => (clusToLba v clus).bind fun base => (add32 base (q % v.spc)).bind disk.readSector
  | _ => none

/-- The chain of the file does not end early, and the disk returns its sectors. -/
structure Readable (disk : Disk) (v : Volume) (path : Bytes) (fi : FileInfo) : Prop where
  volume : available disk = some (some v)
  lookup : lookupIn disk v path = some (some fi)
  file : fi.isDir = false
  sector : ∀ q, q * 512 < fi.size → (sectorAt disk v fi.firstCluster q).isSome = true

/-- The byte at each offset. -/
def contents (disk : Disk) (v : Volume) (fi : FileInfo) : Bytes :=
  (List.range fi.size).map fun off => ((sectorAt disk v fi.firstCluster (off / 512)).getD fun _ => 0) (off % 512)

/-- A chunk ends with its sector. -/
def sectorChunk (size off : Nat) : Nat := min (min chunkSize (size - off)) (512 - off % 512)

theorem readFile_eq {v : Volume} {fi : FileInfo} {off : Nat} {sec : Nat → Byte} (h : Readable disk v path fi)
    (hoff : off < fi.size) (hsec : sectorAt disk v fi.firstCluster (off / 512) = some sec) :
    readFile disk path off =
      some (some (fi.size, (List.range (sectorChunk fi.size off)).map fun i => sec (off % 512 + i))) := by
  have hclus : off / (v.spc * 512) = off / 512 / v.spc := by rw [Nat.div_div_eq_div_mul, Nat.mul_comm]
  have hsector : off % (v.spc * 512) / 512 = off / 512 % v.spc := Nat.mod_mul_left_div_self off 512 v.spc
  have hbyte : off % (v.spc * 512) % 512 = off % 512 := Nat.mod_mul_left_mod off v.spc 512
  unfold sectorAt at hsec
  split at hsec
  · rename_i clus hfollow
    obtain ⟨base, hbase, hsec⟩ := Option.bind_eq_some_iff.1 hsec
    obtain ⟨lba, hlba, hsec⟩ := Option.bind_eq_some_iff.1 hsec
    unfold readFile
    rw [h.volume]
    simp only [Option.bind_eq_bind, Option.bind_some]
    rw [h.lookup]
    simp only [Option.bind_some, h.file, Bool.false_eq_true, if_false]
    rw [if_neg (by omega), hclus, hfollow]
    simp only [Option.bind_some, hbase, hsector, hlba, hsec, hbyte]
    rfl
  · cases hsec

/-- A file on the volume. -/
theorem served_readable {v : Volume} {fi : FileInfo} (h : Readable env.disk v path fi) (hsize : fi.size < 2 ^ 32)
    (hfind : Mutable.find nodes path = none) :
    Served env nodes path (contents env.disk v fi) (sectorChunk fi.size) := by
  have hlength : (contents env.disk v fi).length = fi.size := by simp [contents]
  have hat : ∀ off, Fat32.readFile env.disk path off ≠ some none → readAt env nodes path off =
      (Fat32.readFile env.disk path off).map fun found =>
        match found with
        | some (size, bytes) => if bytes = [] then .done else .data size bytes
        | none => .done := by
    intro off hne
    unfold readAt
    rw [hfind]
    cases hread : Fat32.readFile env.disk path off with
    | none => rfl
    | some found =>
      cases found with
      | none => exact absurd hread hne
      | some out => rfl
  constructor
  · intro off hoff
    rw [hlength] at hoff ⊢
    obtain ⟨sec, hsec⟩ := Option.isSome_iff_exists.1 (h.sector (off / 512) (by omega))
    have hread := readFile_eq h hoff hsec
    have hpos : 0 < sectorChunk fi.size off := by
      unfold sectorChunk chunkSize
      omega
    rw [hat off (by rw [hread]; simp), hread, Option.map_some]
    dsimp only
    rw [if_neg (by simpa using hpos.ne')]
    congr 2
    -- the bytes of the chunk are those at its offsets, since they lie in one sector
    apply List.ext_getElem
    · simp [hlength]
      unfold sectorChunk
      omega
    · intro i hi _
      simp only [List.length_map, List.length_range] at hi
      have hsame : (off + i) / 512 = off / 512 ∧ (off + i) % 512 = off % 512 + i := by
        unfold sectorChunk at hi
        omega
      simp [contents, hsame.1, hsame.2, hsec]
  · intro off hoff
    unfold sectorChunk chunkSize
    omega
  · intro off hoff
    unfold sectorChunk
    omega
  · intro off hoff
    rw [hlength] at hoff
    have hread : Fat32.readFile env.disk path off = some (some (fi.size, [])) := by
      unfold readFile
      rw [h.volume]
      simp only [Option.bind_eq_bind, Option.bind_some]
      rw [h.lookup]
      simp only [Option.bind_some, h.file, Bool.false_eq_true, if_false]
      rw [if_pos hoff]
    rw [hat off (by rw [hread]; simp), hread]
    rfl
  · rw [hlength]
    exact hsize

end Fat32

end Rost.Vfs

namespace Rost.Libc

open Vfs (Env Server Reply Bytes chunkSize FdEntry Fd.get Served readAt wholeChunk)
open Lib (Slots Run exec run_of_exec)

variable {env : Env} {s s' : Server} {pid vfd off : Nat} {e : FdEntry} {content : Bytes} {len : Nat → Nat}

/-! ### One call -/

/-- The descriptor `vfd` of the process is open for reading, and stands at `off` in the file. -/
structure Stands (env : Env) (s : Server) (pid vfd : Nat) (e : FdEntry) (content : Bytes) (len : Nat → Nat) (off : Nat) :
    Prop where
  entry : Fd.get s.table pid vfd = some { e with offset := off }
  readable : e.readable = true
  served : Served env s.nodes e.path content len

theorem Stands.call_chunk (h : Stands env s pid vfd e content len off) (hoff : off < content.length) :
    ∃ s', vfsCall env s pid (.readFd vfd) =
        some (s', .data content.length ((content.drop off).take (len off))) ∧
      Stands env s' pid vfd e content len (off + len off) := by
  have hlen := h.served.le off hoff
  have hlt := h.served.lt
  have hchunk : ((content.drop off).take (len off)).length = len off := by
    rw [List.length_take, List.length_drop]
    omega
  have hreply : s.handleReadFd env pid vfd =
      some (s.advanceBy pid vfd (.data content.length ((content.drop off).take (len off)))) := by
    rw [Server.handleReadFd_eq h.entry h.readable, h.served.chunk off hoff, Option.map_some]
  refine ⟨(s.advanceBy pid vfd (.data content.length ((content.drop off).take (len off)))).1, ?_, ?_, h.readable, ?_⟩
  · unfold vfsCall Server.handle
    dsimp only
    rw [hreply]
    rfl
  · unfold Server.advanceBy Vfs.Fd.advance
    dsimp only
    rw [Vfs.Fd.get_modify (by intro e; exact ⟨rfl, rfl, rfl⟩), h.entry, Option.map_some, hchunk]
    congr 2
    dsimp only
    omega
  · exact h.served

theorem Stands.call_done (h : Stands env s pid vfd e content len off) (hoff : content.length ≤ off) :
    vfsCall env s pid (.readFd vfd) = some (s, .done) := by
  have hreply : s.handleReadFd env pid vfd = some (s, .done) := by
    rw [Server.handleReadFd_eq h.entry h.readable, h.served.done off hoff]
    rfl
  unfold vfsCall Server.handle
  dsimp only
  rw [hreply]
  rfl

/-- In a call for `rem` bytes at `off`, the server sends no chunk that is longer than what is still wanted. -/
def Fits (len : Nat → Nat) (size : Nat) : Nat → Nat → Nat → Prop
  | 0, _, _ => True
  | fuel + 1, off, rem => rem = 0 ∨ size ≤ off ∨ (len off ≤ rem ∧ Fits len size fuel (off + len off) (rem - len off))

/-- In the writable layer and in the static tree, a count fits that is a multiple of 40 or reaches the end of the file. -/
theorem fits_wholeChunk_iff {fuel rem : Nat} (hfuel : rem ≤ fuel) :
    Fits (wholeChunk content) content.length fuel off rem ↔ rem % chunkSize = 0 ∨ content.length ≤ off + rem := by
  induction fuel generalizing off rem with
  | zero =>
    unfold Fits
    have hrem : rem = 0 := by omega
    simp [hrem]
  | succ fuel ih =>
    unfold Fits
    by_cases hrem : rem = 0
    · simp [hrem]
    by_cases hoff : content.length ≤ off
    · simp only [hoff, true_or, or_true, true_iff]
      omega
    have hlen : wholeChunk content off = min chunkSize (content.length - off) := rfl
    unfold chunkSize at hlen ⊢
    simp only [hrem, hoff, false_or]
    rw [ih (by omega)]
    unfold chunkSize
    omega

theorem Stands.readLoop {fuel rem : Nat} (h : Stands env s pid vfd e content len off) (hfuel : rem ≤ fuel)
    (hfits : Fits len content.length fuel off rem) :
    ∃ s', readLoop env pid vfd fuel s rem = some (s', some ((content.drop off).take rem)) ∧
      Stands env s' pid vfd e content len (off + ((content.drop off).take rem).length) := by
  induction fuel generalizing s off rem with
  | zero =>
    have hrem : rem = 0 := by omega
    subst hrem
    exact ⟨s, rfl, h⟩
  | succ fuel ih =>
    unfold Libc.readLoop
    by_cases hrem : rem = 0
    · subst hrem
      exact ⟨s, rfl, h⟩
    rw [if_neg hrem]
    by_cases hoff : content.length ≤ off
    · have hnil : (content.drop off).take rem = [] := by simp [hoff]
      unfold vfsReadChunk
      rw [h.call_done hoff, hnil]
      exact ⟨s, rfl, h⟩
    obtain hrem' | hend | ⟨hle, hrest⟩ := hfits
    · exact absurd hrem' hrem
    · exact absurd hend hoff
    rw [Nat.not_le] at hoff
    have hpos := h.served.pos off hoff
    have hlen := h.served.le off hoff
    obtain ⟨s1, hcall, hstands⟩ := h.call_chunk hoff
    have hchunk : ((content.drop off).take (len off)).length = len off := by
      rw [List.length_take, List.length_drop]
      omega
    have hread : vfsReadChunk env s pid vfd (min rem chunkSize) = some (s1, some ((content.drop off).take (len off))) := by
      unfold vfsReadChunk
      rw [hcall, Option.map_some]
      dsimp only
      rw [hchunk, List.take_take]
      congr 4
      omega
    obtain ⟨s2, hloop, hstands⟩ := ih hstands (by omega) hrest
    have happend : (content.drop off).take (len off) ++ (content.drop (off + len off)).take (rem - len off) =
        (content.drop off).take rem := by
      rw [← List.drop_drop, ← List.take_add]
      congr 1
      omega
    rw [hread]
    cases hbytes : (content.drop off).take (len off) with
    | nil =>
      rw [hbytes] at hchunk
      simp at hchunk
      omega
    | cons b bytes =>
      rw [hbytes] at hchunk happend
      have hcount : bytes.length + 1 = len off := by simpa using hchunk
      simp only [hcount, hloop, Option.map_some, Option.getD_some]
      rw [happend]
      refine ⟨s2, rfl, ?_⟩
      rw [← happend, List.length_append, hchunk, ← Nat.add_assoc]
      exact hstands

/-! ### Runs -/

/-- A read on the descriptor by its process, or a request of any client. -/
inductive ReadEvent where
  | read (count : Nat)
  | other (req : Message)

/-- A read of at least one byte. -/
def ReadEvent.asks : ReadEvent → Bool
  | .read count => decide (1 ≤ count)
  | .other _ => false

/-- The result of a read is what `read` returns; other requests have none.  The descriptor table `t` stays as it is. -/
def readStep (env : Env) (pid : Nat) (t : FdTable) (fd : Nat) (s : Server) : ReadEvent → Option (Server × Option Bytes)
  | .read count => (read env pid (s, t) fd count).map fun out => (out.1.1, out.2)
  | .other req => (s.dispatch env req).map fun out => (out.1, none)

/-- The request leaves the descriptor and the file as they are. -/
def LeavesFile (env : Env) (pid vfd : Nat) (path : Bytes) (s : Server) (req : Message) : Prop :=
  ∀ out, s.dispatch env req = some out → Fd.get out.1.table pid vfd = Fd.get s.table pid vfd ∧
    ∀ off, readAt env out.1.nodes path off = readAt env s.nodes path off

/-- Reads are for at least one byte, and the file is not changed meanwhile. -/
def ReadsFile (env : Env) (pid vfd : Nat) (path : Bytes) (s : Server) : ReadEvent → Prop
  | .read count => 1 ≤ count
  | .other req => LeavesFile env pid vfd path s req

/-- Each read also fits, at the offset where the descriptor stands. -/
def ReadsFitting (env : Env) (pid vfd : Nat) (path : Bytes) (len : Nat → Nat) (size : Nat) (s : Server) : ReadEvent → Prop
  | .read count => 1 ≤ count ∧ ∀ e, Fd.get s.table pid vfd = some e → Fits len size count e.offset count
  | .other req => LeavesFile env pid vfd path s req

/-- The bytes that the reads of a run have returned. -/
def returned (es : List (ReadEvent × Option Bytes)) : Bytes := es.flatMap fun e => e.2.getD []

/-- From `off` on, each read returns the next bytes of the file, as many as it asks for and there are. -/
def Answers (content : Bytes) : Nat → List (ReadEvent × Option Bytes) → Prop
  | _, [] => True
  | off, (.read count, r) :: es =>
    r = some ((content.drop off).take count) ∧ Answers content (off + ((content.drop off).take count).length) es
  | off, (.other _, r) :: es => r = none ∧ Answers content off es

theorem answers_snoc {es : List (ReadEvent × Option Bytes)} {i : ReadEvent} {r : Option Bytes} (h : Answers content off es)
    (hlast : Answers content (off + (returned es).length) [(i, r)]) : Answers content off (es ++ [(i, r)]) := by
  induction es generalizing off with
  | nil => exact hlast
  | cons e es ih =>
    obtain ⟨j, r'⟩ := e
    cases j with
    | read count =>
      obtain ⟨rfl, hrest⟩ := h
      refine ⟨rfl, ih hrest ?_⟩
      simpa [returned, Nat.add_assoc] using hlast
    | other req =>
      obtain ⟨rfl, hrest⟩ := h
      exact ⟨rfl, ih hrest (by simpa [returned] using hlast)⟩

theorem Answers.given_eq {es : List (ReadEvent × Option Bytes)} (h : Answers content off es) :
    returned es = (content.drop off).take (returned es).length := by
  induction es generalizing off with
  | nil => simp [returned]
  | cons e es ih =>
    obtain ⟨i, r⟩ := e
    cases i with
    | read count =>
      obtain ⟨rfl, hrest⟩ := h
      have hreturned : returned ((.read count, some ((content.drop off).take count)) :: es) =
          (content.drop off).take count ++ returned es := rfl
      have htail := ih hrest
      generalize hn : ((content.drop off).take count).length = n at htail
      have htake : (content.drop off).take count = (content.drop off).take n := by
        rw [← hn, List.length_take, ← List.take_eq_take_min]
      rw [hreturned, List.length_append, hn, List.take_add, List.drop_drop, ← htail, ← htake]
    | other req =>
      obtain ⟨rfl, hrest⟩ := h
      exact ih hrest

/-- What a single read of the run has returned. -/
theorem Answers.call {es fs : List (ReadEvent × Option Bytes)} {count : Nat} {r : Option Bytes}
    (h : Answers content off (fs ++ (.read count, r) :: es)) :
    r = some ((content.drop (off + (returned fs).length)).take count) := by
  induction fs generalizing off with
  | nil => exact h.1
  | cons f fs ih =>
    obtain ⟨i, r'⟩ := f
    cases i with
    | read m =>
      obtain ⟨rfl, hrest⟩ := h
      rw [ih hrest]
      simp [returned, Nat.add_assoc]
    | other req =>
      obtain ⟨rfl, hrest⟩ := h
      rw [ih hrest]
      simp [returned]

theorem Stands.other (h : Stands env s pid vfd e content len off) {req : Message} (hleaves : LeavesFile env pid vfd e.path s req)
    {t : FdTable} {fd : Nat} {r : Option Bytes} (hstep : readStep env pid t fd s (.other req) = some (s', r)) :
    r = none ∧ Stands env s' pid vfd e content len off := by
  obtain ⟨out, hout, heq⟩ := Option.map_eq_some_iff.1 hstep
  cases heq
  obtain ⟨hentry, hfile⟩ := hleaves out hout
  refine ⟨rfl, hentry.trans h.entry, h.readable, ?_⟩
  exact ⟨fun off hoff => (hfile off).trans (h.served.chunk off hoff), h.served.pos, h.served.le,
    fun off hoff => (hfile off).trans (h.served.done off hoff), h.served.lt⟩

/-- In every run whose reads fit, the reads return the file from the first offset on, each as much as it asks for and is
left; a read returns nothing only at the end. -/
theorem read_in_order {s₀ s : Server} {t : FdTable} {fd : Nat} {es : List (ReadEvent × Option Bytes)}
    (hfd : toVfd t fd = some vfd) (h : Stands env s₀ pid vfd e content len off)
    (hrun : Run (readStep env pid t fd) (ReadsFitting env pid vfd e.path len content.length) s₀ es s) :
    returned es <+: content.drop off ∧
      ∀ fs count r gs, es = fs ++ (.read count, r) :: gs → ∃ bytes, r = some bytes ∧
        bytes.length = min count (content.length - (off + (returned fs).length)) ∧
        (bytes = [] → content.length ≤ off + (returned fs).length) := by
  have hboth : Answers content off es ∧ Stands env s pid vfd e content len (off + (returned es).length) ∧
      ∀ count r, (ReadEvent.read count, r) ∈ es → 1 ≤ count := by
    refine hrun.history (P := fun es s => Answers content off es ∧
      Stands env s pid vfd e content len (off + (returned es).length) ∧
      ∀ count r, (ReadEvent.read count, r) ∈ es → 1 ≤ count) ?_ ⟨trivial, h, fun _ _ hmem => by cases hmem⟩
    rintro es x u i r ⟨hanswers, hstands, hpos⟩ hguard hstep
    have hsnoc : returned (es ++ [(i, r)]) = returned es ++ r.getD [] := by simp [returned]
    cases i with
    | read count =>
      obtain ⟨hcount, hfits⟩ := hguard
      obtain ⟨u', hloop, hnext⟩ := hstands.readLoop (Nat.le_refl count) (hfits _ hstands.entry)
      unfold readStep read at hstep
      dsimp only at hstep
      rw [if_neg (by omega), hfd] at hstep
      simp only [hloop, Option.map_some, Option.some.injEq, Prod.mk.injEq] at hstep
      obtain ⟨rfl, rfl⟩ := hstep
      refine ⟨answers_snoc hanswers ⟨rfl, trivial⟩, ?_, fun m r' hmem => ?_⟩
      · rw [hsnoc, List.length_append, ← Nat.add_assoc]
        exact hnext
      · rcases List.mem_append.1 hmem with hmem | hmem
        · exact hpos m r' hmem
        · cases List.mem_singleton.1 hmem
          exact hcount
    | other req =>
      obtain ⟨rfl, hnext⟩ := hstands.other hguard hstep
      refine ⟨answers_snoc hanswers ⟨rfl, trivial⟩, ?_, fun m r' hmem => ?_⟩
      · rw [hsnoc]
        simpa using hnext
      · rcases List.mem_append.1 hmem with hmem | hmem
        · exact hpos m r' hmem
        · cases List.mem_singleton.1 hmem
  obtain ⟨hanswers, -, hpos⟩ := hboth
  refine ⟨?_, fun fs count r gs heq => ?_⟩
  · rw [hanswers.given_eq]
    exact List.take_prefix _ _
  · subst heq
    have hcount := hpos count r (List.mem_append_right _ List.mem_cons_self)
    refine ⟨_, hanswers.call, by rw [List.length_take, List.length_drop], fun hnil => ?_⟩
    have hlength := congrArg List.length hnil
    rw [List.length_take, List.length_drop, List.length_nil] at hlength
    omega

/-- The first descriptor of the process is the server's number 1. -/
def tableOne : FdTable := (Slots.replicate openMax none).set ⟨3, by decide⟩ (some 1)

private theorem toVfd_tableOne : toVfd tableOne 3 = some 1 := by decide

/-- Process 9 has written `abcd` to `/f` with one descriptor, and opens it again. -/
private theorem stands_abcd : ∃ s₀ e,
    Stands Server.bareEnv s₀ 9 1 e (Vfs.ascii "abcd") (wholeChunk (Vfs.ascii "abcd")) 0 ∧
      ((exec (readStep Server.bareEnv 9 tableOne 3) (fun _ i => i.asks = true) s₀ [.read 1, .read 1]).any fun out =>
        out.2 matches [(.read 1, some [_]), (.read 1, some [])]) = true := by
  have hexec : (exec (Server.dispatch Server.bareEnv) (fun _ _ => True) Server.new
      [Server.openF 6, Server.writeF 4 0x64636261, Server.openF 0]).any (fun out =>
        (Fd.get out.1.table 9 1).any (fun e => decide (e.offset = 0 ∧ e.readable = true ∧
          Vfs.Mutable.find out.1.nodes e.path = some 0 ∧ (out.1.nodes.get 0).isDir = false ∧
          (out.1.nodes.get 0).contents = Vfs.ascii "abcd")) &&
        (exec (readStep Server.bareEnv 9 tableOne 3) (fun _ i => i.asks = true) out.1 [.read 1, .read 1]).any fun out =>
          out.2 matches [(.read 1, some [_]), (.read 1, some [])]) = true := by decide
  obtain ⟨⟨s₀, es⟩, -, hout⟩ := (Option.any_eq_true _ _).1 hexec
  obtain ⟨hentry, hreads⟩ := Bool.and_eq_true_iff.1 hout
  obtain ⟨e, hget, he⟩ := (Option.any_eq_true _ _).1 hentry
  obtain ⟨hoff, hreadable, hfind, hdir, hcontents⟩ := of_decide_eq_true he
  have hserved := @Vfs.served_mutable Server.bareEnv _ _ _ hfind hdir
  rw [hcontents] at hserved
  refine ⟨s₀, e, ⟨?_, hreadable, hserved⟩, hreads⟩
  rw [hget, ← hoff]

theorem read_in_order_abcd : ∃ s₀ e es s,
    Stands Server.bareEnv s₀ 9 1 e (Vfs.ascii "abcd") (wholeChunk (Vfs.ascii "abcd")) 0 ∧
      Run (readStep Server.bareEnv 9 tableOne 3) (ReadsFitting Server.bareEnv 9 1 e.path (wholeChunk (Vfs.ascii "abcd")) 4) s₀ es s ∧
      es ≠ [] ∧ returned es <+: Vfs.ascii "abcd" := by
  obtain ⟨s₀, e, hstands, -⟩ := stands_abcd
  have hfits : ReadsFitting Server.bareEnv 9 1 e.path (wholeChunk (Vfs.ascii "abcd")) 4 s₀ (.read 8) := by
    refine ⟨by decide, fun e' he' => ?_⟩
    rw [hstands.entry, Option.some_inj] at he'
    subst he'
    change Fits (wholeChunk (Vfs.ascii "abcd")) 4 8 0 8
    exact (fits_wholeChunk_iff (Nat.le_refl 8)).2 (by decide)
  obtain ⟨s, hloop, -⟩ := hstands.readLoop (Nat.le_refl 8) ((fits_wholeChunk_iff (Nat.le_refl 8)).2 (by decide))
  have hstep : readStep Server.bareEnv 9 tableOne 3 s₀ (.read 8) = some (s, some ((Vfs.ascii "abcd").take 8)) := by
    unfold readStep read
    dsimp only
    rw [if_neg (by decide), toVfd_tableOne]
    simp only [hloop, Option.map_some]
    rfl
  have hrun := Run.single hfits hstep
  exact ⟨s₀, e, _, s, hstands, hrun, by simp, (read_in_order toVfd_tableOne hstands hrun).1⟩

/-- It reads single bytes; the second call returns nothing, with three bytes left, since the first chunk had all of them. -/
theorem read_skips : ∃ s₀ e es s,
    Stands Server.bareEnv s₀ 9 1 e (Vfs.ascii "abcd") (wholeChunk (Vfs.ascii "abcd")) 0 ∧
      Run (readStep Server.bareEnv 9 tableOne 3) (ReadsFile Server.bareEnv 9 1 e.path) s₀ es s ∧
      ∃ fs count gs, es = fs ++ (.read count, some []) :: gs ∧ 1 ≤ count ∧ (returned fs).length < 4 := by
  obtain ⟨s₀, e, hstands, hexec⟩ := stands_abcd
  obtain ⟨⟨s, es⟩, hrun, hout⟩ := (Option.any_eq_true _ _).1 hexec
  refine ⟨s₀, e, es, s, hstands, (run_of_exec hrun).mono fun x i hasks => ?_, ?_⟩
  · cases i with
    | read count =>
      have hcount : 1 ≤ count := of_decide_eq_true hasks
      exact hcount
    | other req => cases hasks
  · dsimp only at hout
    split at hout
    · rename_i b
      exact ⟨[(.read 1, some [b])], 1, [], rfl, by decide, by simp [returned]⟩
    · cases hout

end Rost.Libc
