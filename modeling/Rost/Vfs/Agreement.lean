import Rost.Vfs.Server

/-!
# Two ways to read a file

A client reads a file by its path, or opens it and reads through the descriptor.  Both ways give the same bytes.  But
`OP_OPEN` does not ask the FAT32 volume whether there is a file, and `OP_STAT` does; and the empty path, which names the
root, cannot be opened (`same_files_iff`).
-/

namespace Rost.Vfs

namespace Server

/-- `OP_STAT` finds the path exactly when `OP_OPEN` opens it for reading, and then reading through the descriptor gives
what `OP_READ` gives. -/
structure SameFiles (env : Env) (s : Server) (client : Nat) (path : Bytes) : Prop where
  stat_iff_open : (∃ flags size, s.handle env client (.stat path) = some (s, [.stat flags size])) ↔
    ∃ s₁ n, s.handle env client (.open oRdonly path) = some (s₁, [.fd n])
  read : ∀ s₁ n, s.handle env client (.open oRdonly path) = some (s₁, [.fd n]) → ∀ offset < 2 ^ 32,
    ∃ s₂, s₁.handle env client (.seek n offset) = some (s₂, [.ok]) ∧
      (s₂.handle env client (.readFd n)).map Prod.snd = (s.handle env client (.read offset path)).map Prod.snd

/-- Unless the writable layer has it, the static tree has what the volume has, and does not have it if the volume does not
come back; and the empty path is not found either. -/
def SeenByOpen (env : Env) (s : Server) (path : Bytes) : Prop :=
  match Mutable.find s.nodes (trimNull path), Fat32.lookup env.disk (trimNull path) with
  | some _, _ => trimNull path ≠ []
  | none, none => trimNull path = [] ∨ Static.lookup env.progs path = none
  | none, some none => trimNull path ≠ []
  | none, some (some _) => trimNull path ≠ [] ∧ (Static.lookup env.progs path).isSome = true

variable {env : Env} {s : Server} {client : Nat} {path : Bytes}

/-- The layers that `OP_STAT` asks. -/
theorem stat_succeeds_iff : (∃ flags size, s.handle env client (.stat path) = some (s, [.stat flags size])) ↔
    (Mutable.find s.nodes (trimNull path)).isSome = true ∨
      match Fat32.lookup env.disk (trimNull path) with
      | none => False
      | some none => (Static.lookup env.progs path).isSome = true
      | some (some _) => True := by
  unfold handle handleStat
  cases hfind : Mutable.find s.nodes (trimNull path) with
  | some i => simp [hfind]
  | none =>
    cases hfat : Fat32.lookup env.disk (trimNull path) with
    | none => simp [hfind, hfat]
    | some found =>
      cases found with
      | some fi => simp [hfind, hfat]
      | none => cases hstatic : Static.lookup env.progs path <;> simp [hfind, hfat, hstatic]

/-- The layers that `OP_OPEN` asks. -/
theorem open_succeeds_iff (hfree : Fd.Available s.table client) (hlen : path.length ≤ 64) :
    (∃ s₁ n, s.handle env client (.open oRdonly path) = some (s₁, [.fd n])) ↔
      trimNull path ≠ [] ∧ ((Mutable.find s.nodes (trimNull path)).isSome = true ∨
        (Static.lookup env.progs path).isSome = true) := by
  have hread : isWrite oRdonly = false := by decide
  have happend : oRdonly &&& oAppend = 0 := by decide
  unfold handle handleOpen openForRead
  by_cases hne : trimNull path = []
  · have halloc : Fd.alloc s.table client [] oRdonly = none := by
      unfold Fd.alloc
      rw [if_pos (Or.inl rfl)]
    cases hfind : Mutable.find s.nodes [] with
    | some i => simp [hread, hne, hfind, halloc]
    | none => cases hstatic : Static.lookup env.progs path <;> simp [hread, hne, hfind, halloc, hstatic]
  · have hopened : ∃ table n, Fd.alloc s.table client (trimNull path) oRdonly = some (table, n) :=
      Fd.alloc_isSome hfree hne (Nat.le_trans (length_trimNull_le path) hlen)
    obtain ⟨table, n, halloc⟩ := hopened
    cases hfind : Mutable.find s.nodes (trimNull path) with
    | some i => simp [hread, happend, hfind, halloc, hne]
    | none => cases hstatic : Static.lookup env.progs path <;> simp [hread, happend, hfind, halloc, hne, hstatic]

/-- A file that is opened for reading gets a descriptor at its start, and no node changes. -/
theorem open_read_spec {s₁ : Server} {n : Nat} (h : s.handle env client (.open oRdonly path) = some (s₁, [.fd n])) :
    s₁.nodes = s.nodes ∧ Fd.get s₁.table client n = some ⟨client, n, oRdonly, 0, trimNull path, true⟩ := by
  have hread : isWrite oRdonly = false := by decide
  have happend : oRdonly &&& oAppend = 0 := by decide
  unfold handle handleOpen at h
  simp only [hread, happend, Bool.false_eq_true, if_false, ne_eq, not_true_eq_false, Nat.lt_irrefl] at h
  split at h
  · simp at h
  · rename_i nodes hok
    split at h
    · simp at h
    · rename_i table m halloc
      simp only [Prod.map_apply, id_eq, Option.some.injEq, Prod.mk.injEq, List.cons.injEq, Reply.fd.injEq, and_true] at h
      obtain ⟨rfl, rfl⟩ := h
      refine ⟨?_, Fd.get_alloc halloc⟩
      unfold openForRead at hok
      split at hok
      · cases hok
        rfl
      · split at hok
        · cases hok
        · cases hok
          rfl

/-- Reading through a descriptor gives what reading by its path gives. -/
theorem readFd_eq_read {e : FdEntry} {n : Nat} (hget : Fd.get s.table client n = some e) (hreadable : e.readable = true)
    (hpath : e.path = trimNull path) (hoffset : e.offset < 2 ^ 32) :
    (s.handle env client (.readFd n)).map Prod.snd = (s.handle env client (.read e.offset path)).map Prod.snd := by
  simp only [handle, handleReadFd, handleRead, hget, hreadable, hpath, Bool.not_true, Bool.false_eq_true, if_false, Static.lookup_trimNull, Nat.mod_eq_of_lt hoffset]
  cases Mutable.find s.nodes (trimNull path) with
  | some i =>
    simp only
    split
    · simp
    · simp
  | none =>
    simp only
    cases Fat32.readFile env.disk (trimNull path) e.offset with
    | none => rfl
    | some found =>
      cases found with
      | some out =>
        obtain ⟨size, bytes⟩ := out
        by_cases hempty : bytes = []
        · simp [hempty]
        · simp [hempty]
      | none =>
        cases Static.lookup env.progs path with
        | none => rfl
        | some node => cases node <;> simp

/-- Given a free descriptor, the two ways to read a file agree exactly in these states. -/
theorem same_files_iff (env : Env) (s : Server) (client : Nat) (words : Vector Word dataFields)
    (hfree : Fd.Available s.table client) :
    SameFiles env s client (unpackPath words) ↔ SeenByOpen env s (unpackPath words) := by
  have hlen : (unpackPath words).length ≤ 64 := by
    rw [length_unpackPath]
    decide
  generalize unpackPath words = path at hlen ⊢
  have hread : ∀ s₁ n, s.handle env client (.open oRdonly path) = some (s₁, [.fd n]) → ∀ offset < 2 ^ 32,
      ∃ s₂, s₁.handle env client (.seek n offset) = some (s₂, [.ok]) ∧
        (s₂.handle env client (.readFd n)).map Prod.snd = (s.handle env client (.read offset path)).map Prod.snd := by
    intro s₁ n hs₁ offset hoffset
    obtain ⟨hnodes, hget⟩ := open_read_spec hs₁
    have hseek := Fd.get_seek hget offset
    refine ⟨{ s₁ with table := Fd.seek s₁.table client n offset }, ?_, ?_⟩
    · unfold handle handleSeek
      simp [hget]
    · rw [readFd_eq_read hseek (FdEntry.readable_of_rdonly rfl) rfl hoffset]
      unfold handle handleRead
      simp only [hnodes, Option.map_map]
      rfl
  have hagree : SameFiles env s client path ↔
      ((∃ flags size, s.handle env client (.stat path) = some (s, [.stat flags size])) ↔
        ∃ s₁ n, s.handle env client (.open oRdonly path) = some (s₁, [.fd n])) :=
    ⟨fun h => h.stat_iff_open, fun h => ⟨h, hread⟩⟩
  rw [hagree, stat_succeeds_iff, open_succeeds_iff hfree hlen]
  unfold SeenByOpen
  have hroot : trimNull path = [] → Static.lookup env.progs path = some (Static.root env.progs) := by
    intro h
    rw [← Static.lookup_trimNull, h]
    exact Static.lookup_nil _
  cases Mutable.find s.nodes (trimNull path) with
  | some i => simp
  | none =>
    cases Fat32.lookup env.disk (trimNull path) with
    | none =>
      cases hstatic : Static.lookup env.progs path with
      | none => simp
      | some node => simp
    | some found =>
      cases found with
      | some fi => simp
      | none =>
        by_cases hne : trimNull path = []
        · simp [hne, hroot hne]
        · simp [hne]

/-- The path `/motd.txt`. -/
def motdWords : Vector Word dataFields := #v[0, 0, 0x78742E64746F6D2F, 0x74, 0, 0, 0, 0]

theorem same_files_motd : Fd.Available new.table 9 ∧
    (SameFiles bareEnv new 9 (unpackPath motdWords) ↔ SeenByOpen bareEnv new (unpackPath motdWords)) := by
  have hfree : Fd.Available new.table 9 := ⟨by decide, 0, rfl⟩
  exact ⟨hfree, same_files_iff bareEnv new 9 motdWords hfree⟩

/-- A volume whose root directory holds one file, `hi`. -/
def oneFileDisk : Disk :=
  let sector := fun (bytes : List (Nat × Byte)) i => ((bytes.find? fun b => b.1 = i).map Prod.snd).getD 0
  ⟨true, fun lba => some <|
    match lba with
    | 0 => sector [(0, 0xEB), (12, 2), (13, 1), (14, 1), (16, 1), (36, 1), (44, 2), (66, 0x29)]
    | 2 => sector ([(0, 0x48), (1, 0x49), (11, 0x20), (26, 3), (28, 2)] ++ (List.range 9).map fun i => (i + 2, 0x20))
    | _ => fun _ => 0⟩

/-- The path `/hi`. -/
def hiWords : Vector Word dataFields := #v[0, 0, 0x69682F, 0, 0, 0, 0, 0]

/-- The empty path. -/
def emptyWords : Vector Word dataFields := Vector.replicate _ 0

/-- In the first state there is a file on the volume that cannot be opened, and without a volume the root directory cannot
be opened by the empty path. -/
theorem not_same_files : Fd.Available new.table 9 ∧ ¬ SameFiles ⟨⟨[], []⟩, oneFileDisk⟩ new 9 (unpackPath hiWords) ∧
    ¬ SameFiles bareEnv new 9 (unpackPath emptyWords) := by
  have hfree : Fd.Available new.table 9 := ⟨by decide, 0, rfl⟩
  refine ⟨hfree, fun hsame => ?_, fun hsame => ?_⟩
  · have hstat : handleStat ⟨⟨[], []⟩, oneFileDisk⟩ new (unpackPath hiWords) = some (.stat 0 2) := by decide
    have hopen : (handleOpen ⟨⟨[], []⟩, oneFileDisk⟩ new 9 oRdonly (unpackPath hiWords)).2 = .error .enoent := by
      decide
    obtain ⟨s₁, n, heq⟩ := hsame.stat_iff_open.1 ⟨0, 2, by simp [handle, hstat]⟩
    simp [handle, Prod.ext_iff, hopen] at heq
  · have hstat : handleStat bareEnv new (unpackPath emptyWords) = some (.stat 1 7) := by
      decide
    have hopen : (handleOpen bareEnv new 9 oRdonly (unpackPath emptyWords)).2 = .error .emfile := by
      decide
    obtain ⟨s₁, n, heq⟩ := hsame.stat_iff_open.1 ⟨1, 7, by simp [handle, hstat]⟩
    simp [handle, Prod.ext_iff, hopen] at heq

end Server

end Rost.Vfs
