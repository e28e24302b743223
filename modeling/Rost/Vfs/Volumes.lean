import Rost.Vfs.Robustness
import Rost.Vfs.Server

/-!
# Reading from a well-formed volume

The handler of `OP_READ` with the caches does what the one without them does (`handleRead_of`).  On a well-formed volume it
returns the bytes of the chain of the file, chunk after chunk; but it takes the offset modulo `2^32`, so behind the end of
the file it says so only where that is also behind the end (`reads_whole_file`).
-/

namespace Rost.Vfs

namespace Fat32

/-- The entry of a cluster in the table. -/
def entry (disk : Disk) (v : Volume) (c : Nat) : Option Nat :=
  (disk.readSector (v.fatLba + c * 4 / 512)).map fun sec => le sec (c * 4 % 512) 4 % 2 ^ 28

/-- The cluster is one of `n` clusters. -/
def IsCluster (n c : Nat) : Prop := 2 ≤ c ∧ c < n + 2

/-- From `c` on, the entries lead through the clusters `cs` to an end mark. -/
inductive Chain (disk : Disk) (v : Volume) (n : Nat) : Nat → List Nat → Prop
  | last {c e : Nat} (hrange : IsCluster n c) (hentry : entry disk v c = some e) (hend : eoc ≤ e) : Chain disk v n c [c]
  | link {c c' : Nat} {cs : List Nat} (hrange : IsCluster n c) (hentry : entry disk v c = some c')
      (h : Chain disk v n c' cs) : Chain disk v n c (c :: cs)

/-- A volume with `n` clusters, whose sectors can all be read. -/
structure WellFormed (disk : Disk) (v : Volume) (n : Nat) : Prop where
  volume : available disk = some (some v)
  count : n + 2 ≤ eoc
  sectors : v.dataLba + n * v.spc < 2 ^ 32
  readable : ∀ lba < v.dataLba + n * v.spc, (disk.readSector lba).isSome = true
  root : IsCluster n v.rootClus

/-- The number of the sector `q` of a chain. -/
def sectorOf (v : Volume) (cs : List Nat) (q : Nat) : Nat := v.dataLba + (cs.getD (q / v.spc) 0 - 2) * v.spc + q % v.spc

/-- The first `size` bytes of a chain. -/
def contentsOf (disk : Disk) (v : Volume) (cs : List Nat) (size : Nat) : Bytes :=
  (List.range size).map fun off => ((disk.readSector (sectorOf v cs (off / 512))).getD fun _ => 0) (off % 512)

/-- As many bytes as are left in the sector and in the file, and fit in a message. -/
def chunkLen (size off : Nat) : Nat := min (min chunkSize (size - off)) (512 - off % 512)

variable {disk : Disk} {v : Volume} {n c k size offset : Nat} {cs : List Nat} {path : Bytes} {fi : FileInfo}

theorem length_contentsOf (disk : Disk) (v : Volume) (cs : List Nat) (size : Nat) :
    (contentsOf disk v cs size).length = size := by
  simp [contentsOf]

theorem chunkLen_pos (h : offset < size) : 0 < chunkLen size offset := by
  unfold chunkLen chunkSize
  omega

theorem chunkLen_le (size offset : Nat) : chunkLen size offset ≤ size - offset := by
  unfold chunkLen
  omega

theorem length_chunk (disk : Disk) (v : Volume) (cs : List Nat) (size offset : Nat) :
    (((contentsOf disk v cs size).drop offset).take (chunkLen size offset)).length = chunkLen size offset := by
  rw [List.length_take, List.length_drop, length_contentsOf]
  exact Nat.min_eq_left (chunkLen_le size offset)

theorem chunk_ne_nil (disk : Disk) (v : Volume) (cs : List Nat) (h : offset < size) :
    ((contentsOf disk v cs size).drop offset).take (chunkLen size offset) ≠ [] := by
  rw [← List.length_pos_iff_ne_nil, length_chunk]
  exact chunkLen_pos h

theorem Chain.isCluster (h : Chain disk v n c cs) : IsCluster n c := by
  cases h with
  | last hrange => exact hrange
  | link hrange => exact hrange

theorem Chain.getD_isCluster (h : Chain disk v n c cs) (hk : k < cs.length) : IsCluster n (cs.getD k 0) := by
  induction h generalizing k with
  | last hrange =>
    obtain rfl : k = 0 := by simpa using hk
    exact hrange
  | link hrange _ _ ih =>
    cases k with
    | zero => exact hrange
    | succ k => exact ih (by simpa using hk)

theorem fatNext_of_entry {e : Nat} (hv : v.fatLba < 2 ^ 16) (hc : c < 2 ^ 32) (h : entry disk v c = some e) :
    fatNext disk v c = some e := by
  obtain ⟨sec, hsec, rfl⟩ := Option.map_eq_some_iff.1 h
  have hadd : add32 v.fatLba (c * 4 / 512) = some (v.fatLba + c * 4 / 512) := if_pos (by omega)
  unfold fatNext
  rw [hadd]
  simp only [Option.bind_eq_bind, Option.bind_some, hsec]

/-- The links lead through the chain. -/
theorem Chain.follow (h : Chain disk v n c cs) (hwf : WellFormed disk v n) (hv : v.fatLba < 2 ^ 16) (hk : k < cs.length) :
    follow disk v k c = some (some (cs.getD k 0)) := by
  have hcount := hwf.count
  have heoc : eoc < 2 ^ 32 := by decide
  induction h generalizing k with
  | last hrange =>
    obtain rfl : k = 0 := by simpa using hk
    rfl
  | @link c c' cs hrange hentry h ih =>
    cases k with
    | zero => rfl
    | succ k =>
      have hnext := h.isCluster
      unfold IsCluster at hrange hnext
      unfold Fat32.follow
      rw [fatNext_of_entry hv (by omega) hentry]
      simp only [Option.bind_eq_bind, Option.bind_some]
      rw [if_neg (by omega)]
      exact ih (by simpa using hk)

/-- The sectors of a cluster lie behind one another. -/
theorem clusToLba_of_isCluster (hwf : WellFormed disk v n) (h : IsCluster n c) :
    clusToLba v c = some (v.dataLba + (c - 2) * v.spc) := by
  have hsectors := hwf.sectors
  have hle : (c - 2) * v.spc ≤ n * v.spc := Nat.mul_le_mul_right _ (by unfold IsCluster at h; omega)
  have hsub : sub32 c 2 = some (c - 2) := if_pos h.1
  have hmul : mul32 (c - 2) v.spc = some ((c - 2) * v.spc) := if_pos (by omega)
  have hadd : add32 v.dataLba ((c - 2) * v.spc) = some (v.dataLba + (c - 2) * v.spc) := if_pos (by omega)
  unfold clusToLba
  rw [hsub]
  simp only [Option.bind_eq_bind, Option.bind_some, hmul, hadd]

theorem lt_sectors_of_isCluster (h : IsCluster n c) {i : Nat} (hi : i < v.spc) :
    v.dataLba + (c - 2) * v.spc + i < v.dataLba + n * v.spc := by
  have hle : (c - 2 + 1) * v.spc ≤ n * v.spc := Nat.mul_le_mul_right _ (by unfold IsCluster at h; omega)
  rw [Nat.add_mul, Nat.one_mul] at hle
  omega

/-- What is read at an offset of the file. -/
theorem readFileIn_of_lt (hwf : WellFormed disk v n) (hlookup : lookupIn disk v path = some (some fi))
    (hfile : fi.isDir = false) (hchain : Chain disk v n fi.firstCluster cs) (hlen : fi.size ≤ cs.length * (v.spc * 512))
    (hoff : offset < fi.size) (hv : v.fatLba < 2 ^ 16) (hspc : 0 < v.spc) :
    readFileIn disk v path offset =
      some (some (fi.size, ((contentsOf disk v cs fi.size).drop offset).take (chunkLen fi.size offset))) := by
  have hclus : offset / (v.spc * 512) = offset / 512 / v.spc := by rw [Nat.div_div_eq_div_mul, Nat.mul_comm]
  have hsector : offset % (v.spc * 512) / 512 = offset / 512 % v.spc := Nat.mod_mul_left_div_self offset 512 v.spc
  have hbyte : offset % (v.spc * 512) % 512 = offset % 512 := Nat.mod_mul_left_mod offset v.spc 512
  have hk : offset / 512 / v.spc < cs.length := by
    rw [← hclus, Nat.div_lt_iff_lt_mul (by omega)]
    omega
  have hcluster := hchain.getD_isCluster hk
  have hmod := Nat.mod_lt (offset / 512) hspc
  have hlt := lt_sectors_of_isCluster hcluster hmod
  have hbound := hwf.sectors
  have hadd : add32 (v.dataLba + (cs.getD (offset / 512 / v.spc) 0 - 2) * v.spc) (offset / 512 % v.spc) =
      some (sectorOf v cs (offset / 512)) := if_pos (by omega)
  obtain ⟨sec, hsec⟩ := Option.isSome_iff_exists.1 (hwf.readable (sectorOf v cs (offset / 512)) hlt)
  unfold readFileIn
  rw [hlookup]
  simp only [Option.bind_eq_bind, Option.bind_some, hfile, Bool.false_eq_true, if_false]
  rw [if_neg (by omega), hclus, hchain.follow hwf hv hk]
  simp only [Option.bind_some, clusToLba_of_isCluster hwf hcluster, hsector, hadd, hsec, hbyte]
  congr 3
  -- the bytes of the chunk are those at its offsets, since they lie in one sector
  apply List.ext_getElem
  · simp [contentsOf, chunkLen]
  · intro i hi _
    simp only [List.length_map, List.length_range] at hi
    have hsame : (offset + i) / 512 = offset / 512 ∧ (offset + i) % 512 = offset % 512 + i := by omega
    simp [contentsOf, hsame.1, hsame.2, hsec]

theorem readFileIn_of_le (hlookup : lookupIn disk v path = some (some fi)) (hfile : fi.isDir = false) (hoff : fi.size ≤ offset) :
    readFileIn disk v path offset = some (some (fi.size, [])) := by
  unfold readFileIn
  rw [hlookup]
  simp only [Option.bind_eq_bind, Option.bind_some, hfile, Bool.false_eq_true, if_false]
  rw [if_pos hoff]

/-- The path leads to a file, and the clusters `cs` of its chain are enough for its size. -/
structure HasFile (disk : Disk) (v : Volume) (n : Nat) (path : Bytes) (fi : FileInfo) (cs : List Nat) : Prop where
  lookup : lookupIn disk v path = some (some fi)
  file : fi.isDir = false
  chain : fi.size ≠ 0 → Chain disk v n fi.firstCluster cs
  long : fi.size ≤ cs.length * (v.spc * 512)

end Fat32

/-- What the handler makes of what `readFile` has copied. -/
theorem Server.handleRead_of_readFileIn (progs : Static.Programs) {server : Server} {disk : Disk} {v : Fat32.Volume}
    {path bytes : Bytes} {offset size : Nat} (hmut : Mutable.find server.nodes (trimNull path) = none)
    (hfound : Fat32.available disk = some (some v))
    (h : Fat32.readFileIn disk v (trimNull path) (offset % 2 ^ 32) = some (some (size, bytes))) :
    server.handleRead ⟨progs, disk⟩ offset path = some (if bytes = [] then .done else .data size bytes) := by
  unfold Server.handleRead
  rw [hmut]
  simp only [Fat32.readFile_eq_bind, hfound, Option.bind_some, h, Option.bind_eq_bind]

namespace Fat32State

open Blk (Driver)
open Fat32 (FileInfo Volume IsCluster WellFormed HasFile lookupIn readFileIn contentsOf chunkLen)

/-- `handle_read`, with the caches. -/
def handleRead (d : Driver) (progs : Static.Programs) (server : Server) (fuel offset : Nat) (path : Bytes) (s : Fat32State) :
    Except Fault (Reply × Fat32State) :=
  match Mutable.find server.nodes (trimNull path) with
  | some i =>
    .ok (if (server.nodes.get i).isDir then .error .eisdir else Server.dataReply (server.nodes.get i).contents offset, s)
  | none => do
    let (found, s) ← available d s
    let (out, s) ← if found then readFile d fuel (trimNull path) (offset % 2 ^ 32) s else .ok (none, s)
    match out with
    | some (size, bytes) => .ok (if bytes = [] then .done else .data size bytes, s)
    | none =>
      match Static.lookup progs path with
      | none => .ok (.error .enoent, s)
      | some (.dir _) => .ok (.error .eisdir, s)
      | some (.file data _) => .ok (Server.dataReply data offset, s)

/-- The client asks for chunk after chunk, until there is none left. -/
def readAll (d : Driver) (progs : Static.Programs) (server : Server) (fuel : Nat) (path : Bytes) :
    Nat → Nat → Fat32State → Except Fault (Option Bytes × Fat32State)
  | 0, _, s => .ok (none, s)
  | rounds + 1, offset, s => do
    match ← handleRead d progs server fuel offset path s with
    | (.done, s) => .ok (some [], s)
    | (.data _ chunk, s) => do
      let (rest, s) ← readAll d progs server fuel path rounds (offset + chunk.length) s
      .ok (rest.map fun bytes => chunk ++ bytes, s)
    | (_, s) => .ok (none, s)

section Reading

variable {d : Driver} {progs : Static.Programs} {server : Server} {disk : Disk} {s : Fat32State} {v : Volume}
  {n fuel offset : Nat} {path : Bytes} {fi : FileInfo} {cs : List Nat}

/-- The handler replies what the one without caches replies. -/
theorem handleRead_of (hd : Serves d disk) (hs : Mirrors disk s) (hfound : Fat32.available disk = some (some v))
    (hskip : ¬ Skips s v) (hfuel : 2 ^ 28 ≤ fuel) {r : Reply} (h : server.handleRead ⟨progs, disk⟩ offset path = some r) :
    ∃ t, handleRead d progs server fuel offset path s = .ok (r, t) ∧ Mirrors disk t := by
  unfold Server.handleRead at h
  unfold handleRead
  cases hmut : Mutable.find server.nodes (trimNull path) with
  | some i =>
    rw [hmut, Option.some_inj] at h
    exact ⟨s, by rw [← h], hs⟩
  | none =>
    rw [hmut] at h
    simp only at h ⊢
    rcases available_of hd hs with ⟨hdisk, -⟩ | ⟨hdisk, -⟩ | ⟨t, hdisk, hav, ht, hvalid, hclba, hcache⟩
    · cases hdisk.symm.trans hfound
    · cases hdisk.symm.trans hfound
    obtain rfl : t.volume = v := by simpa using hdisk.symm.trans hfound
    have hready : Ready disk t t.rootClus := by
      refine (skips_or_ready ht).resolve_left fun hskip' => hskip ?_
      unfold Skips Blank at hskip' ⊢
      rwa [hclba, hcache] at hskip'
    rw [hav, ok_bind]
    simp only [if_true]
    simp only [Fat32.readFile_eq_bind, hfound, Option.bind_some, Option.bind_eq_bind] at h
    have hsim : Simulates disk t (fun _ _ => True) (BadRead disk t.volume (trimNull path) (offset % 2 ^ 32))
        (readFile d fuel (trimNull path) (offset % 2 ^ 32) t) (readFileIn disk t.volume (trimNull path) (offset % 2 ^ 32)) :=
      readFile_simulates hd ht hvalid hfuel hready
    obtain ⟨out, u, hok, hsome, hkeeps, -⟩ | ⟨f, -, hnone, -⟩ := hsim
    · rw [hsome, Option.bind_some] at h
      rw [hok, ok_bind]
      refine ⟨u, ?_, hkeeps.mirrors⟩
      cases out with
      | some p => exact congrArg (fun r => Except.ok (r, u)) (Option.some_inj.1 h)
      | none =>
        simp only at h ⊢
        cases hnode : Static.lookup progs path with
        | none =>
          rw [hnode] at h
          exact congrArg (fun r => Except.ok (r, u)) (Option.some_inj.1 h)
        | some node =>
          rw [hnode] at h
          cases node with
          | dir _ => exact congrArg (fun r => Except.ok (r, u)) (Option.some_inj.1 h)
          | file _ _ => exact congrArg (fun r => Except.ok (r, u)) (Option.some_inj.1 h)
    · rw [hnone] at h
      cases h

/-- The first sector of the root directory has a number other than `u32::MAX`. -/
theorem not_skips_of_wellFormed (hwf : WellFormed disk v n) : ¬ Skips s v := by
  rintro ⟨-, hroot⟩
  have hparsed := (parsed_of_available hwf.volume).2
  have hlt := Fat32.lt_sectors_of_isCluster hwf.root hparsed.spc_pos
  have hbound := hwf.sectors
  rw [Fat32.clusToLba_of_isCluster hwf hwf.root, Option.some_inj] at hroot
  unfold maxU32 at hroot
  omega

variable (progs) (hd : Serves d disk) (hwf : WellFormed disk v n) (hfuel : 2 ^ 28 ≤ fuel)
  (hmut : Mutable.find server.nodes (trimNull path) = none) (hfile : HasFile disk v n (trimNull path) fi cs)
include hd hwf hfuel hmut hfile

/-- Behind the end of the file there is nothing. -/
theorem handleRead_of_le (hs : Mirrors disk s) (hoff : fi.size ≤ offset % 2 ^ 32) :
    ∃ t, handleRead d progs server fuel offset path s = .ok (.done, t) ∧ Mirrors disk t := by
  have hread := Fat32.readFileIn_of_le hfile.lookup hfile.file hoff
  have hreply := Server.handleRead_of_readFileIn progs hmut hwf.volume hread
  exact handleRead_of hd hs hwf.volume (not_skips_of_wellFormed hwf) hfuel hreply

/-- Before the end the handler replies the next bytes. -/
theorem handleRead_of_lt (hs : Mirrors disk s) (hoff : offset % 2 ^ 32 < fi.size) :
    ∃ t, handleRead d progs server fuel offset path s =
      .ok (.data fi.size (((contentsOf disk v cs fi.size).drop (offset % 2 ^ 32)).take (chunkLen fi.size (offset % 2 ^ 32))), t) ∧
      Mirrors disk t := by
  have hparsed := (parsed_of_available hwf.volume).2
  have hread := Fat32.readFileIn_of_lt hwf hfile.lookup hfile.file (hfile.chain (by omega)) hfile.long hoff
    hparsed.fatLba_lt hparsed.spc_pos
  have hreply := Server.handleRead_of_readFileIn progs hmut hwf.volume hread
  rw [if_neg (Fat32.chunk_ne_nil disk v cs hoff)] at hreply
  exact handleRead_of hd hs hwf.volume (not_skips_of_wellFormed hwf) hfuel hreply

/-- From an offset on, the client gets the rest of the file. -/
theorem readAll_of_le (hs : Mirrors disk s) {rounds : Nat} (hoff : offset ≤ fi.size) (hrounds : fi.size - offset < rounds) :
    ∃ t, readAll d progs server fuel path rounds offset s = .ok (some ((contentsOf disk v cs fi.size).drop offset), t) := by
  have hsize := (Fat32.lt_of_lookupIn (parsed_of_available hwf.volume).2.rootClus_lt hfile.lookup).2
  induction rounds generalizing offset s with
  | zero => omega
  | succ rounds ih =>
    have hmod : offset % 2 ^ 32 = offset := Nat.mod_eq_of_lt (by omega)
    unfold readAll
    by_cases hend : fi.size ≤ offset
    · obtain ⟨t, hreply, -⟩ := handleRead_of_le progs hd hwf hfuel hmut hfile hs (hmod.symm ▸ hend)
      rw [hreply, ok_bind, List.drop_eq_nil_of_le (by rw [Fat32.length_contentsOf]; exact hend)]
      exact ⟨t, rfl⟩
    · obtain ⟨t, hreply, ht⟩ := handleRead_of_lt progs hd hwf hfuel hmut hfile hs (hmod.symm ▸ Nat.lt_of_not_le hend)
      rw [hmod] at hreply
      have hlen := Fat32.length_chunk disk v cs fi.size offset
      have hpos := Fat32.chunkLen_pos (Nat.lt_of_not_le hend)
      have hle := Fat32.chunkLen_le fi.size offset
      -- what is left after the chunk is read in fewer rounds
      obtain ⟨u, hrest⟩ := ih ht (show offset + chunkLen fi.size offset ≤ fi.size by omega) (by omega)
      rw [hreply, ok_bind]
      simp only [hlen, hrest, ok_bind, Option.map_some]
      refine ⟨u, ?_⟩
      rw [← List.drop_drop, List.take_append_drop]

end Reading

/-- On a well-formed volume the client that asks for chunk after chunk gets the file, each chunk has at least one byte, and
at an offset behind the end the reply is `RESP_DONE` exactly if the offset modulo `2^32` is behind the end, too. -/
theorem reads_whole_file {d : Driver} {progs : Static.Programs} {server : Server} {disk : Disk} {s : Fat32State} {v : Volume}
    {n fuel : Nat} {path : Bytes} {fi : FileInfo} {cs : List Nat} (hd : Serves d disk) (hs : Reached d s)
    (hwf : WellFormed disk v n) (hfuel : 2 ^ 28 ≤ fuel) (hmut : Mutable.find server.nodes (trimNull path) = none)
    (hfile : HasFile disk v n (trimNull path) fi cs) :
    (∃ t, readAll d progs server fuel path (fi.size + 1) 0 s = .ok (some (contentsOf disk v cs fi.size), t)) ∧
    (∀ offset < fi.size, ∃ chunk t, handleRead d progs server fuel offset path s = .ok (.data fi.size chunk, t) ∧
      chunk ≠ [] ∧ chunk <+: (contentsOf disk v cs fi.size).drop offset) ∧
    ∀ offset < 2 ^ 64, fi.size ≤ offset →
      ((∃ t, handleRead d progs server fuel offset path s = .ok (.done, t)) ↔ fi.size ≤ offset % 2 ^ 32) := by
  have hmirrors := mirrors_of_reached hd hs
  have hsize := (Fat32.lt_of_lookupIn (parsed_of_available hwf.volume).2.rootClus_lt hfile.lookup).2
  refine ⟨?_, fun offset hoff => ?_, fun offset _ _ => ?_⟩
  · exact readAll_of_le progs hd hwf hfuel hmut hfile hmirrors (Nat.zero_le _) (by omega)
  · have hmod : offset % 2 ^ 32 = offset := Nat.mod_eq_of_lt (by omega)
    obtain ⟨t, hreply, -⟩ := handleRead_of_lt progs hd hwf hfuel hmut hfile hmirrors (hmod.symm ▸ hoff)
    rw [hmod] at hreply
    exact ⟨_, t, hreply, Fat32.chunk_ne_nil disk v cs hoff, List.take_prefix _ _⟩
  · constructor
    · rintro ⟨t, hdone⟩
      by_contra hlt
      obtain ⟨t', hdata, -⟩ := handleRead_of_lt progs hd hwf hfuel hmut hfile hmirrors (Nat.lt_of_not_le hlt)
      cases hdone.symm.trans hdata
    · intro hle
      obtain ⟨t, hreply, -⟩ := handleRead_of_le progs hd hwf hfuel hmut hfile hmirrors hle
      exact ⟨t, hreply⟩

/-- The volume of `smallDevice`; the chain of the file ends, too. -/
def fileDisk : Disk where
  present := true
  readSector
    | 1 => some fun i => if i = 11 ∨ i = 15 then 0x0F else if 8 ≤ i ∧ i < 15 then 0xFF else 0
    | lba => if lba < 4 then some (smallDevice lba) else none

theorem wellFormed_fileDisk : WellFormed fileDisk ⟨1, 1, 2, 2⟩ 2 where
  volume := rfl
  count := by decide
  sectors := by decide
  readable := by decide
  root := ⟨by decide, by decide⟩

theorem hasFile_fileDisk : HasFile fileDisk ⟨1, 1, 2, 2⟩ 2 (trimNull (ascii "/a")) ⟨3, 100, false⟩ [3] where
  lookup := by decide +kernel
  file := rfl
  chain := fun _ => .last ⟨by decide, by decide⟩ rfl (by decide)
  long := by decide

theorem reads_whole_file_a :
    (∃ t, readAll (exactDriver fileDisk) ⟨[], []⟩ .new (2 ^ 28) (ascii "/a") 101 0 uninit =
      .ok (some (contentsOf fileDisk ⟨1, 1, 2, 2⟩ [3] 100), t)) ∧
    ((∃ t, handleRead (exactDriver fileDisk) ⟨[], []⟩ .new (2 ^ 28) 100 (ascii "/a") uninit = .ok (.done, t)) ↔
      100 ≤ 100 % 2 ^ 32) := by
  have hmut : Mutable.find Server.new.nodes (trimNull (ascii "/a")) = none := by decide +kernel
  have h := @reads_whole_file _ ⟨[], []⟩ _ _ _ _ _ _ _ _ _ (serves_exact fileDisk) .start wellFormed_fileDisk le_rfl
    hmut hasFile_fileDisk
  exact ⟨h.1, h.2.2 100 (by decide) le_rfl⟩

/-- At offset `2^32` the handler replies the first bytes of the file of 100 bytes. -/
theorem read_at_two_pow_32 : Serves (exactDriver fileDisk) fileDisk ∧ WellFormed fileDisk ⟨1, 1, 2, 2⟩ 2 ∧
    HasFile fileDisk ⟨1, 1, 2, 2⟩ 2 (trimNull (ascii "/a")) ⟨3, 100, false⟩ [3] ∧
    ∀ fuel, 2 ^ 28 ≤ fuel → ∃ t, handleRead (exactDriver fileDisk) ⟨[], []⟩ .new fuel (2 ^ 32) (ascii "/a") uninit =
      .ok (.data 100 (.replicate 40 0x55), t) := by
  refine ⟨serves_exact fileDisk, wellFormed_fileDisk, hasFile_fileDisk, fun fuel hfuel => ?_⟩
  have hreply : Server.new.handleRead ⟨⟨[], []⟩, fileDisk⟩ (2 ^ 32) (ascii "/a") =
      some (.data 100 (.replicate 40 0x55)) := by decide +kernel
  obtain ⟨t, hok, -⟩ := handleRead_of (serves_exact fileDisk) mirrors_uninit wellFormed_fileDisk.volume
    (not_skips_of_wellFormed wellFormed_fileDisk) hfuel hreply
  exact ⟨t, hok⟩

end Fat32State

end Rost.Vfs
