import Rost.Vfs.Path

/-!
# The FAT32 layer

A reader for a FAT32 volume on a block device.  The server is built with overflow checks, so arithmetic that overflows
stops it; and a cluster chain that runs in a circle keeps it busy for ever.  The functions return `none` in both cases.
Sectors are cached, which is not seen from outside: reading a sector twice gives the same bytes.
-/

namespace Rost.Vfs

/-- A block device: whether its driver is there, and its sectors as far as they can be read. -/
structure Disk where
  present : Bool
  readSector : Nat → Option (Nat → Byte)

namespace Fat32

/-! ### Checked arithmetic -/

def add32 (a b : Nat) : Option Nat := if a + b < 2 ^ 32 then some (a + b) else none

def mul32 (a b : Nat) : Option Nat := if a * b < 2 ^ 32 then some (a * b) else none

def sub32 (a b : Nat) : Option Nat := if b ≤ a then some (a - b) else none

/-- The little-endian number in `n` bytes from `i` on. -/
def le (sec : Nat → Byte) (i : Nat) : Nat → Nat
  | 0 => 0
  | n + 1 => (sec i).toNat + 256 * le sec (i + 1) n

theorem le_lt (sec : Nat → Byte) (i n : Nat) : le sec i n < 256 ^ n := by
  induction n generalizing i with
  | zero => exact Nat.one_pos
  | succ n ih =>
    have hrest := ih (i + 1)
    have hbyte := (sec i).isLt
    unfold le
    rw [Nat.pow_succ]
    omega

/-! ### The volume -/

/-- End of a chain. -/
def eoc : Nat := 0x0FFFFFF8

structure Volume where
  /-- Sectors of a cluster. -/
  spc : Nat
  fatLba : Nat
  dataLba : Nat
  rootClus : Nat

/-- The volume on the disk, if there is one. -/
def available (disk : Disk) : Option (Option Volume) :=
  if disk.present then
    match disk.readSector 0 with
    | none => some none
    | some vbr =>
      if vbr 0 ≠ 0xEB ∧ vbr 0 ≠ 0xE9 then some none
      else if le vbr 11 2 ≠ 512 then some none
      else if vbr 13 = 0 then some none
      else if vbr 16 = 0 then some none
      else if le vbr 36 4 = 0 then some none
      else if vbr 66 ≠ 0x28 ∧ vbr 66 ≠ 0x29 then some none
      else do
        let fats ← mul32 (vbr 16).toNat (le vbr 36 4)
        let dataLba ← add32 (le vbr 14 2) fats
        some (some ⟨(vbr 13).toNat, le vbr 14 2, dataLba, le vbr 44 4⟩)
  else some none

/-- The cluster after `c`; `u32::MAX` if the sector of the FAT cannot be read. -/
def fatNext (disk : Disk) (v : Volume) (c : Nat) : Option Nat := do
  let lba ← add32 v.fatLba (c * 4 / 512)
  match disk.readSector lba with
  | none => some (2 ^ 32 - 1)
  | some sec => some (le sec (c * 4 % 512) 4 % 2 ^ 28)

def clusToLba (v : Volume) (c : Nat) : Option Nat := do
  let index ← sub32 c 2
  let sectors ← mul32 index v.spc
  add32 v.dataLba sectors

/-! ### Directories -/

/-- An entry of a directory. -/
structure DirRecord where
  name : Bytes
  isDir : Bool
  size : Nat
  firstCluster : Nat
deriving DecidableEq

/-- The long name that is being collected. -/
structure Lfn where
  buf : Nat → Byte
  found : Bool

def Lfn.none : Lfn := ⟨fun _ => 0, false⟩

/-- The low and the high byte of each character of a long-name entry. -/
def lfnChars (e : Nat → Byte) : List (Byte × Byte) :=
  [1, 3, 5, 7, 9, 14, 16, 18, 20, 22, 24, 28, 30].map fun off => (e off, e (off + 1))

/-- A long-name entry stores its characters, up to the first that ends the name. -/
def Lfn.store (l : Lfn) (e : Nat → Byte) : Lfn :=
  let seq := (e 0).toNat % 32
  if 1 ≤ seq ∧ seq ≤ 20 then
    let chars := (lfnChars e).takeWhile fun c => !(c.1 = 0 && c.2 = 0) && !(c.1 = 0xFF && c.2 = 0xFF)
    let base := (seq - 1) * 13
    { l with
      buf := fun d =>
        if base ≤ d ∧ d < 255 then
          match chars[d - base]? with
          | some c => if 0x20 ≤ c.1.toNat ∧ c.1.toNat < 0x80 then c.1 else 0x5F
          | Option.none => l.buf d
        else l.buf d }
  else l

/-- The name that has been collected. -/
def Lfn.name (l : Lfn) : Bytes := ((List.range 255).map l.buf).takeWhile fun b => b != 0

/-- The part of a short name in the `n` bytes from `off` on, without the spaces at its end. -/
def sfnPart (e : Nat → Byte) (off n : Nat) : Bytes :=
  ((((List.range n).map fun i => e (off + i)).reverse.dropWhile fun b => b = 0x20).reverse).map toLower

def sfnName (e : Nat → Byte) : Bytes :=
  if sfnPart e 8 3 = [] then sfnPart e 0 8 else sfnPart e 0 8 ++ [0x2E] ++ sfnPart e 8 3

/-- What an entry means: the end of the directory, or a record perhaps, and the long name from then on. -/
def readEntry (l : Lfn) (e : Nat → Byte) : Option (Lfn × Option DirRecord) :=
  if e 0 = 0x00 then none
  else if e 0 = 0xE5 then some ({ l with found := false }, none)
  else if e 11 = 0x0F then
    if e 0 &&& 0x40 ≠ 0 then some (Lfn.store ⟨fun _ => 0, true⟩ e, none)
    else if l.found then some (l.store e, none)
    else some (l, none)
  -- a volume label
  else if e 11 &&& 0x08 ≠ 0 ∧ e 11 &&& 0x10 = 0 then some ({ l with found := false }, none)
  -- the entries of the directory itself and of its parent
  else if e 0 = 0x2E then some ({ l with found := false }, none)
  else
    let isDir := decide (e 11 &&& 0x10 ≠ 0)
    let firstCluster := le e 20 2 * 2 ^ 16 + le e 26 2
    let name := if l.found ∧ l.name ≠ [] then l.name else sfnName e
    some ({ l with found := false }, if name = [] then none else some ⟨name, isDir, le e 28 4, firstCluster⟩)

/-- The records among the entries `es` of a sector; no long name at the end of the directory. -/
def scanEntries (sec : Nat → Byte) : List Nat → Lfn → List DirRecord × Option Lfn
  | [], l => ([], some l)
  | i :: es, l =>
    match readEntry l fun j => sec (i * 32 + j) with
    | none => ([], none)
    | some (l, r) => ((r.toList ++ (scanEntries sec es l).1), (scanEntries sec es l).2)

/-- The records in the sectors `is` of the cluster at `base`. -/
def scanSectors (disk : Disk) (base : Nat) : List Nat → Lfn → Option (List DirRecord × Option Lfn)
  | [], l => some ([], some l)
  | i :: is, l => do
    let lba ← add32 base i
    match disk.readSector lba with
    | none => some ([], none)
    | some sec =>
      match scanEntries sec (List.range 16) l with
      | (rs, none) => some (rs, none)
      | (rs, some l) => do
        let (rs', l) ← scanSectors disk base is l
        some (rs ++ rs', l)

/-- The records in the chain from `clus` on, which ends within `fuel` clusters. -/
def scanChain (disk : Disk) (v : Volume) : Nat → Nat → Lfn → Option (List DirRecord)
  | 0, _, _ => none
  | fuel + 1, clus, l =>
    if clus < 2 ∨ eoc ≤ clus then some []
    else do
      let base ← clusToLba v clus
      match ← scanSectors disk base (List.range v.spc) l with
      | (rs, none) => some rs
      | (rs, some l) => do
        let next ← fatNext disk v clus
        let rs' ← scanChain disk v fuel next l
        some (rs ++ rs')

/-- The records of a directory.  A chain that has more than `2^28` clusters comes back to one of them. -/
def scanDir (disk : Disk) (v : Volume) (startClus : Nat) : Option (List DirRecord) :=
  scanChain disk v (2 ^ 28) startClus .none

/-! ### Paths -/

structure FileInfo where
  firstCluster : Nat
  size : Nat
  isDir : Bool
deriving DecidableEq

/-- Strip a leading slash, and what follows the first NUL. -/
def trimPath (p : Bytes) : Bytes := trimNull (if p.head? = some slash then p.tail else p)

def DirRecord.info (r : DirRecord) : FileInfo := ⟨r.firstCluster, r.size, r.isDir⟩

/-- Walk down from the directory at `clus`; every step takes a byte of the path at least. -/
def lookupFrom (disk : Disk) (v : Volume) : Nat → Nat → Bytes → Option (Option FileInfo)
  | 0, _, _ => some none
  | fuel + 1, clus, remaining =>
    if (splitFirst remaining).1 = [] then some none
    else do
      let records ← scanDir disk v clus
      match records.find? fun r => eqCi r.name (splitFirst remaining).1 with
      | none => some none
      | some r =>
        if (splitFirst remaining).2 = [] then some (some r.info)
        else if r.isDir then lookupFrom disk v fuel r.firstCluster (splitFirst remaining).2
        else some none

def lookupIn (disk : Disk) (v : Volume) (path : Bytes) : Option (Option FileInfo) :=
  if trimPath path = [] then some (some ⟨v.rootClus, 0, true⟩)
  else lookupFrom disk v ((trimPath path).length + 1) v.rootClus (trimPath path)

/-- The file or directory at the path, if there is one on the volume. -/
def lookup (disk : Disk) (path : Bytes) : Option (Option FileInfo) := do
  match ← available disk with
  | none => some none
  | some v => lookupIn disk v path

/-- The records of the directory at the path; none if there is no directory. -/
def readdir (disk : Disk) (path : Bytes) : Option (List DirRecord) := do
  match ← available disk with
  | none => some []
  | some v =>
    if trimPath path = [] then scanDir disk v v.rootClus
    else
      match ← lookupIn disk v path with
      | some fi => if fi.isDir then scanDir disk v fi.firstCluster else some []
      | none => some []

/-- The cluster `n` links further on; there is none behind the end of the chain. -/
def follow (disk : Disk) (v : Volume) : Nat → Nat → Option (Option Nat)
  | 0, clus => some (some clus)
  | n + 1, clus => do
    let next ← fatNext disk v clus
    if eoc ≤ next ∨ next < 2 then some none else follow disk v n next

/-- The size of the file at the path and up to 40 bytes of it from `offset` on. -/
def readFile (disk : Disk) (path : Bytes) (offset : Nat) : Option (Option (Nat × Bytes)) := do
  match ← available disk with
  | none => some none
  | some v =>
    match ← lookupIn disk v path with
    | none => some none
    | some fi =>
      if fi.isDir then some none
      else if fi.size ≤ offset then some (some (fi.size, []))
      else do
        let perClus := v.spc * 512
        match ← follow disk v (offset / perClus) fi.firstCluster with
        | none => some (some (fi.size, []))
        | some clus => do
          let base ← clusToLba v clus
          let lba ← add32 base (offset % perClus / 512)
          match disk.readSector lba with
          | none => some none
          | some sec =>
            let first := offset % perClus % 512
            let n := min (min chunkSize (fi.size - offset)) (512 - first)
            some (some (fi.size, (List.range n).map fun i => sec (first + i)))

/-! ### The walk -/

variable {disk : Disk} {v : Volume}

/-- More steps than the path has bytes make no difference. -/
theorem lookupFrom_eq {n m clus : Nat} {p : Bytes} (hn : p.length < n) (hm : p.length < m) :
    lookupFrom disk v n clus p = lookupFrom disk v m clus p := by
  induction n generalizing m clus p with
  | zero => omega
  | succ n ih =>
    cases m with
    | zero => omega
    | succ m =>
      unfold lookupFrom
      by_cases hc : (splitFirst p).1 = []
      · rw [if_pos hc, if_pos hc]
      · rw [if_neg hc, if_neg hc]
        have hlt := length_splitFirst_lt hc
        congr 1
        funext records
        cases records.find? fun r => eqCi r.name (splitFirst p).1 with
        | none => rfl
        | some r =>
          simp only
          rw [ih (m := m) (by omega) (by omega)]

/-- The file or directory at a path from the directory at `clus`. -/
def lookupAt (disk : Disk) (v : Volume) (clus : Nat) (p : Bytes) : Option (Option FileInfo) :=
  lookupFrom disk v (p.length + 1) clus p

theorem lookupAt_of_nil {clus : Nat} {p : Bytes} (h : (splitFirst p).1 = []) : lookupAt disk v clus p = some none := by
  unfold lookupAt lookupFrom
  rw [if_pos h]

/-- One step of the walk. -/
theorem lookupAt_step {clus : Nat} {p : Bytes} (h : (splitFirst p).1 ≠ []) :
    lookupAt disk v clus p = (scanDir disk v clus).bind fun records =>
      match records.find? fun r => eqCi r.name (splitFirst p).1 with
      | none => some none
      | some r =>
        if (splitFirst p).2 = [] then some (some r.info)
        else if r.isDir then lookupAt disk v r.firstCluster (splitFirst p).2
        else some none := by
  have hlt := length_splitFirst_lt h
  unfold lookupAt
  rw [lookupFrom, if_neg h]
  simp only [Option.bind_eq_bind]
  congr 1
  funext records
  cases records.find? fun r => eqCi r.name (splitFirst p).1 with
  | none => rfl
  | some r =>
    simp only
    rw [lookupFrom_eq (by omega) (Nat.lt_succ_self _)]

/-- The walk to a name. -/
theorem lookupAt_name {clus : Nat} {name : Bytes} (h : Plain name) :
    lookupAt disk v clus name = (scanDir disk v clus).map fun records =>
      (records.find? fun r => eqCi r.name name).map DirRecord.info := by
  have hsplit := splitFirst_of_not_mem h.no_slash
  rw [lookupAt_step (by rw [hsplit]; exact h.ne_nil), hsplit]
  simp only [if_true]
  cases scanDir disk v clus with
  | none => rfl
  | some records =>
    simp only [Option.bind_some, Option.map_some]
    cases records.find? fun r => eqCi r.name name <;> rfl

/-- The walk to a path and then to a name there. -/
theorem lookupAt_joinPath {clus : Nat} {p name : Bytes} (hp : p ≠ []) (hname : Plain name) :
    lookupAt disk v clus (joinPath p name) = (lookupAt disk v clus p).bind fun found =>
      match found with
      | none => some none
      | some fi => if fi.isDir then lookupAt disk v fi.firstCluster name else some none := by
  generalize hlen : p.length = len
  induction len using Nat.strong_induction_on generalizing clus p with
  | _ len ih =>
    have hsplit := splitFirst_joinPath name (p := p)
    by_cases hfirst : (splitFirst p).1 = []
    · rw [lookupAt_of_nil hfirst, lookupAt_of_nil (by rw [hsplit]; exact hfirst)]
      rfl
    · have hlt := length_splitFirst_lt hfirst
      rw [lookupAt_step hfirst, lookupAt_step (by rw [hsplit]; exact hfirst), hsplit, Option.bind_assoc]
      congr 1
      funext records
      cases records.find? fun r => eqCi r.name (splitFirst p).1 with
      | none => rfl
      | some r =>
        by_cases hrest : (splitFirst p).2 = []
        · simp [hrest, hname.ne_nil, DirRecord.info]
        · have hjoin : joinPath (splitFirst p).2 name ≠ [] := joinPath_ne_nil hname.ne_nil
          simp only [if_neg hrest, if_neg hjoin]
          by_cases hdir : r.isDir = true
          · rw [if_pos hdir, if_pos hdir]
            exact ih _ (by omega) hrest rfl
          · rw [if_neg hdir, if_neg hdir]
            rfl

theorem trimPath_joinPath {p name : Bytes} (hp : p ≠ []) (hnull : (0 : Byte) ∉ p) (hname : Plain name) :
    trimPath (joinPath p name) = if trimPath p = [] then name else joinPath (trimPath p) name := by
  have hjoin : (0 : Byte) ∉ joinPath p name := not_mem_joinPath (by decide) hnull hname.no_null
  unfold trimPath
  by_cases hhead : p.head? = some slash
  · rw [if_pos hhead, if_pos (by rw [head?_joinPath hp]; exact hhead)]
    obtain ⟨q, rfl⟩ : ∃ q, p = slash :: q := List.head?_eq_some_iff.1 hhead
    have hq : trimNull q = q := trimNull_of_not_mem fun h => hnull (List.mem_cons_of_mem _ h)
    by_cases hnil : q = []
    · rw [hnil, joinPath_slash]
      simpa [trimNull] using trimNull_of_not_mem hname.no_null
    · rw [joinPath_cons hnil] at hjoin ⊢
      rw [List.tail_cons, List.tail_cons, hq, if_neg hnil]
      exact trimNull_of_not_mem fun h => hjoin (List.mem_cons_of_mem _ h)
  · rw [if_neg hhead, if_neg (by rw [head?_joinPath hp]; exact hhead), trimNull_of_not_mem hjoin, trimNull_of_not_mem hnull,
      if_neg hp]

theorem lookupIn_eq (p : Bytes) :
    lookupIn disk v p = if trimPath p = [] then some (some ⟨v.rootClus, 0, true⟩) else lookupAt disk v v.rootClus (trimPath p) :=
  rfl

/-- What stands at a name in a directory whose records have been read. -/
theorem lookup_joinPath {p name : Bytes} {records : List DirRecord} (hp : p ≠ []) (hnull : (0 : Byte) ∉ p)
    (hname : Plain name) (h : readdir disk p = some records) :
    lookup disk (joinPath p name) = some ((records.find? fun r => eqCi r.name name).map DirRecord.info) := by
  have htrim := trimPath_joinPath hp hnull hname
  unfold readdir at h
  unfold lookup
  simp only [Option.bind_eq_bind] at h ⊢
  cases hav : available disk with
  | none =>
    rw [hav] at h
    cases h
  | some found =>
    rw [hav] at h
    cases found with
    | none =>
      cases h
      rfl
    | some v =>
      simp only [Option.bind_some] at h ⊢
      by_cases hroot : trimPath p = []
      · rw [if_pos hroot] at h htrim
        rw [lookupIn_eq, htrim, if_neg hname.ne_nil, lookupAt_name hname, h]
        rfl
      · rw [if_neg hroot] at h htrim
        rw [lookupIn_eq, if_neg hroot] at h
        rw [lookupIn_eq, htrim, if_neg (joinPath_ne_nil hname.ne_nil), lookupAt_joinPath hroot hname]
        cases hat : lookupAt disk v v.rootClus (trimPath p) with
        | none =>
          rw [hat] at h
          cases h
        | some found =>
          rw [hat] at h
          cases found with
          | none =>
            cases h
            rfl
          | some fi =>
            simp only [Option.bind_some] at h ⊢
            by_cases hdir : fi.isDir = true
            · rw [if_pos hdir] at h ⊢
              rw [lookupAt_name hname, h]
              rfl
            · rw [if_neg hdir] at h ⊢
              cases h
              rfl

/-- There is nothing in the directory `//`. -/
theorem readdir_slashes {records : List DirRecord} (h : readdir disk [slash, slash] = some records) : records = [] := by
  have htrim : trimPath [slash, slash] = [slash] := by decide
  have hfirst : (splitFirst [slash]).1 = [] := by decide
  unfold readdir at h
  obtain ⟨found, -, h⟩ := Option.bind_eq_some_iff.1 h
  cases found with
  | none =>
    cases h
    rfl
  | some v =>
    simp only [lookupIn_eq, htrim, lookupAt_of_nil hfirst] at h
    cases h
    rfl

/-! ### The records -/

/-- A record has a name, and its numbers are `u32`s. -/
theorem record_of_readEntry {l l' : Lfn} {e : Nat → Byte} {r : DirRecord} (h : readEntry l e = some (l', some r)) :
    r.name ≠ [] ∧ r.firstCluster < 2 ^ 32 ∧ r.size < 2 ^ 32 := by
  unfold readEntry at h
  simp only at h
  split at h
  · cases h
  · split at h
    · cases h
    · split at h
      · split at h
        · cases h
        · split at h <;> cases h
      · split at h
        · cases h
        · split at h
          · cases h
          · simp only [Option.some.injEq, Prod.mk.injEq] at h
            obtain ⟨-, h⟩ := h
            generalize (if l.found = true ∧ l.name ≠ [] then l.name else sfnName e) = name at h
            split at h
            · cases h
            · rename_i hne
              cases h
              have hhigh := le_lt e 20 2
              have hlow := le_lt e 26 2
              refine ⟨hne, ?_, le_lt e 28 4⟩
              simp only
              omega

/-! What holds of every record that an entry gives holds of every record of a directory. -/

section Records

variable {P : DirRecord → Prop} {r : DirRecord}

theorem of_mem_scanEntries (hP : ∀ {l e l' r}, readEntry l e = some (l', some r) → P r) {sec : Nat → Byte} {is : List Nat}
    {l : Lfn} (h : r ∈ (scanEntries sec is l).1) : P r := by
  induction is generalizing l with
  | nil => cases h
  | cons i is ih =>
    unfold scanEntries at h
    split at h
    · cases h
    · rename_i l' found hread
      rcases List.mem_append.1 h with h | h
      · rw [Option.mem_toList.1 h] at hread
        exact hP hread
      · exact ih h

theorem of_mem_scanSectors (hP : ∀ {l e l' r}, readEntry l e = some (l', some r) → P r) {base : Nat} {is : List Nat} {l : Lfn}
    {rs : List DirRecord} {l' : Option Lfn} (h : scanSectors disk base is l = some (rs, l')) (hr : r ∈ rs) : P r := by
  induction is generalizing l rs l' with
  | nil =>
    cases h
    cases hr
  | cons i is ih =>
    unfold scanSectors at h
    obtain ⟨lba, -, h⟩ := Option.bind_eq_some_iff.1 h
    split at h
    · cases h
      cases hr
    · rename_i sec _
      have hscanned : ∀ {r}, r ∈ (scanEntries sec (List.range 16) l).1 → P r := of_mem_scanEntries hP
      split at h
      · rename_i rs' hscan
        cases h
        rw [hscan] at hscanned
        exact hscanned hr
      · rename_i rs₁ l₁ hscan
        obtain ⟨⟨rs₂, l₂⟩, hrest, heq⟩ := Option.bind_eq_some_iff.1 h
        cases heq
        rcases List.mem_append.1 hr with hr | hr
        · rw [hscan] at hscanned
          exact hscanned hr
        · exact ih hrest hr

theorem of_mem_scanChain (hP : ∀ {l e l' r}, readEntry l e = some (l', some r) → P r) {fuel clus : Nat} {l : Lfn}
    {rs : List DirRecord} (h : scanChain disk v fuel clus l = some rs) (hr : r ∈ rs) : P r := by
  induction fuel generalizing clus l rs with
  | zero => cases h
  | succ fuel ih =>
    unfold scanChain at h
    split at h
    · cases h
      cases hr
    · obtain ⟨base, -, h⟩ := Option.bind_eq_some_iff.1 h
      obtain ⟨⟨rs₁, l₁⟩, hsectors, h⟩ := Option.bind_eq_some_iff.1 h
      split at h
      · rename_i heq
        cases heq
        cases h
        exact of_mem_scanSectors hP hsectors hr
      · rename_i heq
        cases heq
        obtain ⟨next, -, h⟩ := Option.bind_eq_some_iff.1 h
        obtain ⟨rs₂, hrest, heq⟩ := Option.bind_eq_some_iff.1 h
        cases heq
        rcases List.mem_append.1 hr with hr | hr
        · exact of_mem_scanSectors hP hsectors hr
        · exact ih hrest hr

end Records

theorem record_of_mem_scanDir {clus : Nat} {rs : List DirRecord} {r : DirRecord} (h : scanDir disk v clus = some rs)
    (hr : r ∈ rs) : r.name ≠ [] ∧ r.firstCluster < 2 ^ 32 ∧ r.size < 2 ^ 32 :=
  of_mem_scanChain record_of_readEntry h hr

/-- A record has a name. -/
theorem name_ne_nil_of_mem_readdir {p : Bytes} {records : List DirRecord} {r : DirRecord}
    (h : readdir disk p = some records) (hr : r ∈ records) : r.name ≠ [] := by
  unfold readdir at h
  obtain ⟨found, -, h⟩ := Option.bind_eq_some_iff.1 h
  cases found with
  | none =>
    cases h
    cases hr
  | some v =>
    simp only at h
    split at h
    · exact (record_of_mem_scanDir h hr).1
    · obtain ⟨found, -, h⟩ := Option.bind_eq_some_iff.1 h
      cases found with
      | none =>
        cases h
        cases hr
      | some fi =>
        simp only at h
        split at h
        · exact (record_of_mem_scanDir h hr).1
        · cases h
          cases hr

end Fat32

end Rost.Vfs
