import Rost.Vfs.Blk
import Rost.Vfs.Fat32

/-!
# The FAT32 layer with its caches

The functions of the FAT32 layer as they run: they pass a state along that holds the geometry of the volume, a sector of
the FAT and another sector.  A sum, a product or a difference that is no `u32`, and an index out of bounds, stop the
server (`Fault.trap`).  Only the walk along the clusters of a directory has no bound of its own; it is given the number of
clusters that it may visit (`Fault.hang`).
-/

namespace Rost.Vfs

open Blk (Driver)
open Fat32 (DirRecord FileInfo Volume add32 mul32 sub32 eoc trimPath)

/-- The server stops, or it has not come to an end within the given number of clusters. -/
inductive Fault
  | trap
  | hang
deriving DecidableEq

/-- The static `STATE`, and the number of requests to the block driver so far. -/
structure Fat32State where
  valid : Bool
  spc : Nat
  fatLba : Nat
  dataLba : Nat
  rootClus : Nat
  fatClba : Nat
  fatCache : Sector
  secClba : Nat
  secCache : Sector
  calls : Nat

namespace Fat32State

/-- `u32::MAX` -/
def maxU32 : Nat := 2 ^ 32 - 1

def uninit : Fat32State := ⟨false, 1, 0, 0, 2, maxU32, fun _ => 0, maxU32, fun _ => 0, 0⟩

def volume (s : Fat32State) : Volume := ⟨s.spc, s.fatLba, s.dataLba, s.rootClus⟩

/-! ### Checked operations -/

def check {α : Type} : Option α → Except Fault α
  | some a => .ok a
  | none => .error .trap

def index {n : Nat} (a : Fin n → Byte) (i : Nat) : Except Fault Byte :=
  if h : i < n then .ok (a ⟨i, h⟩) else .error .trap

/-- The little-endian number in `n` bytes from `i` on. -/
def indexLe {m : Nat} (a : Fin m → Byte) (i : Nat) : Nat → Except Fault Nat
  | 0 => .ok 0
  | n + 1 => do
    let b ← index a i
    let rest ← indexLe a (i + 1) n
    .ok (b.toNat + 256 * rest)

def store {n : Nat} (a : Fin n → Byte) (i : Nat) (b : Byte) : Except Fault (Fin n → Byte) :=
  if i < n then .ok fun j => if j.val = i then b else a j else .error .trap

/-- `&a[..len]` -/
def prefixOf {n : Nat} (a : Fin n → Byte) (len : Nat) : Except Fault Bytes :=
  if h : len ≤ n then .ok (List.ofFn fun i : Fin len => a ⟨i, Nat.lt_of_lt_of_le i.isLt h⟩) else .error .trap

/-! ### The volume -/

def available (d : Driver) (s : Fat32State) : Except Fault (Bool × Fat32State) :=
  if s.valid then .ok (true, s)
  else if !d.present then .ok (false, s)
  else
    match Blk.readSector d 0 s.calls fun _ => 0 with
    | (calls, _, false) => .ok (false, { s with calls := calls })
    | (calls, vbr, true) => do
      let s := { s with calls := calls }
      let jump ← index vbr 0
      if jump ≠ 0xEB ∧ jump ≠ 0xE9 then .ok (false, s)
      else do
        let bps ← indexLe vbr 11 2
        if bps ≠ 512 then .ok (false, s)
        else do
          let spc ← index vbr 13
          if spc = 0 then .ok (false, s)
          else do
            let reserved ← indexLe vbr 14 2
            let numFats ← index vbr 16
            if numFats = 0 then .ok (false, s)
            else do
              let fatSize ← indexLe vbr 36 4
              if fatSize = 0 then .ok (false, s)
              else do
                let rootClus ← indexLe vbr 44 4
                let sig ← index vbr 66
                if sig ≠ 0x28 ∧ sig ≠ 0x29 then .ok (false, s)
                else do
                  let fats ← check (mul32 numFats.toNat fatSize)
                  let dataLba ← check (add32 reserved fats)
                  .ok (true, { s with
                    valid := true, spc := spc.toNat, fatLba := reserved, dataLba := dataLba, rootClus := rootClus })

/-! ### Sectors -/

/-- Read a sector into `secCache`. -/
def readSec (d : Driver) (lba : Nat) (s : Fat32State) : Bool × Fat32State :=
  if s.secClba = lba then (true, s)
  else
    match Blk.readSector d lba s.calls s.secCache with
    | (calls, buf, true) => (true, { s with secCache := buf, secClba := lba, calls := calls })
    | (calls, buf, false) => (false, { s with secCache := buf, calls := calls })

/-- Read a sector into `fatCache`. -/
def readFatSec (d : Driver) (lba : Nat) (s : Fat32State) : Bool × Fat32State :=
  if s.fatClba = lba then (true, s)
  else
    match Blk.readSector d lba s.calls s.fatCache with
    | (calls, buf, true) => (true, { s with fatCache := buf, fatClba := lba, calls := calls })
    | (calls, buf, false) => (false, { s with fatCache := buf, calls := calls })

/-- The cluster after `c`. -/
def fatNext (d : Driver) (c : Nat) (s : Fat32State) : Except Fault (Nat × Fat32State) := do
  let secLba ← check (add32 s.fatLba (c * 4 / 512))
  match readFatSec d secLba s with
  | (false, s) => .ok (maxU32, s)
  | (true, s) => do
    let entry ← indexLe s.fatCache (c * 4 % 512) 4
    .ok (entry % 2 ^ 28, s)

def clusToLba (s : Fat32State) (c : Nat) : Except Fault Nat := do
  let idx ← check (sub32 c 2)
  let sectors ← check (mul32 idx s.spc)
  check (add32 s.dataLba sectors)

/-! ### Directories -/

/-- `lfn_buf` and `lfn_have`. -/
structure LfnBuf where
  buf : Fin 256 → Byte
  found : Bool

def LfnBuf.none : LfnBuf := ⟨fun _ => 0, false⟩

/-- Where the low bytes of the characters are in a long-name entry. -/
def lfnOffsets : List Nat := [(1, 5), (14, 6), (28, 2)].flatMap fun (off, count) => (List.range count).map fun j => off + j * 2

/-- The loop `'chars`; `ci` characters have been stored. -/
def storeChars (e : Fin 32 → Byte) (base : Nat) : List Nat → Nat → (Fin 256 → Byte) → Except Fault (Fin 256 → Byte)
  | [], _, buf => .ok buf
  | off :: offs, ci, buf => do
    let lo ← index e off
    let hi ← index e (off + 1)
    if (lo = 0 ∧ hi = 0) ∨ (lo = 0xFF ∧ hi = 0xFF) then .ok buf
    else if base + ci < 255 then do
      let buf ← store buf (base + ci) (if 0x20 ≤ lo.toNat ∧ lo.toNat < 0x80 then lo else 0x5F)
      storeChars e base offs (ci + 1) buf
    else storeChars e base offs (ci + 1) buf

def storeLfn (l : LfnBuf) (e : Fin 32 → Byte) : Except Fault LfnBuf := do
  let first ← index e 0
  let seq := first.toNat % 32
  if 1 ≤ seq ∧ seq ≤ 20 then do
    let buf ← storeChars e ((seq - 1) * 13) lfnOffsets 0 l.buf
    .ok { l with buf := buf }
  else .ok l

/-- The place of the first NUL in `lfn_buf`, looked for from `len` on. -/
def lfnLen (buf : Fin 256 → Byte) : Nat → Nat → Except Fault Nat
  | 0, len => .ok len
  | left + 1, len => do
    let b ← index buf len
    if b = 0 then .ok len else lfnLen buf left (len + 1)

/-- The length of a part of the short name without the spaces at its end. -/
def partEnd (e : Fin 32 → Byte) (off : Nat) : Nat → Except Fault Nat
  | 0 => .ok 0
  | n + 1 => do
    let b ← index e (off + n)
    if b = 0x20 then partEnd e off n else .ok (n + 1)

/-- Copy bytes of the entry into `sfn` from `p` on. -/
def copyLower (e : Fin 32 → Byte) (off : Nat) : List Nat → Nat → (Fin 13 → Byte) → Except Fault (Nat × (Fin 13 → Byte))
  | [], p, sfn => .ok (p, sfn)
  | i :: is, p, sfn => do
    let b ← index e (off + i)
    let sfn ← store sfn p (toLower b)
    copyLower e off is (p + 1) sfn

def shortName (e : Fin 32 → Byte) : Except Fault Bytes := do
  let nend ← partEnd e 0 8
  let (p, sfn) ← copyLower e 0 (List.range nend) 0 fun _ => 0
  let xend ← partEnd e 8 3
  if 0 < xend then do
    let sfn ← store sfn p 0x2E
    let (p, sfn) ← copyLower e 8 (List.range xend) (p + 1) sfn
    prefixOf sfn p
  else prefixOf sfn p

/-- One round of the loop over the entries; `none` at the end of the directory. -/
def readEntry (l : LfnBuf) (e : Fin 32 → Byte) : Except Fault (Option (LfnBuf × Option DirRecord)) := do
  let first ← index e 0
  if first = 0x00 then .ok none
  else if first = 0xE5 then .ok (some ({ l with found := false }, none))
  else do
    let attr ← index e 11
    if attr = 0x0F then
      if first &&& 0x40 ≠ 0 then do
        let l ← storeLfn ⟨fun _ => 0, true⟩ e
        .ok (some (l, none))
      else if l.found then do
        let l ← storeLfn l e
        .ok (some (l, none))
      else .ok (some (l, none))
    else if attr &&& 0x08 ≠ 0 ∧ attr &&& 0x10 = 0 then .ok (some ({ l with found := false }, none))
    else if first = 0x2E then .ok (some ({ l with found := false }, none))
    else do
      let size ← indexLe e 28 4
      let high ← indexLe e 20 2
      let low ← indexLe e 26 2
      let len ← if l.found then lfnLen l.buf 255 0 else .ok 0
      let name ← if 0 < len then prefixOf l.buf len else shortName e
      .ok (some ({ l with found := false },
        if name = [] then none else some ⟨name, decide (attr &&& 0x10 ≠ 0), size, high * 2 ^ 16 + low⟩))

/-- `&sec[ent * 32..(ent + 1) * 32]` -/
def entryOf (sec : Sector) (ent : Nat) : Except Fault (Fin 32 → Byte) :=
  if h : (ent + 1) * 32 ≤ sectorSize then .ok fun j => sec ⟨ent * 32 + j, by omega⟩ else .error .trap

/-- The entries of a sector. -/
def scanEntries (sec : Sector) : List Nat → LfnBuf → Except Fault (List DirRecord × Option LfnBuf)
  | [], l => .ok ([], some l)
  | i :: is, l => do
    let e ← entryOf sec i
    match ← readEntry l e with
    | none => .ok ([], none)
    | some (l, r) => do
      let (rs, l) ← scanEntries sec is l
      .ok (r.toList ++ rs, l)

/-- The sectors of the cluster at `base`. -/
def scanSectors (d : Driver) (base : Nat) :
    List Nat → LfnBuf → Fat32State → Except Fault ((List DirRecord × Option LfnBuf) × Fat32State)
  | [], l, s => .ok (([], some l), s)
  | i :: is, l, s => do
    let lba ← check (add32 base i)
    match readSec d lba s with
    | (false, s) => .ok (([], none), s)
    | (true, s) =>
      match ← scanEntries s.secCache (List.range 16) l with
      | (rs, none) => .ok ((rs, none), s)
      | (rs, some l) => do
        let ((rs', l), s) ← scanSectors d base is l s
        .ok ((rs ++ rs', l), s)

/-- The loop `'chain`. -/
def scanChain (d : Driver) : Nat → Nat → LfnBuf → Fat32State → Except Fault (List DirRecord × Fat32State)
  | 0, _, _, _ => .error .hang
  | fuel + 1, clus, l, s =>
    if clus < 2 ∨ eoc ≤ clus then .ok ([], s)
    else do
      let base ← s.clusToLba clus
      match ← scanSectors d base (List.range s.spc) l s with
      | ((rs, none), s) => .ok (rs, s)
      | ((rs, some l), s) => do
        let (next, s) ← fatNext d clus s
        let (rs', s) ← scanChain d fuel next l s
        .ok (rs ++ rs', s)

def scanDir (d : Driver) (fuel startClus : Nat) (s : Fat32State) : Except Fault (List DirRecord × Fat32State) :=
  scanChain d fuel startClus .none s

/-! ### Paths -/

/-- The loop of `lookup`; every round takes a byte of the path at least. -/
def lookupFrom (d : Driver) (fuel : Nat) :
    Nat → Nat → Bytes → Fat32State → Except Fault (Option FileInfo × Fat32State)
  | 0, _, _, s => .ok (none, s)
  | steps + 1, clus, remaining, s =>
    if (splitFirst remaining).1 = [] then .ok (none, s)
    else do
      let (records, s) ← scanDir d fuel clus s
      match records.find? fun r => eqCi r.name (splitFirst remaining).1 with
      | none => .ok (none, s)
      | some r =>
        if (splitFirst remaining).2 = [] then .ok (some r.info, s)
        else if r.isDir then lookupFrom d fuel steps r.firstCluster (splitFirst remaining).2 s
        else .ok (none, s)

def lookup (d : Driver) (fuel : Nat) (path : Bytes) (s : Fat32State) : Except Fault (Option FileInfo × Fat32State) := do
  match ← available d s with
  | (false, s) => .ok (none, s)
  | (true, s) =>
    if trimPath path = [] then .ok (some ⟨s.rootClus, 0, true⟩, s)
    else lookupFrom d fuel ((trimPath path).length + 1) s.rootClus (trimPath path) s

/-- Whether there is a directory at the path, and its records. -/
def readdir (d : Driver) (fuel : Nat) (path : Bytes) (s : Fat32State) :
    Except Fault ((Bool × List DirRecord) × Fat32State) := do
  match ← available d s with
  | (false, s) => .ok ((false, []), s)
  | (true, s) =>
    if trimPath path = [] then do
      let (records, s) ← scanDir d fuel s.rootClus s
      .ok ((true, records), s)
    else
      match ← lookup d fuel path s with
      | (some fi, s) =>
        if fi.isDir then do
          let (records, s) ← scanDir d fuel fi.firstCluster s
          .ok ((true, records), s)
        else .ok ((false, []), s)
      | (none, s) => .ok ((false, []), s)

/-- The cluster `n` links further on. -/
def follow (d : Driver) : Nat → Nat → Fat32State → Except Fault (Option Nat × Fat32State)
  | 0, clus, s => .ok (some clus, s)
  | n + 1, clus, s => do
    let (next, s) ← fatNext d clus s
    if eoc ≤ next ∨ next < 2 then .ok (none, s) else follow d n next s

/-- `&sec[first..first + n]` -/
def bytesOf (sec : Sector) (first n : Nat) : Except Fault Bytes :=
  if h : first + n ≤ sectorSize then .ok (List.ofFn fun i : Fin n => sec ⟨first + i, by omega⟩) else .error .trap

/-- The size of the file, and the bytes that are copied to `out`. -/
def readFile (d : Driver) (fuel : Nat) (path : Bytes) (offset : Nat) (s : Fat32State) :
    Except Fault (Option (Nat × Bytes) × Fat32State) := do
  match ← available d s with
  | (false, s) => .ok (none, s)
  | (true, s) =>
    match ← lookup d fuel path s with
    | (none, s) => .ok (none, s)
    | (some fi, s) =>
      if fi.isDir then .ok (none, s)
      else if fi.size ≤ offset then .ok (some (fi.size, []), s)
      else do
        let perClus ← check (mul32 s.spc 512)
        -- a division by zero
        if perClus = 0 then .error .trap
        else
          match ← follow d (offset / perClus) fi.firstCluster s with
          | (none, s) => .ok (some (fi.size, []), s)
          | (some clus, s) => do
            let base ← s.clusToLba clus
            let lba ← check (add32 base (offset % perClus / 512))
            match readSec d lba s with
            | (false, s) => .ok (none, s)
            | (true, s) => do
              let first := offset % perClus % 512
              let toCopy := min (min chunkSize (fi.size - offset)) (512 - first)
              let bytes ← bytesOf s.secCache first toCopy
              .ok (some (fi.size, bytes), s)

end Fat32State

end Rost.Vfs
