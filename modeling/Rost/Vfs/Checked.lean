import Rost.Vfs.Fat32State

/-!
# No index is out of bounds

The checked functions on a sector, an entry and the buffers of a name always come to an end, with what the functions of
the reader without state compute (`readEntry_of`, `scanEntries_of`).  So the only faults are those of the sums and
products of `available`, of `clusToLba` and of the numbers of the sectors (`available_eq`, `clusToLba_eq`, `fatNext_eq`).
-/

namespace Rost.Vfs.Fat32State

open Blk (Driver)
open Fat32 (DirRecord Lfn Volume add32 mul32 le le_lt)

@[simp]
theorem ok_bind {ε α β : Type} (a : α) (f : α → Except ε β) : (Except.ok a >>= f) = f a := rfl

@[simp]
theorem error_bind {ε α β : Type} (e : ε) (f : α → Except ε β) : ((Except.error e : Except ε α) >>= f) = .error e := rfl

theorem bind_eq_ok {ε α β : Type} {x : Except ε α} {f : α → Except ε β} {b : β} :
    x >>= f = .ok b ↔ ∃ a, x = .ok a ∧ f a = .ok b := by
  cases x <;> simp

@[simp]
theorem check_some {α : Type} (a : α) : check (some a) = .ok a := rfl

@[simp]
theorem check_none {α : Type} : check (none : Option α) = .error .trap := rfl

theorem check_bind {α β : Type} (x : Option α) (f : α → Option β) : check (x.bind f) = check x >>= fun a => check (f a) := by
  cases x <;> rfl

/-! ### Buffers -/

section Buffers

variable {n i m : Nat} {a : Fin n → Byte} {a' : Nat → Byte}

/-- The bytes of the buffer, and zeros behind it. -/
def ext (a : Fin n → Byte) (i : Nat) : Byte := if h : i < n then a ⟨i, h⟩ else 0

theorem ext_eq (a : Fin n → Byte) (i : Fin n) : ext a i = a i := dif_pos i.isLt

theorem index_of (h : ∀ i : Fin n, a' i = a i) (hi : i < n) : index a i = .ok (a' i) := by
  unfold index
  rw [dif_pos hi, ← h ⟨i, hi⟩]

theorem indexLe_of (h : ∀ i : Fin n, a' i = a i) (hi : i + m ≤ n) : indexLe a i m = .ok (le a' i m) := by
  induction m generalizing i with
  | zero => rfl
  | succ m ih =>
    unfold indexLe le
    rw [index_of h (by omega), ih (by omega)]
    rfl

theorem store_of (a : Fin n → Byte) (b : Byte) (hi : i < n) :
    ∃ c, store a i b = .ok c ∧ ∀ j, ext c j = if j = i then b else ext a j := by
  refine ⟨_, if_pos hi, fun j => ?_⟩
  unfold ext
  by_cases hj : j < n
  · simp only [dif_pos hj]
  · rw [dif_neg hj, dif_neg hj, if_neg (by omega)]

theorem prefixOf_of (h : ∀ i : Fin n, a' i = a i) (hm : m ≤ n) : prefixOf a m = .ok ((List.range m).map a') := by
  unfold prefixOf
  rw [dif_pos hm]
  congr 1
  refine List.ext_getElem (by simp) fun k hk _ => ?_
  have hlt : k < m := by simpa using hk
  simp [← h ⟨k, by omega⟩]

/-- A byte is put behind a prefix. -/
private theorem prefixOf_store {bytes : Bytes} (b : Byte) (h : prefixOf a m = .ok bytes) (hm : m < n) :
    ∃ c, store a m b = .ok c ∧ prefixOf c (m + 1) = .ok (bytes ++ [b]) := by
  obtain ⟨c, hstore, hc⟩ := store_of a b hm
  refine ⟨c, hstore, ?_⟩
  rw [prefixOf_of (ext_eq a) hm.le] at h
  cases h
  rw [prefixOf_of (ext_eq c) hm, List.range_succ, List.map_append]
  congr 2
  · refine List.map_congr_left fun j hj => ?_
    rw [hc, if_neg (List.mem_range.1 hj).ne]
  · rw [List.map_singleton, hc, if_pos rfl]

end Buffers

/-! ### Names -/

section Names

variable {e : Fin 32 → Byte} {e' : Nat → Byte}

/-- The part of a short name is what stands before the spaces at its end. -/
private theorem partEnd_of (h : ∀ i : Fin 32, e' i = e i) (off n : Nat) (hn : off + n ≤ 32) : ∃ k ≤ n,
    partEnd e off n = .ok k ∧ Fat32.sfnPart e' off n = (List.range k).map fun i => toLower (e' (off + i)) := by
  induction n with
  | zero => exact ⟨0, le_rfl, rfl, rfl⟩
  | succ n ih =>
    unfold partEnd Fat32.sfnPart
    rw [index_of h (by omega), ok_bind, List.range_succ, List.map_append, List.reverse_append, List.map_singleton,
      List.reverse_singleton, List.singleton_append]
    by_cases hb : e' (off + n) = 0x20
    · obtain ⟨k, hk, hend, hpart⟩ := ih (by omega)
      rw [if_pos hb, List.dropWhile_cons_of_pos (by simpa using hb)]
      exact ⟨k, by omega, hend, hpart⟩
    · rw [if_neg hb, List.dropWhile_cons_of_neg (by simpa using hb)]
      refine ⟨n + 1, le_rfl, rfl, ?_⟩
      simp [List.range_succ]

private theorem copyLower_of (h : ∀ i : Fin 32, e' i = e i) (off : Nat) (is : List Nat) {p : Nat} {sfn : Fin 13 → Byte}
    {bytes : Bytes} (his : ∀ i ∈ is, off + i < 32) (hp : p + is.length ≤ 13) (hsfn : prefixOf sfn p = .ok bytes) :
    ∃ sfn', copyLower e off is p sfn = .ok (p + is.length, sfn') ∧
      prefixOf sfn' (p + is.length) = .ok (bytes ++ is.map fun i => toLower (e' (off + i))) := by
  induction is generalizing p sfn bytes with
  | nil => exact ⟨sfn, rfl, by simpa using hsfn⟩
  | cons i is ih =>
    rw [List.length_cons] at hp ⊢
    obtain ⟨sfn₁, hstore, hsfn₁⟩ := prefixOf_store (toLower (e' (off + i))) hsfn (by omega)
    obtain ⟨sfn', hcopy, hsfn'⟩ := ih (fun j hj => his j (List.mem_cons_of_mem _ hj)) (by omega) hsfn₁
    have hlen : p + 1 + is.length = p + (is.length + 1) := by omega
    rw [hlen] at hcopy hsfn'
    refine ⟨sfn', ?_, ?_⟩
    · unfold copyLower
      rw [index_of h (his i List.mem_cons_self), ok_bind, hstore, ok_bind, hcopy]
    · rw [hsfn', List.append_assoc, List.singleton_append, List.map_cons]

theorem shortName_of (h : ∀ i : Fin 32, e' i = e i) : shortName e = .ok (Fat32.sfnName e') := by
  obtain ⟨nend, hname, hnend, hnamePart⟩ := partEnd_of h 0 8 (by omega)
  obtain ⟨xend, hextn, hxend, hextnPart⟩ := partEnd_of h 8 3 (by omega)
  have hempty : prefixOf (fun _ => 0 : Fin 13 → Byte) 0 = .ok [] := rfl
  obtain ⟨sfn, hcopy, hsfn⟩ := copyLower_of h 0 (List.range nend) (by simp; omega) (by simp; omega) hempty
  rw [List.length_range, Nat.zero_add] at hcopy hsfn
  rw [List.nil_append, ← hnamePart] at hsfn
  unfold shortName Fat32.sfnName
  simp only [hnend, hxend, hcopy, ok_bind]
  by_cases hx : 0 < xend
  · obtain ⟨sfn₁, hstore, hsfn₁⟩ := prefixOf_store 0x2E hsfn (by omega)
    obtain ⟨sfn₂, hcopy₂, hsfn₂⟩ := copyLower_of h 8 (List.range xend) (by simp; omega) (by simp; omega) hsfn₁
    rw [List.length_range] at hcopy₂ hsfn₂
    have hne : Fat32.sfnPart e' 8 3 ≠ [] := by
      rw [hextnPart]
      simpa using hx.ne'
    rw [if_pos hx, hstore, ok_bind, hcopy₂, ok_bind, hsfn₂, if_neg hne, hextnPart]
  · have hnil : Fat32.sfnPart e' 8 3 = [] := by
      rw [hextnPart]
      simpa using hx
    rw [if_neg hx, hsfn, if_pos hnil]

/-- The long name as the reader without state has it. -/
def LfnBuf.toLfn (l : LfnBuf) : Lfn := ⟨ext l.buf, l.found⟩

/-- The byte that is stored for a character. -/
def decode (c : Byte × Byte) : Byte := if 0x20 ≤ c.1.toNat ∧ c.1.toNat < 0x80 then c.1 else 0x5F

/-- Neither of the two characters that end a name. -/
def goesOn (c : Byte × Byte) : Bool := !(c.1 = 0 && c.2 = 0) && !(c.1 = 0xFF && c.2 = 0xFF)

private theorem storeChars_of (h : ∀ i : Fin 32, e' i = e i) (offs : List Nat) (hoffs : ∀ off ∈ offs, off + 1 < 32)
    (base ci : Nat) (buf : Fin 256 → Byte) : ∃ buf', storeChars e base offs ci buf = .ok buf' ∧ ∀ d, ext buf' d =
      if base + ci ≤ d ∧ d < 255 then
        match ((offs.map fun off => (e' off, e' (off + 1))).takeWhile goesOn)[d - (base + ci)]? with
        | some c => decode c
        | none => ext buf d
      else ext buf d := by
  induction offs generalizing ci buf with
  | nil =>
    refine ⟨buf, rfl, fun d => ?_⟩
    simp
  | cons off offs ih =>
    have hoff := hoffs off List.mem_cons_self
    have ih := fun ci buf => ih (fun o ho => hoffs o (List.mem_cons_of_mem _ ho)) ci buf
    unfold storeChars
    rw [index_of h (by omega), index_of h hoff, ok_bind, ok_bind, List.map_cons]
    by_cases hstop : (e' off = 0 ∧ e' (off + 1) = 0) ∨ (e' off = 0xFF ∧ e' (off + 1) = 0xFF)
    · rw [if_pos hstop, List.takeWhile_cons_of_neg (by simp [goesOn]; tauto)]
      refine ⟨buf, rfl, fun d => ?_⟩
      simp
    · rw [if_neg hstop, List.takeWhile_cons_of_pos (by simp [goesOn]; tauto)]
      by_cases hfits : base + ci < 255
      · rw [if_pos hfits]
        obtain ⟨c, hstore, hc⟩ := store_of buf (decode (e' off, e' (off + 1))) (i := base + ci) (by omega)
        obtain ⟨buf', hrest, hbuf'⟩ := ih (ci + 1) c
        have hround : (store buf (base + ci) (decode (e' off, e' (off + 1))) >>= storeChars e base offs (ci + 1)) = .ok buf' := by
          rw [hstore, ok_bind, hrest]
        refine ⟨buf', hround, fun d => ?_⟩
        rw [hbuf']
        obtain hlt | rfl | hgt := Nat.lt_trichotomy d (base + ci)
        · rw [if_neg (by omega), if_neg (by omega), hc, if_neg (by omega)]
        · rw [if_neg (by omega), if_pos ⟨le_rfl, hfits⟩, hc, if_pos rfl, Nat.sub_self, List.getElem?_cons_zero]
        · have hpos : d - (base + ci) = d - (base + (ci + 1)) + 1 := by omega
          have hcd : ext c d = ext buf d := by rw [hc, if_neg (by omega)]
          rw [hpos, List.getElem?_cons_succ, hcd]
          by_cases hd : d < 255
          · rw [if_pos (by omega), if_pos (by omega)]
          · rw [if_neg (by omega), if_neg (by omega)]
      · rw [if_neg hfits]
        obtain ⟨buf', hrest, hbuf'⟩ := ih (ci + 1) buf
        refine ⟨buf', hrest, fun d => ?_⟩
        rw [hbuf', if_neg (by omega), if_neg (by omega)]

private theorem storeLfn_of (h : ∀ i : Fin 32, e' i = e i) (l : LfnBuf) :
    ∃ l', storeLfn l e = .ok l' ∧ l'.toLfn = l.toLfn.store e' := by
  unfold storeLfn Lfn.store
  rw [index_of h (by omega), ok_bind]
  by_cases hseq : 1 ≤ (e' 0).toNat % 32 ∧ (e' 0).toNat % 32 ≤ 20
  · obtain ⟨buf', hstore, hbuf'⟩ := storeChars_of h lfnOffsets (by decide) (((e' 0).toNat % 32 - 1) * 13) 0 l.buf
    refine ⟨⟨buf', l.found⟩, ?_, ?_⟩
    · simp only [if_pos hseq, hstore, ok_bind]
    · simp only [if_pos hseq]
      unfold LfnBuf.toLfn
      congr 1
      funext d
      rw [hbuf']
      rfl
  · refine ⟨l, ?_, ?_⟩
    · simp only [if_neg hseq]
    · simp only [if_neg hseq]

private theorem lfnLen_of (buf : Fin 256 → Byte) (left len : Nat) (hlen : len + left ≤ 256) : lfnLen buf left len =
    .ok (len + (((List.range' len left).map (ext buf)).takeWhile fun b => b != 0).length) := by
  induction left generalizing len with
  | zero => rfl
  | succ left ih =>
    unfold lfnLen
    rw [index_of (ext_eq buf) (by omega), ok_bind, List.range'_succ, List.map_cons]
    by_cases hb : ext buf len = 0
    · rw [if_pos hb, List.takeWhile_cons_of_neg (by simpa using hb)]
      rfl
    · rw [if_neg hb, ih _ (by omega), List.takeWhile_cons_of_pos (by simpa using hb), List.length_cons]
      congr 1
      omega

/-- The long name stands before the first NUL. -/
private theorem lfnName_of (l : LfnBuf) :
    lfnLen l.buf 255 0 = .ok l.toLfn.name.length ∧ prefixOf l.buf l.toLfn.name.length = .ok l.toLfn.name := by
  have hprefix := List.takeWhile_prefix (fun b => b != (0 : Byte)) (l := (List.range 255).map (ext l.buf))
  have hle := hprefix.length_le
  have htake := List.prefix_iff_eq_take.1 hprefix
  rw [List.length_map, List.length_range] at hle
  rw [← List.map_take, List.take_range, Nat.min_eq_left hle] at htake
  have hlen := lfnLen_of l.buf 255 0 (by omega)
  rw [Nat.zero_add, ← List.range_eq_range'] at hlen
  refine ⟨hlen, ?_⟩
  have hname : l.toLfn.name = ((List.range 255).map (ext l.buf)).takeWhile fun b => b != 0 := rfl
  rw [hname, prefixOf_of (ext_eq l.buf) (by omega), ← htake]

/-- One round of the loop over the entries. -/
theorem readEntry_of (e : Fin 32 → Byte) (e' : Nat → Byte) (h : ∀ i : Fin 32, e' i = e i) (l : LfnBuf) : ∃ out, readEntry l e = .ok out ∧
    out.map (fun p => (p.1.toLfn, p.2)) = Fat32.readEntry l.toLfn e' := by
  unfold readEntry Fat32.readEntry
  rw [index_of h (by omega), ok_bind]
  by_cases hend : e' 0 = 0x00
  · rw [if_pos hend, if_pos hend]
    exact ⟨_, rfl, rfl⟩
  rw [if_neg hend, if_neg hend]
  by_cases hdeleted : e' 0 = 0xE5
  · rw [if_pos hdeleted, if_pos hdeleted]
    exact ⟨_, rfl, rfl⟩
  rw [if_neg hdeleted, if_neg hdeleted, index_of h (by omega), ok_bind]
  by_cases hlfn : e' 11 = 0x0F
  · rw [if_pos hlfn, if_pos hlfn]
    by_cases hlast : e' 0 &&& 0x40 ≠ 0
    · obtain ⟨l', hstore, hl'⟩ := storeLfn_of h ⟨fun _ => 0, true⟩
      have hzero : (⟨fun _ => 0, true⟩ : LfnBuf).toLfn = ⟨fun _ => 0, true⟩ := by
        unfold LfnBuf.toLfn ext
        simp
      rw [if_pos hlast, if_pos hlast, hstore, ← hzero, ← hl']
      exact ⟨_, rfl, rfl⟩
    rw [if_neg hlast, if_neg hlast]
    by_cases hfound : l.found = true
    · obtain ⟨l', hstore, hl'⟩ := storeLfn_of h l
      rw [if_pos hfound, if_pos (show l.toLfn.found = true from hfound), hstore, ← hl']
      exact ⟨_, rfl, rfl⟩
    · rw [if_neg hfound, if_neg (show ¬ l.toLfn.found = true from hfound)]
      exact ⟨_, rfl, rfl⟩
  rw [if_neg hlfn, if_neg hlfn]
  by_cases hlabel : e' 11 &&& 0x08 ≠ 0 ∧ e' 11 &&& 0x10 = 0
  · rw [if_pos hlabel, if_pos hlabel]
    exact ⟨_, rfl, rfl⟩
  rw [if_neg hlabel, if_neg hlabel]
  by_cases hdot : e' 0 = 0x2E
  · rw [if_pos hdot, if_pos hdot]
    exact ⟨_, rfl, rfl⟩
  rw [if_neg hdot, if_neg hdot, indexLe_of h (by omega), indexLe_of h (by omega), indexLe_of h (by omega)]
  obtain ⟨hlen, hprefix⟩ := lfnName_of l
  have hfound' : l.toLfn.found = l.found := rfl
  simp only [ok_bind, hfound']
  by_cases hfound : l.found = true
  · rw [if_pos hfound, hlen, ok_bind]
    by_cases hne : l.toLfn.name ≠ []
    · have hchoice : (if l.found = true ∧ l.toLfn.name ≠ [] then l.toLfn.name else Fat32.sfnName e') = l.toLfn.name :=
        if_pos ⟨hfound, hne⟩
      rw [if_pos (List.length_pos_of_ne_nil hne), hprefix, ok_bind, hchoice]
      exact ⟨_, rfl, rfl⟩
    · have hchoice : (if l.found = true ∧ l.toLfn.name ≠ [] then l.toLfn.name else Fat32.sfnName e') = Fat32.sfnName e' :=
        if_neg fun hboth => hne hboth.2
      rw [if_neg (by simpa using hne), shortName_of h, ok_bind, hchoice]
      exact ⟨_, rfl, rfl⟩
  · have hchoice : (if l.found = true ∧ l.toLfn.name ≠ [] then l.toLfn.name else Fat32.sfnName e') = Fat32.sfnName e' :=
      if_neg fun hboth => hfound hboth.1
    rw [if_neg hfound, if_neg (lt_irrefl 0), shortName_of h, ok_bind, hchoice]
    exact ⟨_, rfl, rfl⟩

end Names

/-! ### Sectors -/

section Sectors

variable {sec : Sector} {sec' : Nat → Byte}

theorem scanEntries_of (h : ∀ i : Fin sectorSize, sec' i = sec i) (is : List Nat) (his : ∀ i ∈ is, i < 16) (l : LfnBuf) :
    ∃ rs l', scanEntries sec is l = .ok (rs, l') ∧ Fat32.scanEntries sec' is l.toLfn = (rs, l'.map LfnBuf.toLfn) := by
  induction is generalizing l with
  | nil => exact ⟨[], some l, rfl, rfl⟩
  | cons i is ih =>
    have hi := his i List.mem_cons_self
    have hbound : (i + 1) * 32 ≤ sectorSize := by
      unfold sectorSize
      omega
    have hentry : entryOf sec i = .ok fun j : Fin 32 => sec ⟨i * 32 + j, by omega⟩ := dif_pos hbound
    obtain ⟨out, hread, hout⟩ := readEntry_of (fun j : Fin 32 => sec ⟨i * 32 + j, by omega⟩)
      (fun j => sec' (i * 32 + j)) (fun j => h ⟨i * 32 + j, by omega⟩) l
    unfold scanEntries Fat32.scanEntries
    rw [hentry, ok_bind, hread, ok_bind, ← hout]
    cases out with
    | none => exact ⟨[], none, rfl, rfl⟩
    | some p =>
      obtain ⟨rs, l', hrest, hrest'⟩ := ih (fun j hj => his j (List.mem_cons_of_mem _ hj)) p.1
      simp only [Option.map_some, hrest, hrest', ok_bind]
      exact ⟨_, _, rfl, rfl⟩

theorem bytesOf_of (h : ∀ i : Fin sectorSize, sec' i = sec i) (first n : Nat) (hn : first + n ≤ sectorSize) :
    bytesOf sec first n = .ok ((List.range n).map fun i => sec' (first + i)) := by
  unfold bytesOf
  rw [dif_pos hn]
  congr 1
  refine List.ext_getElem (by simp) fun k hk _ => ?_
  have hlt : k < n := by simpa using hk
  simp [← h ⟨first + k, by omega⟩]

/-- The volume that the first sector describes, if it describes one. -/
def parse (vbr : Nat → Byte) : Option (Option Volume) :=
  if vbr 0 ≠ 0xEB ∧ vbr 0 ≠ 0xE9 then some none
  else if le vbr 11 2 ≠ 512 then some none
  else if vbr 13 = 0 then some none
  else if vbr 16 = 0 then some none
  else if le vbr 36 4 = 0 then some none
  else if vbr 66 ≠ 0x28 ∧ vbr 66 ≠ 0x29 then some none
  else do
    let fats ← mul32 (vbr 16).toNat (le vbr 36 4)
    let dataLba ← add32 (le vbr 14 2) fats
    some (some ⟨(vbr 13).toNat, le vbr 14 2, dataLba, le vbr 44 4⟩)

/-- The numbers that describe a volume. -/
structure Parsed (v : Volume) : Prop where
  spc_pos : 0 < v.spc
  spc_lt : v.spc < 2 ^ 8
  fatLba_lt : v.fatLba < 2 ^ 16
  dataLba_lt : v.dataLba < 2 ^ 32
  rootClus_lt : v.rootClus < 2 ^ 32

theorem parsed_of_parse {vbr : Nat → Byte} {v : Volume} (h : parse vbr = some (some v)) : Parsed v := by
  unfold parse at h
  split at h
  · cases h
  split at h
  · cases h
  split at h
  · cases h
  rename_i hspc
  split at h
  · cases h
  split at h
  · cases h
  split at h
  · cases h
  obtain ⟨fats, -, hrest⟩ := Option.bind_eq_some_iff.1 h
  obtain ⟨dataLba, hadd, hv⟩ := Option.bind_eq_some_iff.1 hrest
  unfold add32 at hadd
  split at hadd
  · cases hadd
    cases hv
    refine ⟨?_, (vbr 13).isLt, le_lt vbr 14 2, by assumption, le_lt vbr 44 4⟩
    refine Nat.pos_of_ne_zero fun hzero => hspc ?_
    exact BitVec.eq_of_toNat_eq hzero
  · cases hadd

theorem available_disk_eq (disk : Disk) : Fat32.available disk =
    if disk.present then
      match disk.readSector 0 with
      | none => some none
      | some vbr => parse vbr
    else some none :=
  rfl

/-- The state with a volume. -/
def mount (s : Fat32State) (v : Volume) : Fat32State :=
  { s with valid := true, spc := v.spc, fatLba := v.fatLba, dataLba := v.dataLba, rootClus := v.rootClus }

theorem available_of_valid {d : Driver} {s : Fat32State} (h : s.valid = true) : available d s = .ok (true, s) := if_pos h

theorem available_of_absent {d : Driver} {s : Fat32State} (hs : s.valid = false) (hd : d.present = false) :
    available d s = .ok (false, s) := by
  unfold available
  rw [if_neg (by simp [hs]), if_pos (by simp [hd])]

/-- The first call that finds the driver. -/
theorem available_of_present {d : Driver} {s : Fat32State} {calls : Nat} {ok : Bool} (hs : s.valid = false)
    (hd : d.present = true) (hread : Blk.readSector d 0 s.calls (fun _ => 0) = (calls, sec, ok))
    (h : ∀ i : Fin sectorSize, sec' i = sec i) :
    available d s =
      if ok then
        check (parse sec') >>= fun found =>
          match found with
          | none => .ok (false, { s with calls := calls })
          | some v => .ok (true, { s with calls := calls }.mount v)
      else .ok (false, { s with calls := calls }) := by
  unfold available
  rw [if_neg (by simp [hs]), if_neg (by simp [hd]), hread]
  cases ok with
  | false => rfl
  | true =>
    unfold parse
    simp only [index_of h (show 0 < sectorSize by decide), index_of h (show 13 < sectorSize by decide),
      index_of h (show 16 < sectorSize by decide), index_of h (show 66 < sectorSize by decide),
      indexLe_of h (show 11 + 2 ≤ sectorSize by decide), indexLe_of h (show 14 + 2 ≤ sectorSize by decide),
      indexLe_of h (show 36 + 4 ≤ sectorSize by decide), indexLe_of h (show 44 + 4 ≤ sectorSize by decide), ok_bind]
    rw [if_pos trivial]
    by_cases hjump : sec' 0 ≠ 0xEB ∧ sec' 0 ≠ 0xE9
    · rw [if_pos hjump, if_pos hjump]
      rfl
    rw [if_neg hjump, if_neg hjump]
    by_cases hbps : le sec' 11 2 ≠ 512
    · rw [if_pos hbps, if_pos hbps]
      rfl
    rw [if_neg hbps, if_neg hbps]
    by_cases hspc : sec' 13 = 0
    · rw [if_pos hspc, if_pos hspc]
      rfl
    rw [if_neg hspc, if_neg hspc]
    by_cases hfats : sec' 16 = 0
    · rw [if_pos hfats, if_pos hfats]
      rfl
    rw [if_neg hfats, if_neg hfats]
    by_cases hsize : le sec' 36 4 = 0
    · rw [if_pos hsize, if_pos hsize]
      rfl
    rw [if_neg hsize, if_neg hsize]
    by_cases hsig : sec' 66 ≠ 0x28 ∧ sec' 66 ≠ 0x29
    · rw [if_pos hsig, if_pos hsig]
      rfl
    rw [if_neg hsig, if_neg hsig]
    cases hmul : mul32 (sec' 16).toNat (le sec' 36 4) with
    | none => rfl
    | some fats =>
      simp only [check_some, ok_bind, Option.bind_eq_bind, Option.bind_some]
      cases add32 (le sec' 14 2) fats <;> rfl

/-- What `available` changes. -/
theorem available_cases {d : Driver} {s s' : Fat32State} {b : Bool} (h : available d s = .ok (b, s')) :
    (∃ calls, s' = { s with calls := calls }) ∨
      ∃ calls v, Parsed v ∧ b = true ∧ s' = { s with calls := calls }.mount v := by
  by_cases hs : s.valid = true
  · rw [available_of_valid hs] at h
    cases h
    exact .inl ⟨s.calls, rfl⟩
  · rw [Bool.not_eq_true] at hs
    by_cases hd : d.present = true
    · rcases hread : Blk.readSector d 0 s.calls (fun _ => 0) with ⟨calls, vbr, ok⟩
      rw [available_of_present hs hd hread (ext_eq vbr)] at h
      cases ok with
      | false =>
        cases h
        exact .inl ⟨calls, rfl⟩
      | true =>
        rw [if_pos rfl] at h
        cases hparse : parse (ext vbr) with
        | none =>
          rw [hparse] at h
          cases h
        | some found =>
          rw [hparse] at h
          cases found with
          | none =>
            cases h
            exact .inl ⟨calls, rfl⟩
          | some v =>
            cases h
            exact .inr ⟨calls, v, parsed_of_parse hparse, rfl, rfl⟩
    · rw [available_of_absent hs (by simpa using hd)] at h
      cases h
      exact .inl ⟨s.calls, rfl⟩

/-! ### Clusters -/

theorem clusToLba_eq (s : Fat32State) (c : Nat) : s.clusToLba c = check (Fat32.clusToLba s.volume c) := by
  unfold clusToLba Fat32.clusToLba
  simp only [Option.bind_eq_bind, check_bind]
  cases check (Fat32.sub32 c 2) with
  | error => rfl
  | ok idx =>
    simp only [ok_bind]
    rfl

/-- The sector of the FAT with the entry of a cluster. -/
def fatSector (s : Fat32State) (c : Nat) : Nat := s.fatLba + c * 4 / 512

/-- For a volume that has been found and a `u32`, the number of the sector of the FAT is a `u32`. -/
theorem add32_fatSector {s : Fat32State} {c : Nat} (hlba : s.fatLba < 2 ^ 16) (hc : c < 2 ^ 32) :
    add32 s.fatLba (c * 4 / 512) = some (s.fatSector c) :=
  if_pos (by omega)

theorem fatNext_eq {d : Driver} {s : Fat32State} {c : Nat} (hlba : s.fatLba < 2 ^ 16) (hc : c < 2 ^ 32)
    (h : ∀ i : Fin sectorSize, sec' i = (readFatSec d (s.fatSector c) s).2.fatCache i) :
    fatNext d c s = .ok
      (if (readFatSec d (s.fatSector c) s).1 then le sec' (c * 4 % 512) 4 % 2 ^ 28 else maxU32,
        (readFatSec d (s.fatSector c) s).2) := by
  unfold fatNext
  rw [add32_fatSector hlba hc, check_some, ok_bind]
  generalize readFatSec d (s.fatSector c) s = out at h
  obtain ⟨ok, s'⟩ := out
  cases ok with
  | false => rfl
  | true =>
    simp only
    rw [indexLe_of h (by unfold sectorSize; omega)]
    rfl

end Sectors

end Rost.Vfs.Fat32State
