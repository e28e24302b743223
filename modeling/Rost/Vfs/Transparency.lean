import Rost.Vfs.Chains

/-!
# The caches cannot be seen

When the driver delivers every sector of the disk either always or never, the functions that pass the state along return
what the functions of the reader without state return (`Simulates`).  Where the latter come to no end, the former stop
the server or go on for ever (`scanDir_simulates`, `lookup_simulates`, `readdir_simulates`, `readFile_simulates`).

There is one exception: the number that stands for an empty cache is the number of a sector, too.  If the root directory
starts there, it seems to be empty (`Skips`).
-/

namespace Rost.Vfs.Fat32State

open Blk (Driver Holds delivered deliveredFrom)
open Fat32 (DirRecord FileInfo Lfn Volume add32 le eoc trimPath GoesOn InRange LinkedTo Overflows Endless scanCluster)
open Relation (ReflTransGen TransGen)

/-- The driver delivers the sectors of the disk: each of them always, or never. -/
structure Serves (d : Driver) (disk : Disk) : Prop where
  present : disk.present = d.present
  sector : ∀ {lba sec}, disk.readSector lba = some sec → ∀ n, ∀ off < sectorSize,
    ∃ c, d.reply n lba off = some c ∧ 0 < c.len ∧ ∀ j < c.take off, c.bytes j = sec (off + j)
  fails : ∀ {lba}, disk.readSector lba = none → ∀ n off, d.reply n lba off = none

variable {disk : Disk} {d : Driver}

/-! ### The driver -/

section Driver

variable {lba : Nat} {sec : Nat → Byte}

private theorem delivered_of_some (h : Serves d disk) (hd : disk.present = true) (hsec : disk.readSector lba = some sec)
    (calls : Nat) : delivered d lba calls = sectorSize := by
  have hloop : ∀ fuel calls total, sectorSize - total ≤ fuel → total ≤ sectorSize →
      deliveredFrom d lba fuel calls total = sectorSize := by
    intro fuel
    induction fuel with
    | zero =>
      intro calls total hfuel htotal
      unfold deliveredFrom
      omega
    | succ fuel ih =>
      intro calls total hfuel htotal
      unfold deliveredFrom
      by_cases hdone : sectorSize ≤ total
      · rw [if_pos hdone]
        omega
      · obtain ⟨c, hreply, hpos, -⟩ := h.sector hsec calls total (by omega)
        have hle := Blk.take_le c total
        have htake : 0 < c.take total := by
          unfold Blk.Chunk.take chunkSize
          omega
        rw [if_neg hdone, hreply]
        simp only
        rw [if_neg htake.ne']
        exact ih _ _ (by omega) (by omega)
  unfold delivered
  rw [if_pos (h.present ▸ hd)]
  exact hloop _ _ _ (by omega) (Nat.zero_le _)

private theorem delivered_of_none (h : Serves d disk) (hsec : disk.readSector lba = none) (calls : Nat) :
    delivered d lba calls = 0 := by
  unfold delivered
  split
  · unfold sectorSize deliveredFrom
    rw [if_neg (by decide), h.fails hsec]
  · rfl

/-- What the driver delivers is what the disk holds. -/
private theorem Serves.holds (h : Serves d disk) : Holds d fun lba => (disk.readSector lba).getD fun _ => 0 := by
  intro n lba off c hreply j hj
  cases hsec : disk.readSector lba with
  | none =>
    rw [h.fails hsec] at hreply
    cases hreply
  | some sec =>
    have hoff : off < sectorSize := by
      unfold Blk.Chunk.take at hj
      omega
    obtain ⟨c', hreply', -, hbytes⟩ := h.sector hsec n off hoff
    cases hreply.symm.trans hreply'
    simp only [hsec]
    exact hbytes j hj

theorem readSector_of_some (h : Serves d disk) (hd : disk.present = true) (hsec : disk.readSector lba = some sec)
    (calls : Nat) (buf : Sector) :
    ∃ calls', Blk.readSector d lba calls buf = (calls', fun i : Fin sectorSize => sec i, true) := by
  obtain ⟨calls', hread⟩ := Blk.readSector_of_holds h.holds lba calls buf
  refine ⟨calls', ?_⟩
  have hfilled : Blk.filled buf sec sectorSize = fun i : Fin sectorSize => sec i := by
    funext i
    exact if_pos i.isLt
  rw [hread, delivered_of_some h hd hsec, hsec, Option.getD_some, hfilled, decide_eq_true rfl]

theorem readSector_of_none (h : Serves d disk) (hsec : disk.readSector lba = none) (calls : Nat) (buf : Sector) :
    ∃ calls', Blk.readSector d lba calls buf = (calls', buf, false) := by
  obtain ⟨calls', hread⟩ := Blk.readSector_of_holds h.holds lba calls buf
  refine ⟨calls', ?_⟩
  have hfilled : Blk.filled buf ((disk.readSector lba).getD fun _ => 0) 0 = buf := by
    funext i
    exact if_neg (Nat.not_lt_zero _)
  rw [hread, delivered_of_none h hsec, hfilled, decide_eq_false (by decide)]

end Driver

/-! ### The state -/

/-- The cache holds the sector whose number it carries. -/
def Fresh (disk : Disk) (s : Fat32State) : Prop :=
  ∃ sec, disk.readSector s.secClba = some sec ∧ ∀ i : Fin sectorSize, sec i = s.secCache i

/-- No sector has been read into the cache so far. -/
def Blank (s : Fat32State) : Prop := s.secClba = maxU32 ∧ ∀ i, s.secCache i = 0

/-- What the state holds comes from the disk. -/
structure Mirrors (disk : Disk) (s : Fat32State) : Prop where
  volume : s.valid = true → Fat32.available disk = some (some s.volume)
  sec : Fresh disk s ∨ Blank s
  fat : s.fatClba = maxU32 ∨ ∃ sec, disk.readSector s.fatClba = some sec ∧ ∀ i : Fin sectorSize, sec i = s.fatCache i

/-- What an operation does to the state once the volume is there. -/
structure Keeps (disk : Disk) (s s' : Fat32State) : Prop where
  mirrors : Mirrors disk s'
  valid : s'.valid = s.valid
  volume : s'.volume = s.volume
  fresh : Fresh disk s → Fresh disk s'

theorem mirrors_uninit : Mirrors disk uninit := ⟨fun h => (by cases h), .inr ⟨rfl, fun _ => rfl⟩, .inl rfl⟩

section State

variable {s s' t : Fat32State} {v : Volume} {lba c : Nat} {sec : Nat → Byte}

theorem Mirrors.keeps (h : Mirrors disk s) : Keeps disk s s := ⟨h, rfl, rfl, id⟩

theorem Keeps.trans (h : Keeps disk s t) (h' : Keeps disk t s') : Keeps disk s s' :=
  ⟨h'.mirrors, h'.valid.trans h.valid, h'.volume.trans h.volume, fun hfresh => h'.fresh (h.fresh hfresh)⟩

theorem parsed_of_available (h : Fat32.available disk = some (some v)) : disk.present = true ∧ Parsed v := by
  rw [available_disk_eq] at h
  split at h
  · rename_i hpresent
    split at h
    · cases h
    · exact ⟨hpresent, parsed_of_parse h⟩
  · cases h

theorem Mirrors.present (h : Mirrors disk s) (hvalid : s.valid = true) : disk.present = true :=
  (parsed_of_available (h.volume hvalid)).1

theorem Mirrors.parsed (h : Mirrors disk s) (hvalid : s.valid = true) : Parsed s.volume :=
  (parsed_of_available (h.volume hvalid)).2

theorem Mirrors.fatLba_lt (h : Mirrors disk s) (hvalid : s.valid = true) : s.fatLba < 2 ^ 16 :=
  (h.parsed hvalid).fatLba_lt

/-- More requests to the driver make no difference. -/
private theorem Mirrors.calls (h : Mirrors disk s) (calls : Nat) : Keeps disk s { s with calls := calls } :=
  ⟨⟨h.volume, h.sec, h.fat⟩, rfl, rfl, id⟩

/-- A sector that has been found in the cache, or fetched. -/
theorem readSec_of_some (hd : Serves d disk) (hs : Mirrors disk s) (hvalid : s.valid = true)
    (hready : Fresh disk s ∨ lba ≠ maxU32) (hsec : disk.readSector lba = some sec) :
    ∃ s', readSec d lba s = (true, s') ∧ Keeps disk s s' ∧ Fresh disk s' ∧ ∀ i : Fin sectorSize, sec i = s'.secCache i := by
  by_cases hhit : s.secClba = lba
  · have hfresh : Fresh disk s := by
      rcases hs.sec with hfresh | hblank
      · exact hfresh
      · exact hready.resolve_right fun hne => hne (hhit.symm.trans hblank.1)
    obtain ⟨sec', hsec', hcache⟩ := id hfresh
    rw [hhit, hsec, Option.some_inj] at hsec'
    subst hsec'
    exact ⟨s, if_pos hhit, hs.keeps, hfresh, hcache⟩
  · obtain ⟨calls, hread⟩ := readSector_of_some hd (hs.present hvalid) hsec s.calls s.secCache
    have hfresh : Fresh disk { s with secCache := fun i => sec i, secClba := lba, calls := calls } :=
      ⟨sec, hsec, fun _ => rfl⟩
    refine ⟨{ s with secCache := fun i => sec i, secClba := lba, calls := calls }, ?_, ?_, hfresh, fun _ => rfl⟩
    · unfold readSec
      rw [if_neg hhit, hread]
    · exact ⟨⟨hs.volume, .inl hfresh, hs.fat⟩, rfl, rfl, fun _ => hfresh⟩

/-- A sector that cannot be read. -/
theorem readSec_of_none (hd : Serves d disk) (hs : Mirrors disk s) (hready : Fresh disk s ∨ lba ≠ maxU32)
    (hsec : disk.readSector lba = none) : ∃ s', readSec d lba s = (false, s') ∧ Keeps disk s s' := by
  have hmiss : s.secClba ≠ lba := by
    intro hhit
    have hnot : ¬ Fresh disk s := by
      rintro ⟨sec, hsec', -⟩
      rw [hhit, hsec] at hsec'
      cases hsec'
    exact hready.resolve_left hnot (hhit.symm.trans (hs.sec.resolve_left hnot).1)
  obtain ⟨calls, hread⟩ := readSector_of_none hd hsec s.calls s.secCache
  refine ⟨_, ?_, hs.calls calls⟩
  unfold readSec
  rw [if_neg hmiss, hread]

/-- The number of a sector of the FAT is not the one of an empty cache. -/
private theorem fatSector_ne (hlba : s.fatLba < 2 ^ 16) (hc : c < 2 ^ 32) : s.fatSector c ≠ maxU32 := by
  unfold fatSector maxU32
  omega

private theorem readFatSec_of_some (hd : Serves d disk) (hs : Mirrors disk s) (hvalid : s.valid = true) (hlba : lba ≠ maxU32)
    (hsec : disk.readSector lba = some sec) :
    ∃ s', readFatSec d lba s = (true, s') ∧ Keeps disk s s' ∧ ∀ i : Fin sectorSize, sec i = s'.fatCache i := by
  by_cases hhit : s.fatClba = lba
  · obtain ⟨sec', hsec', hcache⟩ := hs.fat.resolve_left fun h => hlba (hhit.symm.trans h)
    rw [hhit, hsec, Option.some_inj] at hsec'
    subst hsec'
    exact ⟨s, if_pos hhit, hs.keeps, hcache⟩
  · obtain ⟨calls, hread⟩ := readSector_of_some hd (hs.present hvalid) hsec s.calls s.fatCache
    refine ⟨{ s with fatCache := fun i => sec i, fatClba := lba, calls := calls }, ?_, ?_, fun _ => rfl⟩
    · unfold readFatSec
      rw [if_neg hhit, hread]
    · exact ⟨⟨hs.volume, hs.sec, .inr ⟨sec, hsec, fun _ => rfl⟩⟩, rfl, rfl, id⟩

private theorem readFatSec_of_none (hd : Serves d disk) (hs : Mirrors disk s) (hlba : lba ≠ maxU32)
    (hsec : disk.readSector lba = none) : ∃ s', readFatSec d lba s = (false, s') ∧ Keeps disk s s' := by
  have hmiss : s.fatClba ≠ lba := by
    intro hhit
    obtain ⟨sec, hsec', -⟩ := hs.fat.resolve_left fun h => hlba (hhit.symm.trans h)
    rw [hhit, hsec] at hsec'
    cases hsec'
  obtain ⟨calls, hread⟩ := readSector_of_none hd hsec s.calls s.fatCache
  refine ⟨_, ?_, hs.calls calls⟩
  unfold readFatSec
  rw [if_neg hmiss, hread]

/-- The entry of a cluster. -/
theorem fatNext_of (hd : Serves d disk) (hs : Mirrors disk s) (hvalid : s.valid = true) (hc : c < 2 ^ 32) :
    ∃ n s', fatNext d c s = .ok (n, s') ∧ Fat32.fatNext disk s.volume c = some n ∧ Keeps disk s s' := by
  have hlba := hs.fatLba_lt hvalid
  have hne := fatSector_ne hlba hc
  have hadd : add32 s.volume.fatLba (c * 4 / 512) = some (s.fatSector c) := add32_fatSector hlba hc
  unfold Fat32.fatNext
  rw [hadd]
  cases hsec : disk.readSector (s.fatSector c) with
  | none =>
    obtain ⟨s', hread, hkeeps⟩ := readFatSec_of_none hd hs hne hsec
    refine ⟨maxU32, s', ?_, by simp [hsec, maxU32], hkeeps⟩
    rw [fatNext_eq hlba hc (ext_eq _), hread]
    rfl
  | some sec =>
    obtain ⟨s', hread, hkeeps, hcache⟩ := readFatSec_of_some hd hs hvalid hne hsec
    refine ⟨le sec (c * 4 % 512) 4 % 2 ^ 28, s', ?_, by simp [hsec], hkeeps⟩
    rw [fatNext_eq hlba hc (by rw [hread]; exact hcache), hread]
    rfl

end State

/-! ### Directories -/

section Directory

variable {s s' : Fat32State} {base c : Nat}

private theorem scanSectors_of (hd : Serves d disk) (hs : Mirrors disk s) (hvalid : s.valid = true) {is : List Nat}
    (hready : Fresh disk s ∨ ∀ i ∈ is.head?, base + i ≠ maxU32) (l : LfnBuf) :
    (Fat32.scanSectors disk base is l.toLfn = none ∧ scanSectors d base is l s = .error .trap) ∨
      ∃ rs out s', scanSectors d base is l s = .ok ((rs, out), s') ∧
        Fat32.scanSectors disk base is l.toLfn = some (rs, out.map LfnBuf.toLfn) ∧ Keeps disk s s' ∧
        (is ≠ [] → rs ≠ [] ∨ out ≠ none → Fresh disk s') := by
  induction is generalizing l s with
  | nil => exact .inr ⟨[], some l, s, rfl, rfl, hs.keeps, fun h => absurd rfl h⟩
  | cons i is ih =>
    unfold scanSectors Fat32.scanSectors
    cases hadd : add32 base i with
    | none => exact .inl ⟨rfl, rfl⟩
    | some lba =>
      have hlba : Fresh disk s ∨ lba ≠ maxU32 := by
        unfold add32 at hadd
        split at hadd
        · cases hadd
          exact hready.imp_right fun h => h i rfl
        · cases hadd
      simp only [check_some, ok_bind, Option.bind_eq_bind, Option.bind_some]
      cases hsec : disk.readSector lba with
      | none =>
        obtain ⟨s', hread, hkeeps⟩ := readSec_of_none hd hs hlba hsec
        rw [hread]
        exact .inr ⟨[], none, s', rfl, rfl, hkeeps, fun _ h => by simp at h⟩
      | some sec =>
        obtain ⟨t, hread, hkeeps, hfresh, hcache⟩ := readSec_of_some hd hs hvalid hlba hsec
        obtain ⟨rs, l', hscan, hscan'⟩ := scanEntries_of hcache (List.range 16) (by simp) l
        simp only [hread, hscan, hscan', ok_bind]
        cases l' with
        | none => exact .inr ⟨rs, none, t, rfl, rfl, hkeeps, fun _ _ => hfresh⟩
        | some l' =>
          simp only [Option.map_some]
          rcases ih hkeeps.mirrors (hkeeps.valid.trans hvalid) (.inl hfresh) l' with
            ⟨hnone, htrap⟩ | ⟨rs', out, s', hok, hsome, hrest, -⟩
          · rw [hnone, htrap]
            exact .inl ⟨rfl, rfl⟩
          · rw [hok, hsome]
            exact .inr ⟨rs ++ rs', out, s', rfl, rfl, hkeeps.trans hrest, fun _ _ => hrest.fresh hfresh⟩

/-- The scan can start at the cluster: its first sector will not be mistaken for the empty cache. -/
def Ready (disk : Disk) (s : Fat32State) (c : Nat) : Prop :=
  Fresh disk s ∨ Fat32.clusToLba s.volume c ≠ some maxU32

private theorem scanCluster_of (hd : Serves d disk) (hs : Mirrors disk s) (hvalid : s.valid = true) (hready : Ready disk s c)
    (l : LfnBuf) :
    (scanCluster disk s.volume c l.toLfn = none ∧
      (s.clusToLba c >>= fun base => scanSectors d base (List.range s.spc) l s) = .error .trap) ∨
    ∃ rs out s', (s.clusToLba c >>= fun base => scanSectors d base (List.range s.spc) l s) = .ok ((rs, out), s') ∧
      scanCluster disk s.volume c l.toLfn = some (rs, out.map LfnBuf.toLfn) ∧ Keeps disk s s' ∧
      (rs ≠ [] ∨ out ≠ none → Fresh disk s') := by
  unfold scanCluster
  rw [clusToLba_eq]
  cases hbase : Fat32.clusToLba s.volume c with
  | none => exact .inl ⟨rfl, rfl⟩
  | some base =>
    have hspc := (hs.parsed hvalid).spc_pos
    have hne : List.range s.spc ≠ [] := fun h => by
      rw [List.range_eq_nil] at h
      exact hspc.ne' h
    have hfirst : Fresh disk s ∨ ∀ i ∈ (List.range s.spc).head?, base + i ≠ maxU32 := by
      refine hready.imp_right fun h i hi => ?_
      obtain ⟨n, hn⟩ : ∃ n, s.spc = n + 1 := ⟨s.spc - 1, by exact (Nat.sub_add_cancel hspc).symm⟩
      rw [hn, List.range_succ_eq_map, List.head?_cons, Option.mem_some] at hi
      rw [← hi]
      exact fun heq => h (hbase.trans (congrArg some heq))
    simp only [check_some, ok_bind, Option.bind_some]
    rcases scanSectors_of hd hs hvalid hfirst l with hbad | ⟨rs, out, s', hok, hsome, hkeeps, hfresh⟩
    · exact .inl hbad
    · exact .inr ⟨rs, out, s', hok, hsome, hkeeps, hfresh hne⟩

/-- One round of the loop over the clusters: it stops the server, or comes to an end, or goes on with the next cluster. -/
private theorem scanChain_round (hd : Serves d disk) (hs : Mirrors disk s) (hvalid : s.valid = true)
    (hready : Ready disk s c) (l : LfnBuf) :
    (Overflows disk s.volume c ∧ ∀ fuel, scanChain d (fuel + 1) c l s = .error .trap) ∨
    (∃ rs s', Keeps disk s s' ∧ (rs ≠ [] → Fresh disk s') ∧ ∀ fuel, scanChain d (fuel + 1) c l s = .ok (rs, s') ∧
      Fat32.scanChain disk s.volume (fuel + 1) c l.toLfn = some rs) ∨
    ∃ c' rs l' s', LinkedTo disk s.volume c c' ∧ Keeps disk s s' ∧ Fresh disk s' ∧ ∀ fuel,
      scanChain d (fuel + 1) c l s = (scanChain d fuel c' l' s' >>= fun p => .ok (rs ++ p.1, p.2)) ∧
      Fat32.scanChain disk s.volume (fuel + 1) c l.toLfn =
        (Fat32.scanChain disk s.volume fuel c' l'.toLfn).map (rs ++ ·) := by
  by_cases hrange : InRange c
  · have hnot : ¬ (c < 2 ∨ eoc ≤ c) := by
      unfold InRange at hrange
      omega
    have hlba := hs.fatLba_lt hvalid
    rcases scanCluster_of hd hs hvalid hready l with ⟨hnone, htrap⟩ | ⟨rs, out, t, hok, hsome, hkeeps, hfresh⟩
    · refine .inl ⟨(Fat32.scanCluster_eq_none_iff hrange).1 hnone, fun fuel => ?_⟩
      rw [scanChain, if_neg hnot, ← bind_assoc, htrap, error_bind]
    · cases out with
      | none =>
        refine .inr (.inl ⟨rs, t, hkeeps, fun h => hfresh (.inl h), fun fuel => ⟨?_, ?_⟩⟩)
        · rw [scanChain, if_neg hnot, ← bind_assoc, hok, ok_bind]
        · rw [Fat32.scanChain_of_inRange hrange, hsome]
          rfl
      | some l' =>
        have ht := hfresh (.inr (Option.some_ne_none l'))
        obtain ⟨c', hlink⟩ := (Fat32.scanCluster_goesOn_iff hlba hrange).1 ⟨rs, l'.toLfn, hsome⟩
        obtain ⟨n, s', hnext, hnext', hkeeps'⟩ :=
          fatNext_of hd hkeeps.mirrors (hkeeps.valid.trans hvalid) hrange.lt
        rw [hkeeps.volume, hlink.next, Option.some_inj] at hnext'
        subst hnext'
        refine .inr (.inr ⟨c', rs, l', s', hlink, hkeeps.trans hkeeps', hkeeps'.fresh ht, fun fuel => ⟨?_, ?_⟩⟩)
        · rw [scanChain, if_neg hnot, ← bind_assoc, hok, ok_bind]
          simp only [hnext, ok_bind]
        · rw [Fat32.scanChain_of_inRange hrange, hsome]
          simp only [Option.map_some, Option.bind_some, hlink.next]
  · refine .inr (.inl ⟨[], s, hs.keeps, fun h => absurd rfl h, fun fuel => ⟨?_, Fat32.scanChain_of_not_inRange hrange⟩⟩)
    have hend : c < 2 ∨ eoc ≤ c := by
      unfold InRange at hrange
      omega
    rw [scanChain, if_pos hend]

private theorem scanChain_of (hd : Serves d disk) (fuel : Nat) (hs : Mirrors disk s) (hvalid : s.valid = true)
    (hready : Ready disk s c) (l : LfnBuf) :
    (∃ rs s', scanChain d fuel c l s = .ok (rs, s') ∧ Fat32.scanChain disk s.volume fuel c l.toLfn = some rs ∧
      Keeps disk s s' ∧ (rs ≠ [] → Fresh disk s')) ∨
    (scanChain d fuel c l s = .error .trap ∧ ∃ x, ReflTransGen (LinkedTo disk s.volume) c x ∧ Overflows disk s.volume x) ∨
    (scanChain d fuel c l s = .error .hang ∧
      ∃ cs : List Nat, cs.length = fuel ∧ (c :: cs).IsChain (LinkedTo disk s.volume)) := by
  induction fuel generalizing c l s with
  | zero => exact .inr (.inr ⟨rfl, [], rfl, .singleton c⟩)
  | succ fuel ih =>
    rcases scanChain_round hd hs hvalid hready l with
      ⟨hover, htrap⟩ | ⟨rs, s', hkeeps, hfresh, hstop⟩ | ⟨c', rs, l', t, hlink, hkeeps, hfresh, hstep⟩
    · exact .inr (.inl ⟨htrap fuel, c, .refl, hover⟩)
    · exact .inl ⟨rs, s', (hstop fuel).1, (hstop fuel).2, hkeeps, hfresh⟩
    · obtain ⟨hstep, hstep'⟩ := hstep fuel
      have hrest := ih hkeeps.mirrors (hkeeps.valid.trans hvalid) (.inl hfresh) l' (c := c')
      rw [hkeeps.volume] at hrest
      rcases hrest with ⟨rs', s', hok, hsome, hkeeps', -⟩ | ⟨htrap, x, hreach, hx⟩ | ⟨hhang, cs, hlen, hchain⟩
      · refine .inl ⟨rs ++ rs', s', ?_, ?_, hkeeps.trans hkeeps', fun _ => hkeeps'.fresh hfresh⟩
        · rw [hstep, hok, ok_bind]
        · rw [hstep', hsome, Option.map_some]
      · exact .inr (.inl ⟨by rw [hstep, htrap, error_bind], x, .head hlink hreach, hx⟩)
      · refine .inr (.inr ⟨by rw [hstep, hhang, error_bind], c' :: cs, by rw [List.length_cons, hlen], ?_⟩)
        exact List.isChain_cons_cons.2 ⟨hlink, hchain⟩

end Directory

/-! ### What the operations return -/

/-- The operation returns what the reader without state returns, and then `post` holds; or the latter has no result, and
the operation ends with a fault that is `bad`. -/
def Simulates {α : Type} (disk : Disk) (s : Fat32State) (post : α → Fat32State → Prop) (bad : Fault → Prop)
    (x : Except Fault (α × Fat32State)) (y : Option α) : Prop :=
  (∃ a s', x = .ok (a, s') ∧ y = some a ∧ Keeps disk s s' ∧ post a s') ∨ ∃ f, x = .error f ∧ y = none ∧ bad f

/-- The faults of a scan. -/
def BadScan (disk : Disk) (v : Volume) (c : Nat) : Fault → Prop
  | .trap => ∃ x, ReflTransGen (LinkedTo disk v) c x ∧ Overflows disk v x
  | .hang => Endless disk v c

section Simulation

variable {α β : Type} {s : Fat32State} {v : Volume} {c fuel : Nat} {f : Fault}

/-- An operation ends with a fault exactly if that is bad, when different faults exclude each other. -/
theorem Simulates.error_iff {post : α → Fat32State → Prop} {bad : Fault → Prop} {x : Except Fault (α × Fat32State)}
    {y : Option α} (h : Simulates disk s post bad x y) (hnone : ∀ f, bad f → y = none)
    (hexcl : ∀ f f', bad f → bad f' → f = f') : x = .error f ↔ bad f := by
  rcases h with ⟨a, s', hok, hsome, -⟩ | ⟨f', herr, -, hbad⟩
  · refine iff_of_false (by rw [hok]; exact fun h => by cases h) fun hbad => ?_
    rw [hnone f hbad] at hsome
    cases hsome
  · rw [herr]
    constructor
    · intro heq
      cases heq
      exact hbad
    · exact fun hbad' => congrArg Except.error (hexcl f' f hbad hbad')

theorem Simulates.bind {post : α → Fat32State → Prop} {post' : β → Fat32State → Prop} {bad bad' : Fault → Prop}
    {x : Except Fault (α × Fat32State)} {y : Option α} {f : α × Fat32State → Except Fault (β × Fat32State)}
    {g : α → Option β} (h : Simulates disk s post bad x y) (hbad : ∀ f, bad f → bad' f)
    (hrest : ∀ a t, y = some a → Keeps disk s t → post a t → Simulates disk t post' bad' (f (a, t)) (g a)) :
    Simulates disk s post' bad' (x >>= f) (y >>= g) := by
  rcases h with ⟨a, t, hok, hsome, hkeeps, hpost⟩ | ⟨f', herr, hnone, hb⟩
  · rcases hrest a t hsome hkeeps hpost with ⟨b, s', hok', hsome', hkeeps', hpost'⟩ | ⟨f', herr, hnone, hb⟩
    · exact .inl ⟨b, s', by rw [hok]; exact hok', by rw [hsome]; exact hsome', hkeeps.trans hkeeps', hpost'⟩
    · exact .inr ⟨f', by rw [hok]; exact herr, by rw [hsome]; exact hnone, hb⟩
  · exact .inr ⟨f', by rw [herr]; rfl, by rw [hnone]; rfl, hbad f' hb⟩

theorem Simulates.weaken {post : α → Fat32State → Prop} {bad bad' : Fault → Prop} {x : Except Fault (α × Fat32State)}
    {y : Option α} (h : Simulates disk s post bad x y) (hbad : ∀ f, bad f → bad' f) : Simulates disk s post bad' x y := by
  rcases h with hok | ⟨f', herr, hnone, hb⟩
  · exact .inl hok
  · exact .inr ⟨f', herr, hnone, hbad f' hb⟩

theorem badScan_excl {f' : Fault} (h : BadScan disk v c f) (h' : BadScan disk v c f') : f = f' := by
  cases f with
  | trap =>
    cases f' with
    | trap => rfl
    | hang =>
      obtain ⟨x, hreach, hx⟩ := h
      exact absurd hx (Endless.not_reaches h' hreach)
  | hang =>
    cases f' with
    | trap =>
      obtain ⟨x, hreach, hx⟩ := h'
      exact absurd hx (Endless.not_reaches h hreach)
    | hang => rfl

theorem scanDir_eq_none_iff_bad (hv : v.fatLba < 2 ^ 16) : Fat32.scanDir disk v c = none ↔ ∃ f, BadScan disk v c f := by
  rw [Fat32.scanDir_eq_none_iff hv]
  constructor
  · rintro (h | h)
    · exact ⟨.trap, h⟩
    · exact ⟨.hang, h⟩
  · rintro ⟨f, h⟩
    cases f with
    | trap => exact .inl h
    | hang => exact .inr h

/-- The scan of a directory, with clusters enough. -/
theorem scanDir_simulates (hd : Serves d disk) (hs : Mirrors disk s) (hvalid : s.valid = true) (hready : Ready disk s c)
    (hfuel : 2 ^ 28 ≤ fuel) :
    Simulates disk s (fun rs s' => rs ≠ [] → Fresh disk s') (BadScan disk s.volume c) (scanDir d fuel c s)
      (Fat32.scanDir disk s.volume c) := by
  have hlba := hs.fatLba_lt hvalid
  have hnone : LfnBuf.none.toLfn = Lfn.none := by
    unfold LfnBuf.none LfnBuf.toLfn Lfn.none ext
    simp
  have hbad : ∀ f, BadScan disk s.volume c f → Fat32.scanDir disk s.volume c = none := fun f hf =>
    (scanDir_eq_none_iff_bad hlba).2 ⟨f, hf⟩
  have hscan := scanChain_of hd fuel hs hvalid hready .none
  rw [hnone] at hscan
  rcases hscan with ⟨rs, s', hok, hsome, hkeeps, hfresh⟩ | ⟨htrap, hreach⟩ | ⟨hhang, cs, hlen, hchain⟩
  · refine .inl ⟨rs, s', hok, ?_, hkeeps, hfresh⟩
    cases hres : Fat32.scanDir disk s.volume c with
    | none =>
      -- then there is no result with more clusters, either
      rcases (Fat32.scanDir_eq_none_iff hlba).1 hres with ⟨x, hreach, hx⟩ | hendless
      · rw [Fat32.scanChain_of_reaches hlba hreach hx] at hsome
        cases hsome
      · rw [Fat32.scanChain_of_endless hlba hendless] at hsome
        cases hsome
    | some rs' =>
      rw [Fat32.scanChain_mono hres hfuel] at hsome
      exact hsome
  · exact .inr ⟨.trap, htrap, hbad .trap hreach, hreach⟩
  · have hendless := Fat32.endless_of_long (by omega) hchain
    exact .inr ⟨.hang, hhang, hbad .hang hendless, hendless⟩

end Simulation

end Rost.Vfs.Fat32State
