import Rost.Vfs.Walks
import Rost.Vfs.Coherence

/-!
# Hostile disks

For every content of the disk: when an operation comes to an end (`terminates_iff`), and when it does not stop the server
(`never_traps_iff`).
-/

namespace Rost.Vfs.Fat32State

open Blk (Driver)
open Fat32 (DirRecord FileInfo Volume Visits FileOverflows LinkedTo Overflows Endless GoesOn InRange trimPath lookupIn add32 mul32 le)
open Relation (ReflTransGen TransGen)

/-! ### More clusters -/

/-- A result that has been found within a number of clusters is the result for every greater number. -/
def Settles {α : Type} (op : Nat → Except Fault α) : Prop := ∀ n m, n ≤ m → op n ≠ .error .hang → op m = op n

section Settles

variable {α β : Type} {d : Driver} {s : Fat32State}

theorem Settles.const (x : Except Fault α) : Settles fun _ => x := fun _ _ _ _ => rfl

theorem Settles.bind {op : Nat → Except Fault α} {f : Nat → α → Except Fault β} (hop : Settles op)
    (hf : ∀ a, Settles fun n => f n a) : Settles fun n => op n >>= f n := by
  intro n m hle hne
  have hop' : op m = op n := hop n m hle fun h => hne (by simp only [h, error_bind])
  simp only [hop'] at hne ⊢
  cases hres : op n with
  | error e => rfl
  | ok a =>
    rw [hres] at hne
    exact hf a n m hle hne

private theorem scanChain_settles {n m c : Nat} {l : LfnBuf} (hle : n ≤ m) (hne : scanChain d n c l s ≠ .error .hang) :
    scanChain d m c l s = scanChain d n c l s := by
  induction n generalizing m c l s with
  | zero => exact absurd rfl hne
  | succ n ih =>
    obtain ⟨m, rfl⟩ : ∃ k, m = k + 1 := ⟨m - 1, by omega⟩
    simp only [scanChain] at hne ⊢
    split
    · rfl
    · rename_i hrange
      rw [if_neg hrange] at hne
      cases hbase : s.clusToLba c with
      | error e => rfl
      | ok base =>
        rw [hbase, ok_bind] at hne
        rw [ok_bind, ok_bind]
        cases hscan : scanSectors d base (List.range s.spc) l s with
        | error e => rfl
        | ok out =>
          obtain ⟨⟨rs, l'⟩, t⟩ := out
          rw [hscan, ok_bind] at hne
          rw [ok_bind, ok_bind]
          cases l' with
          | none => rfl
          | some l' =>
            simp only at hne ⊢
            cases hnext : fatNext d c t with
            | error e => rfl
            | ok p =>
              rw [hnext, ok_bind] at hne
              rw [ok_bind, ok_bind]
              have hrest : scanChain d m p.1 l' p.2 = scanChain d n p.1 l' p.2 :=
                ih (by omega) fun h => hne (by simp only [h, error_bind])
              rw [hrest]

theorem settles_scanDir (c : Nat) (s : Fat32State) : Settles fun n => scanDir d n c s := fun _ _ hle hne =>
  scanChain_settles hle hne

private theorem settles_lookupFrom (steps clus : Nat) (p : Bytes) (s : Fat32State) :
    Settles fun n => lookupFrom d n steps clus p s := by
  induction steps generalizing clus p s with
  | zero => exact .const _
  | succ steps ih =>
    unfold lookupFrom
    split
    · exact .const _
    · refine (settles_scanDir clus s).bind fun out => ?_
      obtain ⟨records, t⟩ := out
      simp only
      split
      · exact .const _
      · split
        · exact .const _
        · split
          · exact ih _ _ _
          · exact .const _

theorem settles_lookup (path : Bytes) (s : Fat32State) : Settles fun n => lookup d n path s := by
  unfold lookup
  refine (Settles.const _).bind fun out => ?_
  obtain ⟨b, t⟩ := out
  cases b with
  | false => exact .const _
  | true =>
    simp only
    split
    · exact .const _
    · exact settles_lookupFrom _ _ _ _

theorem settles_readdir (path : Bytes) (s : Fat32State) : Settles fun n => readdir d n path s := by
  have hrecords : ∀ c t, Settles fun n => scanDir d n c t >>= fun out => .ok ((true, out.1), out.2) := fun c t =>
    (settles_scanDir c t).bind fun out => .const _
  unfold readdir
  refine (Settles.const _).bind fun out => ?_
  obtain ⟨b, t⟩ := out
  cases b with
  | false => exact .const _
  | true =>
    simp only
    split
    · exact hrecords _ _
    · refine (settles_lookup path t).bind fun out => ?_
      obtain ⟨found, u⟩ := out
      cases found with
      | none => exact .const _
      | some fi =>
        simp only
        split
        · exact hrecords _ _
        · exact .const _

theorem settles_readFile (path : Bytes) (offset : Nat) (s : Fat32State) : Settles fun n => readFile d n path offset s := by
  unfold readFile
  refine (Settles.const _).bind fun out => ?_
  obtain ⟨b, t⟩ := out
  cases b with
  | false => exact .const _
  | true =>
    refine (settles_lookup path t).bind fun out => ?_
    -- behind the walk nothing depends on the number of clusters
    exact .const _

end Settles

/-! ### The first call -/

/-- No sector has been cached, and the root directory starts at the sector whose number stands for that. -/
def Skips (s : Fat32State) (v : Volume) : Prop := Blank s ∧ Fat32.clusToLba v v.rootClus = some maxU32

/-- The operation looks for the volume first. -/
structure Mounts {α : Type} (d : Driver) (op : Fat32State → Except Fault (α × Fat32State)) : Prop where
  error : ∀ {s f}, available d s = .error f → op s = .error f
  absent : ∀ {s t}, available d s = .ok (false, t) → ∃ a, op s = .ok (a, t)
  present : ∀ {s t}, available d s = .ok (true, t) → t.valid = true → op s = op t

section Mounting

variable {α : Type} {disk : Disk} {d : Driver} {s : Fat32State} {f : Fault} {path : Bytes} {fuel offset : Nat}

theorem available_of (hd : Serves d disk) (hs : Mirrors disk s) :
    (Fat32.available disk = none ∧ available d s = .error .trap) ∨
    (Fat32.available disk = some none ∧ ∃ t, available d s = .ok (false, t) ∧ Mirrors disk t) ∨
    ∃ t, Fat32.available disk = some (some t.volume) ∧ available d s = .ok (true, t) ∧ Mirrors disk t ∧ t.valid = true ∧
      t.secClba = s.secClba ∧ t.secCache = s.secCache := by
  by_cases hvalid : s.valid = true
  · exact .inr (.inr ⟨s, hs.volume hvalid, available_of_valid hvalid, hs, hvalid, rfl, rfl⟩)
  rw [Bool.not_eq_true] at hvalid
  have hcalls : ∀ calls, Mirrors disk { s with calls := calls } := fun _ => ⟨hs.volume, hs.sec, hs.fat⟩
  by_cases hpresent : d.present = true
  · have hfound := available_disk_eq disk
    rw [hd.present, if_pos hpresent] at hfound
    cases hsec : disk.readSector 0 with
    | none =>
      obtain ⟨calls, hread⟩ := readSector_of_none hd hsec s.calls fun _ => 0
      rw [hsec] at hfound
      exact .inr (.inl ⟨hfound, _, available_of_present hvalid hpresent hread (ext_eq _), hcalls calls⟩)
    | some vbr =>
      obtain ⟨calls, hread⟩ := readSector_of_some hd (hd.present.trans hpresent) hsec s.calls fun _ => 0
      have hav := available_of_present hvalid hpresent hread fun _ => rfl
      rw [hsec] at hfound
      rw [if_pos rfl] at hav
      cases hparse : parse vbr with
      | none =>
        rw [hparse] at hav
        exact .inl ⟨hfound.trans hparse, hav⟩
      | some found =>
        rw [hparse] at hav
        cases found with
        | none => exact .inr (.inl ⟨hfound.trans hparse, _, hav, hcalls calls⟩)
        | some v =>
          have hvolume := hfound.trans hparse
          refine .inr (.inr ⟨({ s with calls := calls } : Fat32State).mount v, hvolume, hav, ?_, rfl, rfl, rfl⟩)
          exact ⟨fun _ => hvolume, hs.sec, hs.fat⟩
  · refine .inr (.inl ⟨?_, s, available_of_absent hvalid (by simpa using hpresent), hs⟩)
    rw [available_disk_eq, hd.present, if_neg hpresent]

/-- The first sector of the root directory is taken for the empty cache, or the scan can start. -/
theorem skips_or_ready (hs : Mirrors disk s) : Skips s s.volume ∨ Ready disk s s.rootClus := by
  by_cases hroot : Fat32.clusToLba s.volume s.rootClus = some maxU32
  · rcases hs.sec with hfresh | hblank
    · exact .inr (.inl hfresh)
    · exact .inl ⟨hblank, hroot⟩
  · exact .inr (.inr hroot)

/-- The faults of an operation, if those on a volume are known. -/
theorem Mounts.error_iff {op : Fat32State → Except Fault (α × Fat32State)} (hop : Mounts d op) (hd : Serves d disk)
    (hs : Mirrors disk s) {bad : Volume → Fault → Prop}
    (hskips : ∀ t, Mirrors disk t → t.valid = true → Skips t t.volume → ∃ a, op t = .ok (a, t))
    (hready : ∀ t, Mirrors disk t → t.valid = true → Ready disk t t.rootClus → (op t = .error f ↔ bad t.volume f)) :
    op s = .error f ↔ (f = .trap ∧ Fat32.available disk = none) ∨
      ∃ v, Fat32.available disk = some (some v) ∧ ¬ Skips s v ∧ bad v f := by
  rcases available_of hd hs with ⟨hdisk, hav⟩ | ⟨hdisk, t, hav, -⟩ | ⟨t, hdisk, hav, ht, hvalid, hclba, hcache⟩
  · rw [hop.error hav, hdisk]
    simp [eq_comm]
  · obtain ⟨a, hok⟩ := hop.absent hav
    rw [hok, hdisk]
    simp
  · have hsame : Skips s t.volume ↔ Skips t t.volume := by
      unfold Skips Blank
      rw [hclba, hcache]
    rw [hop.present hav hvalid, hdisk]
    by_cases hskip : Skips t t.volume
    · obtain ⟨a, hok⟩ := hskips t ht hvalid hskip
      rw [hok]
      simp [hsame, hskip]
    · rw [hready t ht hvalid ((skips_or_ready ht).resolve_left hskip)]
      simp [hsame, hskip]

private theorem mounts_lookup : Mounts d fun s => lookup d fuel path s := by
  refine ⟨fun h => ?_, fun h => ⟨none, ?_⟩, fun h hvalid => ?_⟩
  · unfold lookup
    rw [h, error_bind]
  · unfold lookup
    rw [h, ok_bind]
  · unfold lookup
    rw [h, available_of_valid hvalid]

private theorem mounts_readdir : Mounts d fun s => readdir d fuel path s := by
  refine ⟨fun h => ?_, fun h => ⟨(false, []), ?_⟩, fun h hvalid => ?_⟩
  · unfold readdir
    rw [h, error_bind]
  · unfold readdir
    rw [h, ok_bind]
  · unfold readdir
    rw [h, available_of_valid hvalid]

private theorem mounts_readFile : Mounts d fun s => readFile d fuel path offset s := by
  refine ⟨fun h => ?_, fun h => ⟨none, ?_⟩, fun h hvalid => ?_⟩
  · unfold readFile
    rw [h, error_bind]
  · unfold readFile
    rw [h, ok_bind]
  · unfold readFile
    rw [h, available_of_valid hvalid]

/-- What keeps the state in step with the disk on a volume keeps it so in any case. -/
private theorem Mounts.mirrors {op : Fat32State → Except Fault (α × Fat32State)} (hop : Mounts d op) (hd : Serves d disk)
    (hs : Mirrors disk s) {s' : Fat32State} {a : α}
    (hskips : ∀ t, Mirrors disk t → t.valid = true → Skips t t.volume → ∃ a, op t = .ok (a, t))
    (hready : ∀ t, Mirrors disk t → t.valid = true → Ready disk t t.rootClus → ∀ a s', op t = .ok (a, s') → Mirrors disk s')
    (h : op s = .ok (a, s')) : Mirrors disk s' := by
  rcases available_of hd hs with ⟨-, hav⟩ | ⟨-, t, hav, ht⟩ | ⟨t, -, hav, ht, hvalid, -⟩
  · rw [hop.error hav] at h
    cases h
  · obtain ⟨b, hok⟩ := hop.absent hav
    cases hok.symm.trans h
    exact ht
  · rw [hop.present hav hvalid] at h
    rcases skips_or_ready ht with hskip | hroot
    · obtain ⟨b, hok⟩ := hskips t ht hvalid hskip
      cases hok.symm.trans h
      exact ht
    · exact hready t ht hvalid hroot a s' h

theorem Simulates.mirrors {post : α → Fat32State → Prop} {bad : Fault → Prop} {x : Except Fault (α × Fat32State)}
    {y : Option α} (h : Simulates disk s post bad x y) {a : α} {s' : Fat32State} (hok : x = .ok (a, s')) :
    Mirrors disk s' := by
  rcases h with ⟨b, t, hok', -, hkeeps, -⟩ | ⟨f, herr, -⟩
  · cases hok'.symm.trans hok
    exact hkeeps.mirrors
  · cases herr.symm.trans hok

end Mounting

/-! ### An empty cache -/

section Skipping

variable {disk : Disk} {d : Driver} {s : Fat32State} {fuel offset c : Nat}

/-- Sector `u32::MAX` seems to be there, and to be empty. -/
theorem scanDir_of_blank (hs : Mirrors disk s) (hvalid : s.valid = true) (hblank : Blank s)
    (hbase : Fat32.clusToLba s.volume c = some maxU32) (hfuel : 1 ≤ fuel) : scanDir d fuel c s = .ok ([], s) := by
  obtain ⟨fuel, rfl⟩ : ∃ k, fuel = k + 1 := ⟨fuel - 1, by omega⟩
  obtain ⟨n, hn⟩ : ∃ n, s.spc = n + 1 := ⟨s.spc - 1, (Nat.sub_add_cancel (hs.parsed hvalid).spc_pos).symm⟩
  obtain ⟨rs, l', hscan, hscan'⟩ :=
    @scanEntries_of s.secCache (fun _ => 0) (fun i => (hblank.2 i).symm) (List.range 16) (by simp) .none
  have hend : Fat32.scanEntries (fun _ => 0) (List.range 16) LfnBuf.none.toLfn = ([], none) := rfl
  rw [hend] at hscan'
  cases l' with
  | some l' => cases hscan'
  | none =>
    cases hscan'
    unfold scanDir scanChain
    split
    · rfl
    · rw [clusToLba_eq, hbase, hn, List.range_succ_eq_map]
      have hadd : add32 maxU32 0 = some maxU32 := rfl
      unfold scanSectors
      rw [check_some, ok_bind, hadd, check_some, ok_bind]
      have hread : readSec d maxU32 s = (true, s) := if_pos hblank.1
      simp only [hread, hscan, ok_bind]

theorem lookup_of_skips (path : Bytes) (hs : Mirrors disk s) (hvalid : s.valid = true) (hskip : Skips s s.volume) (hfuel : 1 ≤ fuel) :
    ∃ out, lookup d fuel path s = .ok (out, s) ∧ ∀ fi, out = some fi → trimPath path = [] ∧ fi.isDir = true := by
  rw [lookup_of_valid hvalid]
  split
  · rename_i hroot
    exact ⟨_, rfl, fun fi h => by cases h; exact ⟨hroot, rfl⟩⟩
  · unfold lookupFrom
    refine ⟨none, ?_, fun fi h => by cases h⟩
    split
    · rfl
    · have hscan : scanDir d fuel s.rootClus s = .ok ([], s) := scanDir_of_blank hs hvalid hskip.1 hskip.2 hfuel
      rw [hscan]
      rfl

theorem readdir_of_skips (path : Bytes) (hs : Mirrors disk s) (hvalid : s.valid = true) (hskip : Skips s s.volume) (hfuel : 1 ≤ fuel) :
    ∃ out, readdir d fuel path s = .ok (out, s) := by
  unfold readdir
  rw [available_of_valid hvalid, ok_bind]
  simp only
  by_cases hroot : trimPath path = []
  · have hscan : scanDir d fuel s.rootClus s = .ok ([], s) := scanDir_of_blank hs hvalid hskip.1 hskip.2 hfuel
    rw [if_pos hroot, hscan]
    exact ⟨_, rfl⟩
  · obtain ⟨out, hlookup, hout⟩ := lookup_of_skips (d := d) path hs hvalid hskip hfuel
    rw [if_neg hroot, hlookup, ok_bind]
    cases out with
    | none => exact ⟨_, rfl⟩
    | some fi => exact absurd (hout fi rfl).1 hroot

theorem readFile_of_skips (path : Bytes) (hs : Mirrors disk s) (hvalid : s.valid = true) (hskip : Skips s s.volume) (hfuel : 1 ≤ fuel) :
    readFile d fuel path offset s = .ok (none, s) := by
  unfold readFile
  obtain ⟨out, hlookup, hout⟩ := lookup_of_skips (d := d) path hs hvalid hskip hfuel
  rw [available_of_valid hvalid, ok_bind]
  simp only
  rw [hlookup, ok_bind]
  cases out with
  | none => rfl
  | some fi =>
    simp only
    rw [if_pos (hout fi rfl).2]

end Skipping

/-! ### The faults of the operations -/

section Faults

variable {disk : Disk} {d : Driver} {s : Fat32State} {path : Bytes} {fuel offset c : Nat} {f : Fault}

theorem available_error_iff (hd : Serves d disk) (hs : Mirrors disk s) :
    available d s = .error f ↔ f = .trap ∧ Fat32.available disk = none := by
  rcases available_of hd hs with ⟨hdisk, hav⟩ | ⟨hdisk, t, hav, -⟩ | ⟨t, hdisk, hav, -⟩
  · rw [hav, hdisk]
    simp [eq_comm]
  · rw [hav, hdisk]
    simp
  · rw [hav, hdisk]
    simp

theorem scanDir_error_iff (hd : Serves d disk) (hs : Mirrors disk s) (hvalid : s.valid = true) (hfuel : 2 ^ 28 ≤ fuel) :
    scanDir d fuel c s = .error f ↔ ¬ (Blank s ∧ Fat32.clusToLba s.volume c = some maxU32) ∧ BadScan disk s.volume c f := by
  by_cases hskip : Blank s ∧ Fat32.clusToLba s.volume c = some maxU32
  · rw [scanDir_of_blank hs hvalid hskip.1 hskip.2 (by omega)]
    simp [hskip]
  · have hready : Ready disk s c := by
      rcases hs.sec with hfresh | hblank
      · exact .inl hfresh
      · exact .inr fun hbase => hskip ⟨hblank, hbase⟩
    rw [and_iff_right hskip]
    exact (scanDir_simulates hd hs hvalid hready hfuel).error_iff
      (fun f hf => (scanDir_eq_none_iff_bad (hs.fatLba_lt hvalid)).2 ⟨f, hf⟩) fun _ _ => badScan_excl

theorem lookup_error_iff (hd : Serves d disk) (hs : Mirrors disk s) (hfuel : 2 ^ 28 ≤ fuel) :
    lookup d fuel path s = .error f ↔ (f = .trap ∧ Fat32.available disk = none) ∨
      ∃ v, Fat32.available disk = some (some v) ∧ ¬ Skips s v ∧ BadWalk disk v v.rootClus (trimPath path) f := by
  have hpos : 1 ≤ fuel := by omega
  refine mounts_lookup.error_iff hd hs ?_ fun t ht hvalid hready => ?_
  · intro t ht hvalid hskip
    obtain ⟨out, hok, -⟩ := lookup_of_skips (d := d) path ht hvalid hskip hpos
    exact ⟨out, hok⟩
  · have hlba := ht.fatLba_lt hvalid
    exact (lookup_simulates hd ht hvalid hfuel hready).error_iff (fun _ => lookupIn_of_bad hlba) fun _ _ => badWalk_excl hlba

theorem readdir_error_iff (hd : Serves d disk) (hs : Mirrors disk s) (hfuel : 2 ^ 28 ≤ fuel) :
    readdir d fuel path s = .error f ↔ (f = .trap ∧ Fat32.available disk = none) ∨
      ∃ v, Fat32.available disk = some (some v) ∧ ¬ Skips s v ∧ BadReaddir disk v path f := by
  refine mounts_readdir.error_iff hd hs ?_ fun t ht hvalid hready => ?_
  · exact fun t ht hvalid hskip => readdir_of_skips path ht hvalid hskip (by omega)
  · have hlba := ht.fatLba_lt hvalid
    exact (readdir_simulates hd ht hvalid hfuel hready).error_iff (fun _ => readdirIn_of_bad hlba)
      fun _ _ => badReaddir_excl hlba

theorem readFile_error_iff (hd : Serves d disk) (hs : Mirrors disk s) (hfuel : 2 ^ 28 ≤ fuel) :
    readFile d fuel path offset s = .error f ↔ (f = .trap ∧ Fat32.available disk = none) ∨
      ∃ v, Fat32.available disk = some (some v) ∧ ¬ Skips s v ∧ BadRead disk v path offset f := by
  refine mounts_readFile.error_iff hd hs ?_ fun t ht hvalid hready => ?_
  · exact fun t ht hvalid hskip => ⟨none, readFile_of_skips path ht hvalid hskip (by omega)⟩
  · have hlba := ht.fatLba_lt hvalid
    exact (readFile_simulates hd ht hvalid hfuel hready).error_iff (fun _ => readFileIn_of_bad hlba)
      fun _ _ => badRead_excl hlba

end Faults

/-! ### The states that are reached -/

/-- The states that the operations lead to. -/
inductive Reached (d : Driver) : Fat32State → Prop
  | start : Reached d uninit
  | available {s s' : Fat32State} {b : Bool} (h : Reached d s) (hstep : available d s = .ok (b, s')) : Reached d s'
  | lookup {s s' : Fat32State} {fuel : Nat} {path : Bytes} {out : Option FileInfo} (h : Reached d s)
      (hstep : lookup d fuel path s = .ok (out, s')) : Reached d s'
  | readdir {s s' : Fat32State} {fuel : Nat} {path : Bytes} {out : Bool × List DirRecord} (h : Reached d s)
      (hstep : readdir d fuel path s = .ok (out, s')) : Reached d s'
  | readFile {s s' : Fat32State} {fuel : Nat} {path : Bytes} {offset : Nat} {out : Option (Nat × Bytes)} (h : Reached d s)
      (hstep : readFile d fuel path offset s = .ok (out, s')) : Reached d s'

/-- A result is also found with more clusters. -/
private theorem Settles.of_ok {α : Type} {op : Nat → Except Fault α} (hop : Settles op) {fuel : Nat} {a : α}
    (h : op fuel = .ok a) : op (max fuel (2 ^ 28)) = .ok a := by
  rw [hop fuel _ (Nat.le_max_left _ _) (by rw [h]; simp), h]

theorem mirrors_of_reached {d : Driver} {disk : Disk} {s : Fat32State} (hd : Serves d disk) (h : Reached d s) :
    Mirrors disk s := by
  induction h with
  | start => exact mirrors_uninit
  | available _ hstep hs =>
    rcases available_of hd hs with ⟨-, hav⟩ | ⟨-, t, hav, ht⟩ | ⟨t, -, hav, ht, -⟩
    · cases hav.symm.trans hstep
    · cases hav.symm.trans hstep
      exact ht
    · cases hav.symm.trans hstep
      exact ht
  | @lookup s s' fuel path out _ hstep hs =>
    have hle : 2 ^ 28 ≤ max fuel (2 ^ 28) := Nat.le_max_right _ _
    have hok := (settles_lookup _ _).of_ok hstep
    refine mounts_lookup.mirrors hd hs (fun t ht hvalid hskip => ?_) (fun t ht hvalid hready a s' => ?_) hok
    · obtain ⟨out, hout, -⟩ := lookup_of_skips (d := d) path ht hvalid hskip (Nat.one_le_two_pow.trans hle)
      exact ⟨out, hout⟩
    · exact (lookup_simulates hd ht hvalid hle hready).mirrors
  | @readdir s s' fuel path out _ hstep hs =>
    have hle : 2 ^ 28 ≤ max fuel (2 ^ 28) := Nat.le_max_right _ _
    have hok := (settles_readdir _ _).of_ok hstep
    refine mounts_readdir.mirrors hd hs (fun t ht hvalid hskip => ?_) (fun t ht hvalid hready a s' => ?_) hok
    · exact readdir_of_skips path ht hvalid hskip (Nat.one_le_two_pow.trans hle)
    · exact (readdir_simulates hd ht hvalid hle hready).mirrors
  | @readFile s s' fuel path offset out _ hstep hs =>
    have hle : 2 ^ 28 ≤ max fuel (2 ^ 28) := Nat.le_max_right _ _
    have hok := (settles_readFile _ _ _).of_ok hstep
    refine mounts_readFile.mirrors hd hs (fun t ht hvalid hskip => ?_) (fun t ht hvalid hready a s' => ?_) hok
    · exact ⟨none, readFile_of_skips path ht hvalid hskip (Nat.one_le_two_pow.trans hle)⟩
    · exact (readFile_simulates hd ht hvalid hle hready).mirrors

/-! ### Coming to an end -/

section Ends

variable {α : Type} {disk : Disk} {d : Driver} {s : Fat32State}

private theorem Settles.ends_iff {op : Nat → Except Fault α} (hop : Settles op) {bad : Prop}
    (hbad : ∀ fuel, 2 ^ 28 ≤ fuel → (op fuel = .error .hang ↔ bad)) : (∃ fuel, op fuel ≠ .error .hang) ↔ ¬ bad := by
  constructor
  · rintro ⟨fuel, hne⟩
    rw [← hbad _ (Nat.le_max_right fuel _), hop fuel _ (Nat.le_max_left _ _) hne]
    exact hne
  · exact fun h => ⟨2 ^ 28, mt (hbad _ le_rfl).1 h⟩

private theorem Settles.survives_iff {op : Nat → Except Fault α} (hop : Settles op) {bad : Prop}
    (hbad : ∀ fuel, 2 ^ 28 ≤ fuel → (op fuel = .error .trap ↔ bad)) : (∀ fuel, op fuel ≠ .error .trap) ↔ ¬ bad := by
  constructor
  · exact fun h => mt (hbad _ le_rfl).2 (h _)
  · intro h fuel htrap
    have hne : op fuel ≠ .error .hang := by
      rw [htrap]
      exact fun h => by cases h
    rw [← hbad _ (Nat.le_max_right fuel _), hop fuel _ (Nat.le_max_left _ _) hne] at h
    exact h htrap

/-- The operations come to an end unless they scan a directory whose clusters run in a circle. -/
theorem terminates_iff (hd : Serves d disk) (hs : Reached d s) (path : Bytes) (offset c : Nat) :
    available d s ≠ .error .hang ∧
    (s.valid = true → ((∃ fuel, scanDir d fuel c s ≠ .error .hang) ↔
      (Blank s ∧ Fat32.clusToLba s.volume c = some maxU32) ∨ ¬ Endless disk s.volume c)) ∧
    ((∃ fuel, lookup d fuel path s ≠ .error .hang) ↔ ∀ v, Fat32.available disk = some (some v) → ¬ Skips s v →
      ∀ c, Visits disk v v.rootClus (trimPath path) c → ¬ Endless disk v c) ∧
    ((∃ fuel, readdir d fuel path s ≠ .error .hang) ↔ ∀ v, Fat32.available disk = some (some v) → ¬ Skips s v →
      (∀ c, Visits disk v v.rootClus (trimPath path) c → ¬ Endless disk v c) ∧
        ∀ fi, lookupIn disk v path = some (some fi) → fi.isDir = true → ¬ Endless disk v fi.firstCluster) ∧
    ((∃ fuel, readFile d fuel path offset s ≠ .error .hang) ↔ ∀ v, Fat32.available disk = some (some v) → ¬ Skips s v →
      ∀ c, Visits disk v v.rootClus (trimPath path) c → ¬ Endless disk v c) := by
  have hmirrors := mirrors_of_reached hd hs
  refine ⟨?_, fun hvalid => ?_, ?_, ?_, ?_⟩
  · rw [Ne, available_error_iff hd hmirrors]
    simp
  · rw [(settles_scanDir c s).ends_iff fun fuel => scanDir_error_iff hd hmirrors hvalid, not_and_or, not_not]
    rfl
  · rw [(settles_lookup path s).ends_iff fun fuel => lookup_error_iff hd hmirrors]
    simp [BadWalk, BadScan]
  · rw [(settles_readdir path s).ends_iff fun fuel => readdir_error_iff hd hmirrors]
    simp [BadReaddir, BadWalk, BadScan, not_or]
  · rw [(settles_readFile path offset s).ends_iff fun fuel => readFile_error_iff hd hmirrors]
    simp [BadRead, BadWalk, BadScan]

end Ends

/-- A driver that serves a disk in chunks of 40 bytes. -/
def exactDriver (disk : Disk) : Driver where
  present := disk.present
  reply _ lba off := (disk.readSector lba).map fun sec => ⟨40, fun j => sec (off + j)⟩

theorem serves_exact (disk : Disk) : Serves (exactDriver disk) disk := by
  constructor
  · rfl
  · intro lba sec hsec n off _
    refine ⟨⟨40, fun j => sec (off + j)⟩, ?_, Nat.succ_pos 39, fun _ _ => rfl⟩
    change Option.map _ (disk.readSector lba) = _
    rw [hsec]
    rfl
  · intro lba hsec n off
    change Option.map _ (disk.readSector lba) = _
    rw [hsec]
    rfl

/-- A volume whose root directory is full of deleted files; its cluster is followed by itself. -/
def loopDisk : Disk where
  present := true
  readSector
    | 0 => some (smallDevice 0)
    | 1 => some fun i => if i = 8 then 2 else 0
    | 2 => some fun _ => 0xE5
    | _ => none

theorem terminates_iff_loop : (∃ fuel, lookup (exactDriver loopDisk) fuel [slash] uninit ≠ .error .hang) ↔
    ∀ v, Fat32.available loopDisk = some (some v) → ¬ Skips uninit v →
      ∀ c, Visits loopDisk v v.rootClus (trimPath [slash]) c → ¬ Endless loopDisk v c :=
  (terminates_iff (serves_exact loopDisk) .start [slash] 0 2).2.2.1

private theorem linkedTo_loop : LinkedTo loopDisk ⟨1, 1, 2, 2⟩ 2 2 := by
  refine ⟨⟨le_rfl, by decide⟩, ⟨2, by decide, fun i hi => ?_⟩, by decide⟩
  obtain rfl : i = 0 := by
    simp only at hi
    omega
  have hne : (0xE5 : Byte) ≠ 0 := by decide
  exact ⟨by decide, fun _ => 0xE5, rfl, fun _ _ => hne⟩

/-- To list the root directory takes for ever. -/
theorem readdir_loop : Serves (exactDriver loopDisk) loopDisk ∧
    ∀ fuel, readdir (exactDriver loopDisk) fuel [slash] uninit = .error .hang := by
  have hd := serves_exact loopDisk
  refine ⟨hd, fun fuel => ?_⟩
  have hbad : BadReaddir loopDisk ⟨1, 1, 2, 2⟩ [slash] .hang :=
    .inr ⟨⟨2, 0, true⟩, by decide, rfl, 2, .refl, .single linkedTo_loop⟩
  have hskips : ¬ Skips uninit ⟨1, 1, 2, 2⟩ := fun h => absurd h.2 (by decide)
  have henough := (readdir_error_iff hd mirrors_uninit (Nat.le_max_right fuel _)).2
    (.inr ⟨⟨1, 1, 2, 2⟩, rfl, hskips, hbad⟩)
  by_contra hne
  exact hne ((settles_readdir [slash] uninit fuel _ (Nat.le_max_left _ _) hne).symm.trans henough)

/-! ### Staying alive -/

/-- The first sector describes a volume, but the number of the first data sector is no `u32`. -/
def BpbOverflows (disk : Disk) : Prop :=
  disk.present = true ∧ ∃ vbr, disk.readSector 0 = some vbr ∧ (vbr 0 = 0xEB ∨ vbr 0 = 0xE9) ∧ le vbr 11 2 = 512 ∧
    vbr 13 ≠ 0 ∧ vbr 16 ≠ 0 ∧ le vbr 36 4 ≠ 0 ∧ (vbr 66 = 0x28 ∨ vbr 66 = 0x29) ∧
    2 ^ 32 ≤ le vbr 14 2 + (vbr 16).toNat * le vbr 36 4

section Traps

variable {disk : Disk} {d : Driver} {s : Fat32State}

theorem parse_eq_none_iff {vbr : Nat → Byte} : parse vbr = none ↔
    (vbr 0 = 0xEB ∨ vbr 0 = 0xE9) ∧ le vbr 11 2 = 512 ∧ vbr 13 ≠ 0 ∧ vbr 16 ≠ 0 ∧ le vbr 36 4 ≠ 0 ∧
      (vbr 66 = 0x28 ∨ vbr 66 = 0x29) ∧ 2 ^ 32 ≤ le vbr 14 2 + (vbr 16).toNat * le vbr 36 4 := by
  unfold parse
  by_cases hjump : vbr 0 ≠ 0xEB ∧ vbr 0 ≠ 0xE9
  · rw [if_pos hjump]
    refine iff_of_false (by simp) fun h => ?_
    tauto
  by_cases hbps : le vbr 11 2 ≠ 512
  · rw [if_neg hjump, if_pos hbps]
    exact iff_of_false (by simp) fun h => hbps h.2.1
  by_cases hspc : vbr 13 = 0
  · rw [if_neg hjump, if_neg hbps, if_pos hspc]
    exact iff_of_false (by simp) fun h => h.2.2.1 hspc
  by_cases hfats : vbr 16 = 0
  · rw [if_neg hjump, if_neg hbps, if_neg hspc, if_pos hfats]
    exact iff_of_false (by simp) fun h => h.2.2.2.1 hfats
  by_cases hsize : le vbr 36 4 = 0
  · rw [if_neg hjump, if_neg hbps, if_neg hspc, if_neg hfats, if_pos hsize]
    exact iff_of_false (by simp) fun h => h.2.2.2.2.1 hsize
  by_cases hsig : vbr 66 ≠ 0x28 ∧ vbr 66 ≠ 0x29
  · rw [if_neg hjump, if_neg hbps, if_neg hspc, if_neg hfats, if_neg hsize, if_pos hsig]
    refine iff_of_false (by simp) fun h => ?_
    tauto
  rw [if_neg hjump, if_neg hbps, if_neg hspc, if_neg hfats, if_neg hsize, if_neg hsig]
  have hjump' : vbr 0 = 0xEB ∨ vbr 0 = 0xE9 := by tauto
  have hsig' : vbr 66 = 0x28 ∨ vbr 66 = 0x29 := by tauto
  simp only [hjump', not_not.1 hbps, hspc, hfats, hsize, hsig', ne_eq, not_false_eq_true, true_and]
  unfold mul32 add32
  generalize (vbr 16).toNat * le vbr 36 4 = fats
  by_cases hmul : fats < 2 ^ 32
  · rw [if_pos hmul]
    simp only [Option.bind_eq_bind, Option.bind_some]
    by_cases hadd : le vbr 14 2 + fats < 2 ^ 32
    · rw [if_pos hadd]
      exact iff_of_false (by simp) (by omega)
    · rw [if_neg hadd]
      exact iff_of_true rfl (by omega)
  · rw [if_neg hmul]
    exact iff_of_true rfl (by omega)

theorem available_eq_none_iff : Fat32.available disk = none ↔ BpbOverflows disk := by
  rw [available_disk_eq]
  unfold BpbOverflows
  by_cases hpresent : disk.present = true
  · rw [if_pos hpresent, and_iff_right hpresent]
    cases disk.readSector 0 with
    | none => simp
    | some vbr => simp [parse_eq_none_iff]
  · simp [hpresent]

/-- The operations do not stop the server unless the first sector overflows, or a cluster that they scan does, or the
cluster that a file is read from. -/
theorem never_traps_iff (hd : Serves d disk) (hs : Reached d s) (path : Bytes) (offset c : Nat) :
    (available d s ≠ .error .trap ↔ ¬ BpbOverflows disk) ∧
    (s.valid = true → ((∀ fuel, scanDir d fuel c s ≠ .error .trap) ↔
      (Blank s ∧ Fat32.clusToLba s.volume c = some maxU32) ∨
        ∀ x, ReflTransGen (LinkedTo disk s.volume) c x → ¬ Overflows disk s.volume x)) ∧
    ((∀ fuel, lookup d fuel path s ≠ .error .trap) ↔ ¬ BpbOverflows disk ∧
      ∀ v, Fat32.available disk = some (some v) → ¬ Skips s v →
        ∀ c, Visits disk v v.rootClus (trimPath path) c → ∀ x, ReflTransGen (LinkedTo disk v) c x → ¬ Overflows disk v x) ∧
    ((∀ fuel, readdir d fuel path s ≠ .error .trap) ↔ ¬ BpbOverflows disk ∧
      ∀ v, Fat32.available disk = some (some v) → ¬ Skips s v →
        (∀ c, Visits disk v v.rootClus (trimPath path) c →
          ∀ x, ReflTransGen (LinkedTo disk v) c x → ¬ Overflows disk v x) ∧
        ∀ fi, lookupIn disk v path = some (some fi) → fi.isDir = true →
          ∀ x, ReflTransGen (LinkedTo disk v) fi.firstCluster x → ¬ Overflows disk v x) ∧
    ((∀ fuel, readFile d fuel path offset s ≠ .error .trap) ↔ ¬ BpbOverflows disk ∧
      ∀ v, Fat32.available disk = some (some v) → ¬ Skips s v →
        (∀ c, Visits disk v v.rootClus (trimPath path) c →
          ∀ x, ReflTransGen (LinkedTo disk v) c x → ¬ Overflows disk v x) ∧
        ∀ fi, lookupIn disk v path = some (some fi) → fi.isDir = false → ¬ FileOverflows disk v fi offset) := by
  have hmirrors := mirrors_of_reached hd hs
  refine ⟨?_, fun hvalid => ?_, ?_, ?_, ?_⟩
  · rw [Ne, available_error_iff hd hmirrors, available_eq_none_iff]
    simp
  · rw [(settles_scanDir c s).survives_iff fun fuel => scanDir_error_iff hd hmirrors hvalid, not_and_or, not_not]
    simp [BadScan]
  · rw [(settles_lookup path s).survives_iff fun fuel => lookup_error_iff hd hmirrors, available_eq_none_iff]
    simp [BadWalk, BadScan]
  · rw [(settles_readdir path s).survives_iff fun fuel => readdir_error_iff hd hmirrors, available_eq_none_iff]
    simp [BadReaddir, BadWalk, BadScan, not_or]
  · rw [(settles_readFile path offset s).survives_iff fun fuel => readFile_error_iff hd hmirrors, available_eq_none_iff]
    simp [BadRead, BadWalk, BadScan, not_or]

end Traps

/-- A volume with two tables of the size `0x80000001`. -/
def greedyDisk : Disk where
  present := true
  readSector
    | 0 => some fun i => if i = 16 then 2 else if i = 39 then 0x80 else smallDevice 0 i
    | _ => none

/-- A volume with one file of 100 bytes whose first cluster is 0. -/
def zeroDisk : Disk where
  present := true
  readSector
    | 0 => some (smallDevice 0)
    | 1 => some (smallDevice 1)
    | 2 => some fun i => if i = 26 then 0 else smallDevice 2 i
    | _ => none

theorem never_traps_iff_greedy : available (exactDriver greedyDisk) uninit ≠ .error .trap ↔ ¬ BpbOverflows greedyDisk :=
  (never_traps_iff (serves_exact greedyDisk) .start [slash] 0 2).1

/-- Looking for the volume stops the server, or reading the file does. -/
theorem available_greedy :
    (Serves (exactDriver greedyDisk) greedyDisk ∧ available (exactDriver greedyDisk) uninit = .error .trap) ∧
      Serves (exactDriver zeroDisk) zeroDisk ∧ readFile (exactDriver zeroDisk) 2 [slash, 0x61] 0 uninit = .error .trap := by
  have htrap : ∀ {α : Type} {x : Except Fault α}, (x matches .error .trap) = true → x = .error .trap := by
    intro α x hx
    cases x with
    | ok => cases hx
    | error f =>
      cases f with
      | trap => rfl
      | hang => cases hx
  exact ⟨⟨serves_exact _, htrap (by decide +kernel)⟩, serves_exact _, htrap (by decide +kernel)⟩

end Rost.Vfs.Fat32State
