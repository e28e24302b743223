import Rost.Vfs.Transparency

/-!
# Operations on a volume

What the operations return, and the faults that they end with: those of the directories that the walk along the path
visits (`Visits`), and for `readFile` the number of the sector where the bytes stand (`FileOverflows`).
-/

namespace Rost.Vfs

namespace Fat32

variable {disk : Disk} {v : Volume}

/-- The walk along a path from a directory scans the directory at `c`. -/
inductive Visits (disk : Disk) (v : Volume) : Nat → Bytes → Nat → Prop
  | here {clus : Nat} {p : Bytes} (hname : (splitFirst p).1 ≠ []) : Visits disk v clus p clus
  | down {clus c : Nat} {p : Bytes} {records : List DirRecord} {r : DirRecord} (hname : (splitFirst p).1 ≠ [])
      (hscan : scanDir disk v clus = some records)
      (hfind : (records.find? fun r => eqCi r.name (splitFirst p).1) = some r) (hdir : r.isDir = true)
      (h : Visits disk v r.firstCluster (splitFirst p).2 c) : Visits disk v clus p c

/-- The number of the sector with the byte at `offset` is no `u32`. -/
def FileOverflows (disk : Disk) (v : Volume) (fi : FileInfo) (offset : Nat) : Prop :=
  offset < fi.size ∧ ∃ c, follow disk v (offset / (v.spc * 512)) fi.firstCluster = some (some c) ∧
    ∀ base, clusToLba v c = some base → 2 ^ 32 ≤ base + offset % (v.spc * 512) / 512

theorem lt_of_lookupFrom {steps clus : Nat} {p : Bytes} {fi : FileInfo}
    (h : lookupFrom disk v steps clus p = some (some fi)) : fi.firstCluster < 2 ^ 32 ∧ fi.size < 2 ^ 32 := by
  induction steps generalizing clus p with
  | zero => cases h
  | succ steps ih =>
    unfold lookupFrom at h
    split at h
    · cases h
    · obtain ⟨records, hscan, h⟩ := Option.bind_eq_some_iff.1 h
      split at h
      · cases h
      · rename_i r hfind
        split at h
        · cases h
          exact (record_of_mem_scanDir hscan (List.mem_of_find?_eq_some hfind)).2
        · split at h
          · exact ih h
          · cases h

theorem lt_of_lookupIn (hv : v.rootClus < 2 ^ 32) {path : Bytes} {fi : FileInfo} (h : lookupIn disk v path = some (some fi)) :
    fi.firstCluster < 2 ^ 32 ∧ fi.size < 2 ^ 32 := by
  unfold lookupIn at h
  split at h
  · cases h
    exact ⟨hv, Nat.two_pow_pos 32⟩
  · exact lt_of_lookupFrom h

/-- `readdir` on a volume. -/
def readdirIn (disk : Disk) (v : Volume) (path : Bytes) : Option (Bool × List DirRecord) :=
  if trimPath path = [] then (scanDir disk v v.rootClus).map fun records => (true, records)
  else do
    match ← lookupIn disk v path with
    | some fi => if fi.isDir then (scanDir disk v fi.firstCluster).map fun records => (true, records) else some (false, [])
    | none => some (false, [])

/-- `readFile` on a volume. -/
def readFileIn (disk : Disk) (v : Volume) (path : Bytes) (offset : Nat) : Option (Option (Nat × Bytes)) := do
  match ← lookupIn disk v path with
  | none => some none
  | some fi =>
    if fi.isDir then some none
    else if fi.size ≤ offset then some (some (fi.size, []))
    else do
      let perClus := v.spc * 512
      match ← follow disk v (offset / perClus) fi.firstCluster with
      | none => some (some (fi.size, []))
      | some clus => do
        let base ← clusToLba v clus
        let lba ← add32 base (offset % perClus / 512)
        match disk.readSector lba with
        | none => some none
        | some sec =>
          let first := offset % perClus % 512
          let n := min (min chunkSize (fi.size - offset)) (512 - first)
          some (some (fi.size, (List.range n).map fun i => sec (first + i)))

theorem readFile_eq_bind (disk : Disk) (path : Bytes) (offset : Nat) :
    readFile disk path offset = (available disk).bind fun found =>
      match found with
      | none => some none
      | some v => readFileIn disk v path offset :=
  rfl

end Fat32

namespace Fat32State

open Blk (Driver)
open Fat32 (DirRecord FileInfo Volume Visits FileOverflows add32 mul32 eoc trimPath lookupIn readdirIn readFileIn)

variable {disk : Disk} {d : Driver}

/-- A fault of a directory that the walk visits. -/
def BadWalk (disk : Disk) (v : Volume) (clus : Nat) (p : Bytes) (f : Fault) : Prop :=
  ∃ c, Visits disk v clus p c ∧ BadScan disk v c f

section Walk

variable {s : Fat32State} {v : Volume} {clus steps fuel : Nat} {p path : Bytes} {f f' : Fault}

theorem badWalk_excl (hv : v.fatLba < 2 ^ 16) (h : BadWalk disk v clus p f) (h' : BadWalk disk v clus p f') : f = f' := by
  obtain ⟨c, hvisits, hbad⟩ := h
  obtain ⟨c', hvisits', hbad'⟩ := h'
  induction hvisits with
  | here hname =>
    cases hvisits' with
    | here => exact badScan_excl hbad hbad'
    | down _ hscan =>
      rw [(scanDir_eq_none_iff_bad hv).2 ⟨f, hbad⟩] at hscan
      cases hscan
  | down hname hscan hfind hdir _ ih =>
    cases hvisits' with
    | here =>
      rw [(scanDir_eq_none_iff_bad hv).2 ⟨f', hbad'⟩] at hscan
      cases hscan
    | down _ hscan' hfind' _ hrest =>
      rw [hscan, Option.some_inj] at hscan'
      subst hscan'
      rw [hfind, Option.some_inj] at hfind'
      subst hfind'
      exact ih hbad hrest

theorem lookupFrom_of_bad (hv : v.fatLba < 2 ^ 16) (h : BadWalk disk v clus p f) (hsteps : p.length < steps) :
    Fat32.lookupFrom disk v steps clus p = none := by
  obtain ⟨c, hvisits, hbad⟩ := h
  induction hvisits generalizing steps with
  | here hname =>
    obtain ⟨steps, rfl⟩ : ∃ k, steps = k + 1 := ⟨steps - 1, by omega⟩
    unfold Fat32.lookupFrom
    rw [if_neg hname, (scanDir_eq_none_iff_bad hv).2 ⟨f, hbad⟩]
    rfl
  | down hname hscan hfind hdir hvisits ih =>
    obtain ⟨steps, rfl⟩ : ∃ k, steps = k + 1 := ⟨steps - 1, by omega⟩
    have hlt := length_splitFirst_lt hname
    have hrest : (splitFirst _).2 ≠ [] := fun hnil => by
      rw [hnil] at hvisits
      cases hvisits with
      | here hname => exact hname rfl
      | down hname => exact hname rfl
    unfold Fat32.lookupFrom
    rw [if_neg hname, hscan]
    simp only [Option.bind_eq_bind, Option.bind_some, hfind]
    rw [if_neg hrest, if_pos hdir]
    exact ih (by omega) hbad

/-- The walk along the path. -/
theorem lookupFrom_simulates (hd : Serves d disk) (hs : Mirrors disk s) (hvalid : s.valid = true) (hfuel : 2 ^ 28 ≤ fuel)
    (hready : Ready disk s clus) :
    Simulates disk s (fun out s' => out ≠ none → Fresh disk s') (BadWalk disk s.volume clus p)
      (lookupFrom d fuel steps clus p s) (Fat32.lookupFrom disk s.volume steps clus p) := by
  induction steps generalizing s clus p with
  | zero => exact .inl ⟨none, s, rfl, rfl, hs.keeps, fun h => absurd rfl h⟩
  | succ steps ih =>
    unfold lookupFrom Fat32.lookupFrom
    by_cases hname : (splitFirst p).1 = []
    · rw [if_pos hname, if_pos hname]
      exact .inl ⟨none, s, rfl, rfl, hs.keeps, fun h => absurd rfl h⟩
    rw [if_neg hname, if_neg hname]
    refine (scanDir_simulates hd hs hvalid hready hfuel).bind (fun f hf => ⟨clus, .here hname, hf⟩) ?_
    intro records t hscan hkeeps hfresh
    simp only
    cases hfind : records.find? fun r => eqCi r.name (splitFirst p).1 with
    | none => exact .inl ⟨none, t, rfl, rfl, hkeeps.mirrors.keeps, fun h => absurd rfl h⟩
    | some r =>
      have ht := hfresh (List.ne_nil_of_mem (List.mem_of_find?_eq_some hfind))
      simp only
      by_cases hrest : (splitFirst p).2 = []
      · rw [if_pos hrest, if_pos hrest]
        exact .inl ⟨_, t, rfl, rfl, hkeeps.mirrors.keeps, fun _ => ht⟩
      rw [if_neg hrest, if_neg hrest]
      by_cases hdir : r.isDir = true
      · rw [if_pos hdir, if_pos hdir]
        rw [← hkeeps.volume]
        refine (ih hkeeps.mirrors (hkeeps.valid.trans hvalid) (.inl ht)).weaken ?_
        rintro f ⟨c, hvisits, hbad⟩
        rw [hkeeps.volume] at hvisits hbad
        rw [hkeeps.volume]
        exact ⟨c, .down hname hscan hfind hdir hvisits, hbad⟩
      · rw [if_neg hdir, if_neg hdir]
        exact .inl ⟨none, t, rfl, rfl, hkeeps.mirrors.keeps, fun h => absurd rfl h⟩

end Walk

/-! ### The operations on a volume -/

section Volume

variable {s : Fat32State} {v : Volume} {fuel n c offset : Nat} {path : Bytes} {f f' : Fault}

theorem lookup_of_valid (hvalid : s.valid = true) : lookup d fuel path s =
    if trimPath path = [] then .ok (some ⟨s.rootClus, 0, true⟩, s)
    else lookupFrom d fuel ((trimPath path).length + 1) s.rootClus (trimPath path) s := by
  unfold lookup
  rw [available_of_valid hvalid]
  rfl

theorem lookup_simulates (hd : Serves d disk) (hs : Mirrors disk s) (hvalid : s.valid = true) (hfuel : 2 ^ 28 ≤ fuel)
    (hready : Ready disk s s.rootClus) :
    Simulates disk s (fun out s' => trimPath path ≠ [] → out ≠ none → Fresh disk s')
      (BadWalk disk s.volume s.rootClus (trimPath path)) (lookup d fuel path s) (lookupIn disk s.volume path) := by
  rw [lookup_of_valid hvalid]
  unfold lookupIn
  by_cases hroot : trimPath path = []
  · rw [if_pos hroot, if_pos hroot]
    exact .inl ⟨_, s, rfl, rfl, hs.keeps, fun h => absurd hroot h⟩
  · rw [if_neg hroot, if_neg hroot]
    rcases lookupFrom_simulates hd hs hvalid hfuel hready with ⟨out, s', hok, hsome, hkeeps, hfresh⟩ | hbad
    · exact .inl ⟨out, s', hok, hsome, hkeeps, fun _ => hfresh⟩
    · exact .inr hbad

theorem lookupIn_of_bad (hv : v.fatLba < 2 ^ 16) (h : BadWalk disk v v.rootClus (trimPath path) f) :
    lookupIn disk v path = none := by
  unfold lookupIn
  split
  · rename_i hroot
    obtain ⟨c, hvisits, -⟩ := h
    rw [hroot] at hvisits
    cases hvisits with
    | here hname => exact absurd rfl hname
    | down hname => exact absurd rfl hname
  · exact lookupFrom_of_bad hv h (Nat.lt_succ_self _)

/-- A fault of a directory that the walk visits, or of the directory that it leads to. -/
def BadReaddir (disk : Disk) (v : Volume) (path : Bytes) (f : Fault) : Prop :=
  BadWalk disk v v.rootClus (trimPath path) f ∨
    ∃ fi, lookupIn disk v path = some (some fi) ∧ fi.isDir = true ∧ BadScan disk v fi.firstCluster f

/-- A fault of a directory that the walk visits, or the overflow for the byte at `offset`. -/
def BadRead (disk : Disk) (v : Volume) (path : Bytes) (offset : Nat) (f : Fault) : Prop :=
  BadWalk disk v v.rootClus (trimPath path) f ∨
    f = .trap ∧ ∃ fi, lookupIn disk v path = some (some fi) ∧ fi.isDir = false ∧ FileOverflows disk v fi offset

theorem badReaddir_excl (hv : v.fatLba < 2 ^ 16) (h : BadReaddir disk v path f) (h' : BadReaddir disk v path f') :
    f = f' := by
  rcases h with hwalk | ⟨fi, hlookup, -, hscan⟩
  · rcases h' with hwalk' | ⟨fi, hlookup, -⟩
    · exact badWalk_excl hv hwalk hwalk'
    · rw [lookupIn_of_bad hv hwalk] at hlookup
      cases hlookup
  · rcases h' with hwalk' | ⟨fi', hlookup', -, hscan'⟩
    · rw [lookupIn_of_bad hv hwalk'] at hlookup
      cases hlookup
    · rw [hlookup] at hlookup'
      cases hlookup'
      exact badScan_excl hscan hscan'

theorem badRead_excl (hv : v.fatLba < 2 ^ 16) (h : BadRead disk v path offset f) (h' : BadRead disk v path offset f') :
    f = f' := by
  rcases h with hwalk | ⟨rfl, fi, hlookup, -⟩
  · rcases h' with hwalk' | ⟨-, fi, hlookup, -⟩
    · exact badWalk_excl hv hwalk hwalk'
    · rw [lookupIn_of_bad hv hwalk] at hlookup
      cases hlookup
  · rcases h' with hwalk' | ⟨rfl, -⟩
    · rw [lookupIn_of_bad hv hwalk'] at hlookup
      cases hlookup
    · rfl

theorem readdirIn_of_bad (hv : v.fatLba < 2 ^ 16) (h : BadReaddir disk v path f) : readdirIn disk v path = none := by
  unfold readdirIn
  rcases h with hwalk | ⟨fi, hlookup, hdir, hscan⟩
  · have hlookup := lookupIn_of_bad hv hwalk
    have hroot : trimPath path ≠ [] := fun hroot => by
      unfold lookupIn at hlookup
      rw [if_pos hroot] at hlookup
      cases hlookup
    rw [if_neg hroot, hlookup]
    rfl
  · have hnone := (scanDir_eq_none_iff_bad hv).2 ⟨f, hscan⟩
    by_cases hroot : trimPath path = []
    · unfold lookupIn at hlookup
      rw [if_pos hroot] at hlookup
      cases hlookup
      rw [if_pos hroot, hnone]
      rfl
    · rw [if_neg hroot, hlookup]
      simp only [Option.bind_eq_bind, Option.bind_some]
      rw [if_pos hdir, hnone]
      rfl

theorem readFileIn_of_bad (hv : v.fatLba < 2 ^ 16) (h : BadRead disk v path offset f) :
    readFileIn disk v path offset = none := by
  unfold readFileIn
  rcases h with hwalk | ⟨-, fi, hlookup, hdir, hlt, c, hfollow, hover⟩
  · rw [lookupIn_of_bad hv hwalk]
    rfl
  · rw [hlookup]
    simp only [Option.bind_eq_bind, Option.bind_some]
    rw [if_neg (by simp [hdir]), if_neg (by omega), hfollow, Option.bind_some]
    simp only
    cases hbase : Fat32.clusToLba v c with
    | none => rfl
    | some base =>
      have hadd : add32 base (offset % (v.spc * 512) / 512) = none := if_neg (Nat.not_lt.2 (hover base hbase))
      rw [Option.bind_some, hadd]
      rfl

/-- The links of a file are followed without a fault. -/
theorem follow_of (hd : Serves d disk) (hs : Mirrors disk s) (hvalid : s.valid = true) (hc : c < 2 ^ 32) :
    ∃ out s', follow d n c s = .ok (out, s') ∧ Fat32.follow disk s.volume n c = some out ∧ Keeps disk s s' := by
  induction n generalizing c s with
  | zero => exact ⟨some c, s, rfl, rfl, hs.keeps⟩
  | succ n ih =>
    obtain ⟨next, t, hnext, hnext', hkeeps⟩ := fatNext_of hd hs hvalid hc
    unfold follow Fat32.follow
    rw [hnext, hnext']
    simp only [ok_bind, Option.bind_eq_bind, Option.bind_some]
    by_cases hend : eoc ≤ next ∨ next < 2
    · rw [if_pos hend, if_pos hend]
      exact ⟨none, t, rfl, rfl, hkeeps⟩
    · rw [if_neg hend, if_neg hend]
      have hlt : next < 2 ^ 32 := (show next < eoc by omega).trans (by decide)
      obtain ⟨out, s', hok, hsome, hkeeps'⟩ := ih hkeeps.mirrors (hkeeps.valid.trans hvalid) hlt
      rw [hkeeps.volume] at hsome
      exact ⟨out, s', hok, hsome, hkeeps.trans hkeeps'⟩

/-- The directory at the path. -/
theorem readdir_simulates (hd : Serves d disk) (hs : Mirrors disk s) (hvalid : s.valid = true) (hfuel : 2 ^ 28 ≤ fuel)
    (hready : Ready disk s s.rootClus) :
    Simulates disk s (fun _ _ => True) (BadReaddir disk s.volume path) (readdir d fuel path s)
      (readdirIn disk s.volume path) := by
  unfold readdir readdirIn
  rw [available_of_valid hvalid, ok_bind]
  simp only
  by_cases hroot : trimPath path = []
  · rw [if_pos hroot, if_pos hroot]
    have hclus : s.volume.rootClus = s.rootClus := rfl
    rcases scanDir_simulates hd hs hvalid hready hfuel with ⟨rs, s', hok, hsome, hkeeps, -⟩ | ⟨f, herr, hnone, hbad⟩
    · exact .inl ⟨(true, rs), s', by rw [hok]; rfl, by rw [hclus, hsome]; rfl, hkeeps, trivial⟩
    · refine .inr ⟨f, by rw [herr]; rfl, by rw [hclus, hnone]; rfl, .inr ⟨⟨s.rootClus, 0, true⟩, ?_, rfl, hbad⟩⟩
      exact if_pos hroot
  · rw [if_neg hroot, if_neg hroot]
    refine (lookup_simulates hd hs hvalid hfuel hready).bind (fun f hf => .inl hf) ?_
    intro found t hlookup hkeeps hfresh
    cases found with
    | none => exact .inl ⟨_, t, rfl, rfl, hkeeps.mirrors.keeps, trivial⟩
    | some fi =>
      simp only
      by_cases hdir : fi.isDir = true
      · rw [if_pos hdir, if_pos hdir]
        have hscan := scanDir_simulates hd hkeeps.mirrors (hkeeps.valid.trans hvalid)
          (.inl (hfresh hroot (Option.some_ne_none fi))) hfuel (c := fi.firstCluster)
        rw [hkeeps.volume] at hscan
        rcases hscan with ⟨rs, s', hok, hsome, hkeeps', -⟩ | ⟨f, herr, hnone, hbad⟩
        · exact .inl ⟨(true, rs), s', by rw [hok]; rfl, by rw [hsome]; rfl, hkeeps', trivial⟩
        · exact .inr ⟨f, by rw [herr]; rfl, by rw [hnone]; rfl, .inr ⟨fi, hlookup, hdir, hbad⟩⟩
      · rw [if_neg hdir, if_neg hdir]
        exact .inl ⟨_, t, rfl, rfl, hkeeps.mirrors.keeps, trivial⟩

/-- The bytes at the offset in the file at the path. -/
theorem readFile_simulates (hd : Serves d disk) (hs : Mirrors disk s) (hvalid : s.valid = true) (hfuel : 2 ^ 28 ≤ fuel)
    (hready : Ready disk s s.rootClus) :
    Simulates disk s (fun _ _ => True) (BadRead disk s.volume path offset) (readFile d fuel path offset s)
      (readFileIn disk s.volume path offset) := by
  unfold readFile readFileIn
  rw [available_of_valid hvalid, ok_bind]
  simp only
  refine (lookup_simulates hd hs hvalid hfuel hready).bind (fun f hf => .inl hf) ?_
  intro found t hlookup hkeeps hfresh
  have ht := hkeeps.valid.trans hvalid
  cases found with
  | none => exact .inl ⟨_, t, rfl, rfl, hkeeps.mirrors.keeps, trivial⟩
  | some fi =>
    simp only
    by_cases hdir : fi.isDir = true
    · rw [if_pos hdir, if_pos hdir]
      exact .inl ⟨_, t, rfl, rfl, hkeeps.mirrors.keeps, trivial⟩
    rw [if_neg hdir, if_neg hdir]
    by_cases hend : fi.size ≤ offset
    · rw [if_pos hend, if_pos hend]
      exact .inl ⟨_, t, rfl, rfl, hkeeps.mirrors.keeps, trivial⟩
    rw [if_neg hend, if_neg hend]
    have hparsed := hs.parsed hvalid
    have hspc : t.spc = s.volume.spc := congrArg Fat32.Volume.spc hkeeps.volume
    have hlt := hparsed.spc_lt
    have hpos := hparsed.spc_pos
    have hmul : mul32 t.spc 512 = some (s.volume.spc * 512) := by
      rw [hspc]
      exact if_pos (by omega)
    rw [hmul, check_some, ok_bind, if_neg (by omega)]
    -- the first cluster comes from a record
    have hfirst := (Fat32.lt_of_lookupIn hparsed.rootClus_lt hlookup).1
    obtain ⟨out, u, hfollow, hfollow', hkeeps'⟩ :=
      follow_of hd hkeeps.mirrors ht hfirst (n := offset / (s.volume.spc * 512))
    rw [hkeeps.volume] at hfollow'
    rw [hfollow, ok_bind, hfollow']
    simp only [Option.bind_eq_bind, Option.bind_some]
    cases out with
    | none => exact .inl ⟨_, u, rfl, rfl, hkeeps', trivial⟩
    | some clus =>
      have hbad : (∀ base, Fat32.clusToLba s.volume clus = some base →
          2 ^ 32 ≤ base + offset % (s.volume.spc * 512) / 512) → BadRead disk s.volume path offset .trap := fun hover =>
        .inr ⟨rfl, fi, hlookup, by simpa using hdir, Nat.lt_of_not_le hend, clus, hfollow', hover⟩
      simp only
      rw [clusToLba_eq, hkeeps'.volume, hkeeps.volume]
      cases hbase : Fat32.clusToLba s.volume clus with
      | none => exact .inr ⟨.trap, rfl, rfl, hbad fun base h => by rw [hbase] at h; cases h⟩
      | some base =>
        simp only [check_some, ok_bind, Option.bind_some]
        by_cases hover : base + offset % (s.volume.spc * 512) / 512 < 2 ^ 32
        · have hadd : add32 base (offset % (s.volume.spc * 512) / 512) =
            some (base + offset % (s.volume.spc * 512) / 512) := if_pos hover
          rw [hadd, check_some, ok_bind, Option.bind_some]
          -- a file has a name, so its directory has been read
          have hroot : trimPath path ≠ [] := by
            intro hroot
            unfold Fat32.lookupIn at hlookup
            rw [if_pos hroot] at hlookup
            cases hlookup
            exact hdir rfl
          have hu := hkeeps'.fresh (hfresh hroot (Option.some_ne_none fi))
          have huvalid := hkeeps'.valid.trans ht
          cases hsec : disk.readSector (base + offset % (s.volume.spc * 512) / 512) with
          | none =>
            obtain ⟨w, hread, hkeeps''⟩ := readSec_of_none hd hkeeps'.mirrors (.inl hu) hsec
            rw [hread]
            exact .inl ⟨_, w, rfl, rfl, hkeeps'.trans hkeeps'', trivial⟩
          | some sec =>
            obtain ⟨w, hread, hkeeps'', -, hcache⟩ := readSec_of_some hd hkeeps'.mirrors huvalid (.inl hu) hsec
            have hbytes := bytesOf_of hcache (offset % (s.volume.spc * 512) % 512)
              (min (min chunkSize (fi.size - offset)) (512 - offset % (s.volume.spc * 512) % 512))
              (by unfold sectorSize; omega)
            rw [hread]
            simp only [hbytes, ok_bind]
            exact .inl ⟨_, w, rfl, rfl, hkeeps'.trans hkeeps'', trivial⟩
        · have hadd : add32 base (offset % (s.volume.spc * 512) / 512) = none := if_neg hover
          rw [hadd]
          refine .inr ⟨.trap, rfl, rfl, hbad fun base' h => ?_⟩
          rw [hbase, Option.some_inj] at h
          omega

end Volume

end Fat32State

end Rost.Vfs
