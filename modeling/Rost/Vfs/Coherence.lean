import Rost.Vfs.Checked
import Rost.Lib.Run

/-!
# The two caches

A refill overwrites the buffer chunk by chunk, and the number of the sector is changed when the last chunk has come.  So
when a refill fails after a chunk, the buffer no longer holds the sector whose number it carries, and the next read of
that sector is answered with a mixture (`sec_cache_mixed`).  The caches tell the truth as long as a refill that fails has
changed nothing (`caches_truthful`).
-/

namespace Rost.Vfs.Fat32State

open Blk (Driver Holds delivered filled)
open Fat32 (DirRecord FileInfo le)
open Lib (Run exec run_of_exec)

variable {d : Driver} {device : Nat → Nat → Byte}

/-- The calls that look at the block device or at a cache. -/
inductive Access
  | available
  | readSec (lba : Nat)
  | fatNext (c : Nat)

inductive Answer
  | ok (b : Bool)
  | next (c : Nat)

def access (d : Driver) (s : Fat32State) : Access → Option (Fat32State × Answer)
  | .available => (available d s).toOption.map fun out => (out.2, .ok out.1)
  | .readSec lba => some ((readSec d lba s).2, .ok (readSec d lba s).1)
  | .fatNext c => (fatNext d c s).toOption.map fun out => (out.2, .next out.1)

/-- The answer agrees with what the device holds: after a successful `readSec` the buffer is the sector, and `fatNext`
returns the entry unless it fails. -/
def Truthful (device : Nat → Nat → Byte) (s s' : Fat32State) : Access → Answer → Prop
  | .readSec lba, .ok true => ∀ i, s'.secCache i = device lba i
  | .fatNext c, .next n => n ≠ maxU32 → n = le (device (s.fatSector c)) (c * 4 % 512) 4 % 2 ^ 28
  | _, _ => True

/-- A refill of a buffer that holds the sector `tag` with the sector `lba` brings all of it, or nothing new. -/
def RefillKeeps (d : Driver) (device : Nat → Nat → Byte) (s : Fat32State) (tag lba : Nat) (buf : Sector) : Prop :=
  tag ≠ lba → tag ≠ maxU32 → delivered d lba s.calls = sectorSize ∨
    ∀ i : Fin sectorSize, i < delivered d lba s.calls → device lba i = buf i

/-- The arguments are `u32`s, a refill that fails has changed nothing, and the sector whose number stands for an empty
cache is not asked for while the cache carries that number and does not hold the sector. -/
def Harmless (d : Driver) (device : Nat → Nat → Byte) (s : Fat32State) : Access → Prop
  | .available => True
  | .readSec lba => lba < 2 ^ 32 ∧ RefillKeeps d device s s.secClba lba s.secCache ∧
      (lba = maxU32 → s.secClba = maxU32 → ∀ i, s.secCache i = device lba i)
  | .fatNext c => c < 2 ^ 32 ∧ RefillKeeps d device s s.fatClba (s.fatSector c) s.fatCache

/-- A buffer holds the sector whose number it carries. -/
structure Coherent (device : Nat → Nat → Byte) (s : Fat32State) : Prop where
  sec : s.secClba ≠ maxU32 → ∀ i, s.secCache i = device s.secClba i
  fat : s.fatClba ≠ maxU32 → ∀ i, s.fatCache i = device s.fatClba i
  fatLba : s.fatLba < 2 ^ 16

theorem coherent_uninit : Coherent device uninit := ⟨fun h => absurd rfl h, fun h => absurd rfl h, by decide⟩

/-! ### One access -/

section Access

variable {s s' : Fat32State} {lba c n : Nat} {a : Access} {r : Answer}

theorem readSec_of_hit (h : s.secClba = lba) : readSec d lba s = (true, s) := if_pos h

theorem readSec_of_miss (hd : Holds d device) (h : s.secClba ≠ lba) : ∃ calls, readSec d lba s =
    if delivered d lba s.calls = sectorSize then
      (true, { s with secCache := fun i => device lba i, secClba := lba, calls := calls })
    else (false, { s with secCache := filled s.secCache (device lba) (delivered d lba s.calls), calls := calls }) := by
  obtain ⟨calls, hread⟩ := Blk.readSector_of_holds hd lba s.calls s.secCache
  refine ⟨calls, ?_⟩
  unfold readSec
  rw [if_neg h, hread]
  by_cases hall : delivered d lba s.calls = sectorSize
  · have hbuf : filled s.secCache (device lba) sectorSize = fun i : Fin sectorSize => device lba i := by
      funext i
      exact if_pos i.isLt
    rw [if_pos hall, decide_eq_true hall, hall, hbuf]
  · rw [if_neg hall, decide_eq_false hall]

theorem readFatSec_of_hit (h : s.fatClba = lba) : readFatSec d lba s = (true, s) := if_pos h

theorem readFatSec_of_miss (hd : Holds d device) (h : s.fatClba ≠ lba) : ∃ calls, readFatSec d lba s =
    if delivered d lba s.calls = sectorSize then
      (true, { s with fatCache := fun i => device lba i, fatClba := lba, calls := calls })
    else (false, { s with fatCache := filled s.fatCache (device lba) (delivered d lba s.calls), calls := calls }) := by
  obtain ⟨calls, hread⟩ := Blk.readSector_of_holds hd lba s.calls s.fatCache
  refine ⟨calls, ?_⟩
  unfold readFatSec
  rw [if_neg h, hread]
  by_cases hall : delivered d lba s.calls = sectorSize
  · have hbuf : filled s.fatCache (device lba) sectorSize = fun i : Fin sectorSize => device lba i := by
      funext i
      exact if_pos i.isLt
    rw [if_pos hall, decide_eq_true hall, hall, hbuf]
  · rw [if_neg hall, decide_eq_false hall]

/-- A buffer after a failed refill still holds the sector whose number it carries. -/
private theorem filled_of_keeps {tag : Nat} {buf : Sector} (hkeeps : RefillKeeps d device s tag lba buf) (htag : tag ≠ lba)
    (hmax : tag ≠ maxU32) (hfail : delivered d lba s.calls ≠ sectorSize) :
    filled buf (device lba) (delivered d lba s.calls) = buf := by
  obtain hall | hsame := hkeeps htag hmax
  · exact absurd hall hfail
  · funext i
    unfold filled
    by_cases hi : i < delivered d lba s.calls
    · rw [if_pos hi, hsame i hi]
    · rw [if_neg hi]

private theorem Coherent.readSec (hs : Coherent device s) (hd : Holds d device)
    (hkeeps : RefillKeeps d device s s.secClba lba s.secCache) : Coherent device (readSec d lba s).2 := by
  by_cases hhit : s.secClba = lba
  · rw [readSec_of_hit hhit]
    exact hs
  · obtain ⟨calls, hmiss⟩ := readSec_of_miss hd hhit
    rw [hmiss]
    by_cases hall : delivered d lba s.calls = sectorSize
    · rw [if_pos hall]
      exact ⟨fun _ _ => rfl, hs.fat, hs.fatLba⟩
    · rw [if_neg hall]
      refine ⟨fun hmax => ?_, hs.fat, hs.fatLba⟩
      simp only
      rw [filled_of_keeps hkeeps hhit hmax hall]
      exact hs.sec hmax

private theorem Coherent.readFatSec (hs : Coherent device s) (hd : Holds d device)
    (hkeeps : RefillKeeps d device s s.fatClba lba s.fatCache) : Coherent device (readFatSec d lba s).2 := by
  by_cases hhit : s.fatClba = lba
  · rw [readFatSec_of_hit hhit]
    exact hs
  · obtain ⟨calls, hmiss⟩ := readFatSec_of_miss hd hhit
    rw [hmiss]
    by_cases hall : delivered d lba s.calls = sectorSize
    · rw [if_pos hall]
      exact ⟨hs.sec, fun _ _ => rfl, hs.fatLba⟩
    · rw [if_neg hall]
      refine ⟨hs.sec, fun hmax => ?_, hs.fatLba⟩
      simp only
      rw [filled_of_keeps hkeeps hhit hmax hall]
      exact hs.fat hmax

private theorem Coherent.fatCache_eq (hs : Coherent device s) (hd : Holds d device) (hmax : lba ≠ maxU32)
    (hok : (Fat32State.readFatSec d lba s).1 = true) (i : Fin sectorSize) :
    device lba i = (Fat32State.readFatSec d lba s).2.fatCache i := by
  by_cases hhit : s.fatClba = lba
  · rw [readFatSec_of_hit hhit, ← hhit]
    exact (hs.fat (fun h => hmax (hhit.symm.trans h)) i).symm
  · obtain ⟨calls, hmiss⟩ := readFatSec_of_miss hd hhit
    rw [hmiss] at hok ⊢
    by_cases hall : delivered d lba s.calls = sectorSize
    · rw [if_pos hall]
    · rw [if_neg hall] at hok
      cases hok

/-- The caches stay coherent. -/
theorem Coherent.access (hs : Coherent device s) (hd : Holds d device) (hharm : Harmless d device s a)
    (hstep : access d s a = some (s', r)) : Coherent device s' := by
  cases a with
  | available =>
    obtain ⟨⟨b, t⟩, hav, heq⟩ := Option.map_eq_some_iff.1 hstep
    cases heq
    have hav : Fat32State.available d s = .ok (b, t) := by
      cases hres : Fat32State.available d s with
      | error => rw [hres] at hav; cases hav
      | ok out => rw [hres] at hav; cases hav; rfl
    obtain ⟨calls, rfl⟩ | ⟨calls, v, hv, -, rfl⟩ := available_cases hav
    · exact ⟨hs.sec, hs.fat, hs.fatLba⟩
    · exact ⟨hs.sec, hs.fat, hv.fatLba_lt⟩
  | readSec lba =>
    cases hstep
    exact hs.readSec hd hharm.2.1
  | fatNext c =>
    obtain ⟨⟨n, t⟩, hnext, heq⟩ := Option.map_eq_some_iff.1 hstep
    cases heq
    rw [fatNext_eq hs.fatLba hharm.1 (ext_eq _)] at hnext
    cases hnext
    exact hs.readFatSec hd hharm.2

/-- The answer of a harmless access is true. -/
theorem Coherent.truthful (hs : Coherent device s) (hd : Holds d device) (hharm : Harmless d device s a)
    (hstep : Fat32State.access d s a = some (s', r)) : Truthful device s s' a r := by
  cases a with
  | available =>
    obtain ⟨⟨b, t⟩, -, heq⟩ := Option.map_eq_some_iff.1 hstep
    cases heq
    trivial
  | readSec lba =>
    cases hstep
    by_cases hhit : s.secClba = lba
    · rw [readSec_of_hit hhit]
      intro i
      by_cases hmax : lba = maxU32
      · exact hharm.2.2 hmax (hhit.trans hmax) i
      · rw [← hhit]
        exact hs.sec (fun h => hmax (hhit.symm.trans h)) i
    · obtain ⟨calls, hmiss⟩ := readSec_of_miss hd hhit
      rw [hmiss]
      by_cases hall : delivered d lba s.calls = sectorSize
      · rw [if_pos hall]
        exact fun _ => rfl
      · rw [if_neg hall]
        trivial
  | fatNext c =>
    obtain ⟨⟨n, t⟩, hnext, heq⟩ := Option.map_eq_some_iff.1 hstep
    cases heq
    by_cases hok : (Fat32State.readFatSec d (s.fatSector c) s).1 = true
    · have hlba := hs.fatLba
      have hc := hharm.1
      have hmax : s.fatSector c ≠ maxU32 := by
        unfold fatSector maxU32
        omega
      rw [fatNext_eq hlba hc (hs.fatCache_eq hd hmax hok), if_pos hok] at hnext
      cases hnext
      exact fun _ => rfl
    · rw [fatNext_eq hs.fatLba hharm.1 (ext_eq _), if_neg hok] at hnext
      cases hnext
      exact fun h => absurd rfl h

end Access

/-! ### A device with a file that cannot be read -/

/-- A volume with one file `a` of 100 bytes, in sector 3; the root directory is sector 2. -/
def smallDevice : Nat → Nat → Byte
  | 0, 0 => 0xEB
  | 0, 12 => 0x02
  | 0, 13 => 1
  | 0, 14 => 1
  | 0, 16 => 1
  | 0, 36 => 1
  | 0, 44 => 2
  | 0, 66 => 0x28
  | 1, 8 => 0xFF
  | 1, 9 => 0xFF
  | 1, 10 => 0xFF
  | 1, 11 => 0x0F
  | 2, 0 => 0x41
  | 2, 11 => 0x20
  | 2, 26 => 3
  | 2, 28 => 100
  | 2, i => if i < 11 then 0x20 else 0
  | 3, _ => 0x55
  | _, _ => 0

/-- A driver for it that can read the first 40 bytes of sector 3 only. -/
def halfDriver : Driver where
  present := true
  reply _ lba off := if lba = 3 ∧ 40 ≤ off then none else some ⟨40, fun j => smallDevice lba (off + j)⟩

theorem halfDriver_holds : Holds halfDriver smallDevice := by
  intro n lba off c hreply j _
  obtain ⟨-, hchunk⟩ := Option.ite_none_left_eq_some.1 hreply
  cases hchunk
  rfl

/-! ### Runs -/

/-- In a run whose accesses are all harmless, every answer is true. -/
theorem caches_truthful (hd : Holds d device) {es : List (Access × Answer)} {s s' : Fat32State} {a : Access} {r : Answer}
    (hrun : Run (access d) (Harmless d device) uninit es s) (hharm : Harmless d device s a)
    (hstep : access d s a = some (s', r)) : Truthful device s s' a r := by
  have hs : Coherent device s := hrun.invariant (fun hs hharm hstep => hs.access hd hharm hstep) coherent_uninit
  exact hs.truthful hd hharm hstep

theorem caches_truthful_small : ∃ es s s' r, Run (access halfDriver) (Harmless halfDriver smallDevice) uninit es s ∧
    access halfDriver s (.fatNext 2) = some (s', r) ∧ Truthful smallDevice s s' (.fatNext 2) r := by
  have hfirst : Harmless halfDriver smallDevice uninit (.readSec 2) :=
    ⟨by decide, fun _ h => absurd rfl h, fun h => absurd h (by decide)⟩
  have hsecond : Harmless halfDriver smallDevice (readSec halfDriver 2 uninit).2 (.fatNext 2) :=
    ⟨by decide, fun _ h => absurd rfl h⟩
  have hrun : Run (access halfDriver) (Harmless halfDriver smallDevice) uninit _ _ := Run.single hfirst rfl
  obtain ⟨⟨s', r⟩, hstep⟩ := Option.isSome_iff_exists.1
    (show (access halfDriver (readSec halfDriver 2 uninit).2 (.fatNext 2)).isSome = true by decide +kernel)
  exact ⟨_, _, s', r, hrun, hstep, caches_truthful halfDriver_holds hrun hsecond hstep⟩

/-! ### The operations -/

/-- The second state comes from the first by calls that look at the device or at a cache. -/
def Accesses (d : Driver) (s s' : Fat32State) : Prop := ∃ es, Run (access d) (fun _ _ => True) s es s'

section Operations

variable {s t s' : Fat32State}

theorem Accesses.refl (s : Fat32State) : Accesses d s s := ⟨[], .nil s⟩

theorem Accesses.trans (h₁ : Accesses d s t) (h₂ : Accesses d t s') : Accesses d s s' := by
  obtain ⟨es, hrun₁⟩ := h₁
  obtain ⟨fs, hrun₂⟩ := h₂
  exact ⟨es ++ fs, hrun₁.append hrun₂⟩

private theorem accesses_available {b : Bool} (h : available d s = .ok (b, s')) : Accesses d s s' :=
  ⟨_, Run.single (i := .available) (r := .ok b) trivial (by simp [access, h, Except.toOption])⟩

private theorem accesses_readSec (lba : Nat) (s : Fat32State) : Accesses d s (readSec d lba s).2 :=
  ⟨_, Run.single (i := .readSec lba) trivial rfl⟩

private theorem accesses_fatNext {c n : Nat} (h : fatNext d c s = .ok (n, s')) : Accesses d s s' :=
  ⟨_, Run.single (i := .fatNext c) (r := .next n) trivial (by simp [access, h, Except.toOption])⟩

private theorem accesses_scanSectors {base : Nat} {is : List Nat} {l : LfnBuf} {out : List DirRecord × Option LfnBuf}
    (h : scanSectors d base is l s = .ok (out, s')) : Accesses d s s' := by
  induction is generalizing l s out with
  | nil =>
    cases h
    exact .refl _
  | cons i is ih =>
    unfold scanSectors at h
    obtain ⟨lba, -, h⟩ := bind_eq_ok.1 h
    have hread := accesses_readSec (d := d) lba s
    rcases hres : readSec d lba s with ⟨ok, t⟩
    rw [hres] at h hread
    cases ok with
    | false =>
      cases h
      exact hread
    | true =>
      obtain ⟨⟨rs, l'⟩, -, h⟩ := bind_eq_ok.1 h
      cases l' with
      | none =>
        cases h
        exact hread
      | some l' =>
        obtain ⟨⟨out', t'⟩, hrest, h⟩ := bind_eq_ok.1 h
        cases h
        exact hread.trans (ih hrest)

private theorem accesses_scanChain {fuel clus : Nat} {l : LfnBuf} {rs : List DirRecord}
    (h : scanChain d fuel clus l s = .ok (rs, s')) : Accesses d s s' := by
  induction fuel generalizing clus l s rs with
  | zero => cases h
  | succ fuel ih =>
    unfold scanChain at h
    split at h
    · cases h
      exact .refl _
    · obtain ⟨base, -, h⟩ := bind_eq_ok.1 h
      obtain ⟨⟨⟨rs₁, l'⟩, t⟩, hsectors, h⟩ := bind_eq_ok.1 h
      have hcluster := accesses_scanSectors hsectors
      cases l' with
      | none =>
        cases h
        exact hcluster
      | some l' =>
        obtain ⟨⟨next, t'⟩, hnext, h⟩ := bind_eq_ok.1 h
        obtain ⟨⟨rs₂, t''⟩, hrest, h⟩ := bind_eq_ok.1 h
        cases h
        exact (hcluster.trans (accesses_fatNext hnext)).trans (ih hrest)

private theorem accesses_lookupFrom {fuel steps clus : Nat} {p : Bytes} {out : Option FileInfo}
    (h : lookupFrom d fuel steps clus p s = .ok (out, s')) : Accesses d s s' := by
  induction steps generalizing clus p s with
  | zero =>
    cases h
    exact .refl _
  | succ steps ih =>
    unfold lookupFrom at h
    split at h
    · cases h
      exact .refl _
    · obtain ⟨⟨records, t⟩, hscan, h⟩ := bind_eq_ok.1 h
      have hdir := accesses_scanChain hscan
      simp only at h
      split at h
      · cases h
        exact hdir
      · split at h
        · cases h
          exact hdir
        · split at h
          · exact hdir.trans (ih h)
          · cases h
            exact hdir

/-- `lookup` does not touch the caches but by these calls. -/
theorem accesses_lookup {fuel : Nat} {path : Bytes} {out : Option FileInfo}
    (h : lookup d fuel path s = .ok (out, s')) : Accesses d s s' := by
  obtain ⟨⟨b, t⟩, hav, h⟩ := bind_eq_ok.1 h
  have hfirst := accesses_available hav
  cases b with
  | false =>
    cases h
    exact hfirst
  | true =>
    simp only at h
    split at h
    · cases h
      exact hfirst
    · exact hfirst.trans (accesses_lookupFrom h)

theorem accesses_readdir {fuel : Nat} {path : Bytes} {out : Bool × List DirRecord}
    (h : readdir d fuel path s = .ok (out, s')) : Accesses d s s' := by
  obtain ⟨⟨b, t⟩, hav, h⟩ := bind_eq_ok.1 h
  have hfirst := accesses_available hav
  cases b with
  | false =>
    cases h
    exact hfirst
  | true =>
    simp only at h
    split at h
    · obtain ⟨⟨records, t'⟩, hscan, h⟩ := bind_eq_ok.1 h
      cases h
      exact hfirst.trans (accesses_scanChain hscan)
    · obtain ⟨⟨found, t'⟩, hlookup, h⟩ := bind_eq_ok.1 h
      have hsecond := hfirst.trans (accesses_lookup hlookup)
      cases found with
      | none =>
        cases h
        exact hsecond
      | some fi =>
        simp only at h
        split at h
        · obtain ⟨⟨records, t''⟩, hscan, h⟩ := bind_eq_ok.1 h
          cases h
          exact hsecond.trans (accesses_scanChain hscan)
        · cases h
          exact hsecond

private theorem accesses_follow {n clus : Nat} {out : Option Nat} (h : follow d n clus s = .ok (out, s')) :
    Accesses d s s' := by
  induction n generalizing clus s with
  | zero =>
    cases h
    exact .refl _
  | succ n ih =>
    unfold follow at h
    obtain ⟨⟨next, t⟩, hnext, h⟩ := bind_eq_ok.1 h
    simp only at h
    split at h
    · cases h
      exact accesses_fatNext hnext
    · exact (accesses_fatNext hnext).trans (ih h)

theorem accesses_readFile {fuel offset : Nat} {path : Bytes} {out : Option (Nat × Bytes)}
    (h : readFile d fuel path offset s = .ok (out, s')) : Accesses d s s' := by
  obtain ⟨⟨b, t⟩, hav, h⟩ := bind_eq_ok.1 h
  have hfirst := accesses_available hav
  cases b with
  | false =>
    cases h
    exact hfirst
  | true =>
    obtain ⟨⟨found, t'⟩, hlookup, h⟩ := bind_eq_ok.1 h
    have hsecond := hfirst.trans (accesses_lookup hlookup)
    cases found with
    | none =>
      cases h
      exact hsecond
    | some fi =>
      simp only at h
      split at h
      · cases h
        exact hsecond
      · split at h
        · cases h
          exact hsecond
        · obtain ⟨perClus, -, h⟩ := bind_eq_ok.1 h
          split at h
          · cases h
          · obtain ⟨⟨reached, t''⟩, hfollow, h⟩ := bind_eq_ok.1 h
            have hthird := hsecond.trans (accesses_follow hfollow)
            cases reached with
            | none =>
              cases h
              exact hthird
            | some clus =>
              obtain ⟨base, -, h⟩ := bind_eq_ok.1 h
              obtain ⟨lba, -, h⟩ := bind_eq_ok.1 h
              have hread := hthird.trans (accesses_readSec lba t'')
              rcases hres : readSec d lba t'' with ⟨ok, u⟩
              rw [hres] at h hread
              cases ok with
              | false =>
                cases h
                exact hread
              | true =>
                obtain ⟨bytes, -, h⟩ := bind_eq_ok.1 h
                cases h
                exact hread

end Operations

/-! ### A directory in disorder -/

/-- List the root directory, and then read the file. -/
def listThenRead : Except Fault (Option (Nat × Bytes) × Fat32State) := do
  let (_, s) ← readdir halfDriver 2 [slash] uninit
  readFile halfDriver 2 [slash, 0x61] 0 s

/-- The read of the file fails, and the start of the file stands in the cached sector of the directory. -/
theorem sec_cache_mixed : ∃ s, Accesses halfDriver uninit s ∧ Holds halfDriver smallDevice ∧
    ¬ ∀ s' r, access halfDriver s (.readSec 2) = some (s', r) → Truthful smallDevice s s' (.readSec 2) r := by
  have hrun : (match listThenRead with
      | .ok (none, s) => (readSec halfDriver 2 s).1 && (readSec halfDriver 2 s).2.secCache ⟨0, by decide⟩ == 0x55
      | _ => false) = true := by decide +kernel
  unfold listThenRead at hrun
  split at hrun
  · rename_i s hops
    obtain ⟨⟨out, t⟩, hdir, hfile⟩ := bind_eq_ok.1 hops
    rw [Bool.and_eq_true] at hrun
    refine ⟨s, (accesses_readdir hdir).trans (accesses_readFile hfile), halfDriver_holds, fun htrue => ?_⟩
    have hcache := htrue _ _ rfl
    rw [hrun.1] at hcache
    have hbyte := hcache ⟨0, by decide⟩
    rw [eq_of_beq hrun.2] at hbyte
    exact absurd hbyte (by decide)
  · cases hrun

end Rost.Vfs.Fat32State
