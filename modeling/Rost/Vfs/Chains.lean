import Rost.Vfs.Checked
import Rost.Lib.Following

/-!
# The chain of a directory

The scan of a directory goes from one cluster to the next as long as all sectors of the cluster can be read and no entry
ends the directory (`LinkedTo`).  It does not come to an end exactly if this leads to a cluster where a sum overflows, or
back to a cluster where it has been (`scanDir_eq_none_iff`).
-/

namespace Rost.Vfs.Fat32

open Lib (cycle_of_long_chain)
open Relation (ReflTransGen TransGen)

/-- The scan goes on behind the sector. -/
def GoesOn (disk : Disk) (lba : Nat) : Prop := ∃ sec, disk.readSector lba = some sec ∧ ∀ i < 16, sec (i * 32) ≠ 0

def InRange (c : Nat) : Prop := 2 ≤ c ∧ c < eoc

/-- The scan goes from the cluster `c` to the cluster `c'`. -/
structure LinkedTo (disk : Disk) (v : Volume) (c c' : Nat) : Prop where
  range : InRange c
  sectors : ∃ base, clusToLba v c = some base ∧ ∀ i < v.spc, base + i < 2 ^ 32 ∧ GoesOn disk (base + i)
  next : fatNext disk v c = some c'

/-- The number of the first sector of the cluster, or of one that the scan comes to in it, is no `u32`. -/
def Overflows (disk : Disk) (v : Volume) (c : Nat) : Prop :=
  InRange c ∧ ∀ base, clusToLba v c = some base → ∃ i < v.spc, 2 ^ 32 ≤ base + i ∧ ∀ j < i, GoesOn disk (base + j)

/-- The clusters that the scan comes to run in a circle. -/
def Endless (disk : Disk) (v : Volume) (c : Nat) : Prop :=
  ∃ x, ReflTransGen (LinkedTo disk v) c x ∧ TransGen (LinkedTo disk v) x x

variable {disk : Disk} {v : Volume} {c c' : Nat}

theorem LinkedTo.det {c'' : Nat} (h : LinkedTo disk v c c') (h' : LinkedTo disk v c c'') : c' = c'' :=
  Option.some.inj (h.next.symm.trans h'.next)

theorem LinkedTo.not_overflows (h : LinkedTo disk v c c') : ¬ Overflows disk v c := by
  intro hover
  obtain ⟨base, hbase, hsectors⟩ := h.sectors
  obtain ⟨i, hi, hge, -⟩ := hover.2 base hbase
  have hlt := (hsectors i hi).1
  omega

/-- A circle is not left. -/
theorem Endless.next (h : Endless disk v c) : ∃ c', LinkedTo disk v c c' ∧ Endless disk v c' := by
  obtain ⟨x, hreach, hcycle⟩ := h
  rcases hreach.cases_head with rfl | ⟨c', hlink, hrest⟩
  · obtain ⟨c', hlink, hrest⟩ := TransGen.head'_iff.1 hcycle
    exact ⟨c', hlink, c, hrest, hcycle⟩
  · exact ⟨c', hlink, x, hrest, hcycle⟩

theorem Endless.not_reaches (h : Endless disk v c) {x : Nat} (hreach : ReflTransGen (LinkedTo disk v) c x) :
    ¬ Overflows disk v x := by
  induction hreach using ReflTransGen.head_induction_on with
  | refl =>
    obtain ⟨c', hlink, -⟩ := h.next
    exact hlink.not_overflows
  | head hlink _ ih =>
    obtain ⟨c'', hlink', hendless⟩ := h.next
    rw [← hlink.det hlink'] at hendless
    exact ih hendless

/-! ### One cluster -/

section Cluster

variable {sec : Nat → Byte} {l : Lfn} {base : Nat}

theorem readEntry_eq_none_iff {e : Nat → Byte} : readEntry l e = none ↔ e 0 = 0 := by
  unfold readEntry
  constructor
  · intro h
    by_contra hne
    rw [if_neg hne] at h
    split at h
    · cases h
    split at h
    · split at h
      · cases h
      · split at h <;> cases h
    split at h
    · cases h
    split at h <;> cases h
  · intro h
    rw [if_pos h]

theorem scanEntries_goesOn_iff {is : List Nat} :
    ((scanEntries sec is l).2).isSome ↔ ∀ i ∈ is, sec (i * 32) ≠ 0 := by
  induction is generalizing l with
  | nil => simp [scanEntries]
  | cons i is ih =>
    unfold scanEntries
    cases hread : readEntry l fun j => sec (i * 32 + j) with
    | none =>
      have hzero := readEntry_eq_none_iff.1 hread
      simp only [Nat.add_zero] at hzero
      simp [hzero]
    | some p =>
      have hne : sec (i * 32) ≠ 0 := fun hzero => by
        rw [readEntry_eq_none_iff.2 hzero] at hread
        cases hread
      rw [List.forall_mem_cons, ih]
      exact (and_iff_right hne).symm

/-- A sector from which the scan goes on. -/
theorem goesOn_iff {lba : Nat} (h : disk.readSector lba = some sec) :
    GoesOn disk lba ↔ ((scanEntries sec (List.range 16) l).2).isSome := by
  rw [scanEntries_goesOn_iff]
  constructor
  · rintro ⟨sec', hread, hsec'⟩
    rw [h, Option.some_inj] at hread
    subst hread
    exact fun i hi => hsec' i (List.mem_range.1 hi)
  · exact fun hall => ⟨sec, h, fun i hi => hall i (List.mem_range.2 hi)⟩

theorem scanSectors_of_overflow {i : Nat} (is : List Nat) (h : 2 ^ 32 ≤ base + i) :
    scanSectors disk base (i :: is) l = none := by
  unfold scanSectors add32
  rw [if_neg (by omega)]
  rfl

theorem scanSectors_of_stop {i : Nat} (is : List Nat) (hlt : base + i < 2 ^ 32) (h : ¬ GoesOn disk (base + i)) :
    ∃ rs, scanSectors disk base (i :: is) l = some (rs, none) := by
  unfold scanSectors add32
  rw [if_pos hlt]
  simp only [Option.bind_eq_bind, Option.bind_some]
  cases hread : disk.readSector (base + i) with
  | none => exact ⟨[], rfl⟩
  | some sec =>
    rw [goesOn_iff (l := l) hread] at h
    simp only
    rcases hscan : scanEntries sec (List.range 16) l with ⟨rs, l'⟩
    rw [hscan] at h
    cases l' with
    | none => exact ⟨rs, rfl⟩
    | some l' => exact absurd rfl h

theorem scanSectors_of_goesOn {i : Nat} (is : List Nat) (hlt : base + i < 2 ^ 32) (h : GoesOn disk (base + i)) :
    ∃ rs l', scanSectors disk base (i :: is) l = (scanSectors disk base is l').map fun p => (rs ++ p.1, p.2) := by
  obtain ⟨sec, hread, hsec⟩ := h
  have hgoes := (goesOn_iff (l := l) hread).1 ⟨sec, hread, hsec⟩
  rw [scanSectors, add32, if_pos hlt]
  simp only [Option.bind_eq_bind, Option.bind_some, hread]
  rcases hscan : scanEntries sec (List.range 16) l with ⟨rs, l'⟩
  rw [hscan] at hgoes
  cases l' with
  | none => cases hgoes
  | some l' =>
    refine ⟨rs, l', ?_⟩
    simp only
    cases scanSectors disk base is l' <;> rfl

/-- The sectors from `k` on overflow if an overflow is the first thing that the scan comes to. -/
theorem scanSectors_eq_none_iff {k n : Nat} : scanSectors disk base (List.range' k n) l = none ↔
    ∃ i, k ≤ i ∧ i < k + n ∧ 2 ^ 32 ≤ base + i ∧ ∀ j, k ≤ j → j < i → GoesOn disk (base + j) := by
  induction n generalizing k l with
  | zero =>
    refine iff_of_false (by simp [scanSectors]) ?_
    rintro ⟨i, hle, hlt, -⟩
    omega
  | succ n ih =>
    rw [List.range'_succ]
    by_cases hlt : base + k < 2 ^ 32
    · by_cases hgoes : GoesOn disk (base + k)
      · obtain ⟨rs, l', hstep⟩ := scanSectors_of_goesOn (l := l) (List.range' (k + 1) n) hlt hgoes
        rw [hstep, Option.map_eq_none_iff, ih]
        constructor
        · rintro ⟨i, hle, hn, hge, hall⟩
          refine ⟨i, by omega, by omega, hge, fun j hj hji => ?_⟩
          rcases hj.eq_or_lt with rfl | hj
          · exact hgoes
          · exact hall j hj hji
        · rintro ⟨i, hle, hn, hge, hall⟩
          have hne : i ≠ k := fun heq => by
            rw [heq] at hge
            omega
          exact ⟨i, by omega, by omega, hge, fun j hj hji => hall j (by omega) hji⟩
      · obtain ⟨rs, hstep⟩ := scanSectors_of_stop (l := l) (List.range' (k + 1) n) hlt hgoes
        rw [hstep]
        refine iff_of_false (by simp) ?_
        rintro ⟨i, hle, -, hge, hall⟩
        rcases hle.eq_or_lt with rfl | hlt'
        · omega
        · exact hgoes (hall k le_rfl hlt')
    · rw [scanSectors_of_overflow _ (Nat.not_lt.1 hlt)]
      refine iff_of_true rfl ⟨k, le_rfl, by omega, Nat.not_lt.1 hlt, fun j hj hjk => ?_⟩
      omega

theorem scanSectors_goesOn_iff {k n : Nat} : (∃ rs l', scanSectors disk base (List.range' k n) l = some (rs, some l')) ↔
    ∀ i, k ≤ i → i < k + n → base + i < 2 ^ 32 ∧ GoesOn disk (base + i) := by
  induction n generalizing k l with
  | zero =>
    refine iff_of_true ⟨[], l, rfl⟩ fun i hle hlt => ?_
    omega
  | succ n ih =>
    rw [List.range'_succ]
    by_cases hboth : base + k < 2 ^ 32 ∧ GoesOn disk (base + k)
    · obtain ⟨rs, l', hstep⟩ := scanSectors_of_goesOn (l := l) (List.range' (k + 1) n) hboth.1 hboth.2
      have hrest := ih (k := k + 1) (l := l')
      rw [hstep]
      constructor
      · rintro ⟨rs', l'', h⟩ i hle hn
        obtain ⟨⟨rs₂, l₂⟩, hscan, heq⟩ := Option.map_eq_some_iff.1 h
        cases heq
        rcases hle.eq_or_lt with rfl | hlt
        · exact hboth
        · exact hrest.1 ⟨rs₂, l'', hscan⟩ i hlt (by omega)
      · intro hall
        obtain ⟨rs₂, l₂, hscan⟩ := hrest.2 fun i hle hn => hall i (by omega) (by omega)
        rw [hscan]
        exact ⟨rs ++ rs₂, l₂, rfl⟩
    · refine iff_of_false ?_ fun hall => hboth (hall k le_rfl (by omega))
      rintro ⟨rs, l', h⟩
      by_cases hlt : base + k < 2 ^ 32
      · obtain ⟨rs', hstep⟩ := scanSectors_of_stop (l := l) (List.range' (k + 1) n) hlt fun hg => hboth ⟨hlt, hg⟩
        rw [hstep] at h
        cases h
      · rw [scanSectors_of_overflow _ (Nat.not_lt.1 hlt)] at h
        cases h

/-! ### The chain -/

/-- The records in the cluster `c`. -/
def scanCluster (disk : Disk) (v : Volume) (c : Nat) (l : Lfn) : Option (List DirRecord × Option Lfn) :=
  (clusToLba v c).bind fun base => scanSectors disk base (List.range v.spc) l

theorem scanCluster_eq_none_iff (hrange : InRange c) : scanCluster disk v c l = none ↔ Overflows disk v c := by
  unfold scanCluster Overflows
  rw [Option.bind_eq_none_iff, and_iff_right hrange]
  refine forall_congr' fun base => imp_congr_right fun _ => ?_
  rw [List.range_eq_range', scanSectors_eq_none_iff]
  constructor
  · rintro ⟨i, -, hi, hge, hall⟩
    exact ⟨i, by omega, hge, fun j hj => hall j (Nat.zero_le _) hj⟩
  · rintro ⟨i, hi, hge, hall⟩
    exact ⟨i, Nat.zero_le _, by omega, hge, fun j _ hj => hall j hj⟩

/-- For a volume that has been found, a cluster has an entry or an error in its place. -/
theorem fatNext_isSome (disk : Disk) (hv : v.fatLba < 2 ^ 16) (hc : c < 2 ^ 32) : ∃ n < 2 ^ 32, fatNext disk v c = some n := by
  unfold fatNext add32
  rw [if_pos (by omega)]
  simp only [Option.bind_eq_bind, Option.bind_some]
  cases disk.readSector (v.fatLba + c * 4 / 512) with
  | none => exact ⟨2 ^ 32 - 1, by decide, rfl⟩
  | some sec => exact ⟨_, (Nat.mod_lt _ (by decide)).trans (by decide), rfl⟩

theorem InRange.lt (h : InRange c) : c < 2 ^ 32 := h.2.trans (by decide)

theorem scanCluster_goesOn_iff (hv : v.fatLba < 2 ^ 16) (hrange : InRange c) :
    (∃ rs l', scanCluster disk v c l = some (rs, some l')) ↔ ∃ c', LinkedTo disk v c c' := by
  constructor
  · rintro ⟨rs, l', h⟩
    obtain ⟨base, hbase, hscan⟩ := Option.bind_eq_some_iff.1 h
    obtain ⟨c', -, hnext⟩ := fatNext_isSome disk hv hrange.lt
    rw [List.range_eq_range'] at hscan
    have hall := scanSectors_goesOn_iff.1 ⟨rs, l', hscan⟩
    exact ⟨c', hrange, ⟨base, hbase, fun i hi => hall i (Nat.zero_le _) (by omega)⟩, hnext⟩
  · rintro ⟨c', hlink⟩
    obtain ⟨base, hbase, hsectors⟩ := hlink.sectors
    unfold scanCluster
    rw [hbase, Option.bind_some, List.range_eq_range']
    exact scanSectors_goesOn_iff.2 fun i _ hi => hsectors i (by omega)

theorem scanChain_of_not_inRange {fuel : Nat} (h : ¬ InRange c) : scanChain disk v (fuel + 1) c l = some [] := by
  unfold scanChain
  rw [if_pos]
  unfold InRange at h
  omega

/-- One round of the loop. -/
theorem scanChain_of_inRange {fuel : Nat} (h : InRange c) : scanChain disk v (fuel + 1) c l =
    (scanCluster disk v c l).bind fun out =>
      match out with
      | (rs, none) => some rs
      | (rs, some l') => (fatNext disk v c).bind fun next => (scanChain disk v fuel next l').map (rs ++ ·) := by
  unfold InRange at h
  rw [scanChain, if_neg (by omega)]
  unfold scanCluster
  rw [Option.bind_assoc]
  simp only [Option.bind_eq_bind]
  congr 1
  funext base
  congr 1
  funext out
  obtain ⟨rs, l'⟩ := out
  cases l' with
  | none => rfl
  | some l' =>
    simp only
    congr 1
    funext next
    cases scanChain disk v fuel next l' <;> rfl

end Cluster

/-! ### The chain -/

section Chain

variable {l : Lfn} {fuel : Nat} {rs : List DirRecord}

theorem scanChain_of_link (hv : v.fatLba < 2 ^ 16) (h : LinkedTo disk v c c') :
    ∃ rs l', ∀ fuel, scanChain disk v (fuel + 1) c l = (scanChain disk v fuel c' l').map (rs ++ ·) := by
  obtain ⟨rs, l', hcluster⟩ := (scanCluster_goesOn_iff (l := l) hv h.range).2 ⟨c', h⟩
  refine ⟨rs, l', fun fuel => ?_⟩
  rw [scanChain_of_inRange h.range, hcluster, Option.bind_some]
  simp only [h.next, Option.bind_some]

theorem scanChain_of_overflow (h : Overflows disk v c) : scanChain disk v fuel c l = none := by
  cases fuel with
  | zero => rfl
  | succ fuel => rw [scanChain_of_inRange h.1, (scanCluster_eq_none_iff h.1).2 h, Option.bind_none]

/-- Without a link or an overflow, the directory ends here. -/
theorem scanChain_of_stop (hv : v.fatLba < 2 ^ 16) (hlink : ∀ c', ¬ LinkedTo disk v c c') (hover : ¬ Overflows disk v c)
    (fuel : Nat) : ∃ rs, scanChain disk v (fuel + 1) c l = some rs := by
  by_cases hrange : InRange c
  · rw [scanChain_of_inRange hrange]
    rcases hcluster : scanCluster disk v c l with _ | ⟨rs, l'⟩
    · exact absurd ((scanCluster_eq_none_iff hrange).1 hcluster) hover
    · cases l' with
      | none => exact ⟨rs, rfl⟩
      | some l' =>
        obtain ⟨c', hlink'⟩ := (scanCluster_goesOn_iff hv hrange).1 ⟨rs, l', hcluster⟩
        exact absurd hlink' (hlink c')
  · exact ⟨[], scanChain_of_not_inRange hrange⟩

/-- More clusters than are needed make no difference. -/
theorem scanChain_mono {fuel' : Nat} (h : scanChain disk v fuel c l = some rs) (hle : fuel ≤ fuel') :
    scanChain disk v fuel' c l = some rs := by
  induction fuel generalizing fuel' c l rs with
  | zero => cases h
  | succ fuel ih =>
    obtain ⟨fuel', rfl⟩ : ∃ k, fuel' = k + 1 := ⟨fuel' - 1, by omega⟩
    by_cases hrange : InRange c
    · rw [scanChain_of_inRange hrange] at h ⊢
      obtain ⟨⟨rs₁, l'⟩, hcluster, h⟩ := Option.bind_eq_some_iff.1 h
      rw [hcluster, Option.bind_some]
      cases l' with
      | none => exact h
      | some l' =>
        obtain ⟨next, hnext, h⟩ := Option.bind_eq_some_iff.1 h
        obtain ⟨rs₂, hrest, rfl⟩ := Option.map_eq_some_iff.1 h
        simp only [hnext, Option.bind_some]
        rw [ih hrest (by omega), Option.map_some]
    · rw [scanChain_of_not_inRange hrange] at h ⊢
      exact h

theorem scanChain_of_reaches {x : Nat} (hv : v.fatLba < 2 ^ 16) (hreach : ReflTransGen (LinkedTo disk v) c x)
    (h : Overflows disk v x) : scanChain disk v fuel c l = none := by
  induction hreach using ReflTransGen.head_induction_on generalizing fuel l with
  | refl => exact scanChain_of_overflow h
  | head hlink _ ih =>
    cases fuel with
    | zero => rfl
    | succ fuel =>
      obtain ⟨rs, l', hstep⟩ := scanChain_of_link (l := l) hv hlink
      rw [hstep, ih, Option.map_none]

theorem scanChain_of_endless (hv : v.fatLba < 2 ^ 16) (h : Endless disk v c) : scanChain disk v fuel c l = none := by
  induction fuel generalizing c l with
  | zero => rfl
  | succ fuel ih =>
    obtain ⟨c', hlink, hendless⟩ := h.next
    obtain ⟨rs, l', hstep⟩ := scanChain_of_link (l := l) hv hlink
    rw [hstep, ih hendless, Option.map_none]

/-- If the scan does not come to an end, there is an overflow, or the chain is as long as the scan may be. -/
theorem reaches_or_long_of_none (hv : v.fatLba < 2 ^ 16) (h : scanChain disk v fuel c l = none) :
    (∃ x, ReflTransGen (LinkedTo disk v) c x ∧ Overflows disk v x) ∨
      ∃ cs : List Nat, cs.length = fuel ∧ (c :: cs).IsChain (LinkedTo disk v) := by
  induction fuel generalizing c l with
  | zero => exact .inr ⟨[], rfl, .singleton c⟩
  | succ fuel ih =>
    by_cases hover : Overflows disk v c
    · exact .inl ⟨c, .refl, hover⟩
    by_cases hlink : ∃ c', LinkedTo disk v c c'
    · obtain ⟨c', hlink⟩ := hlink
      obtain ⟨rs, l', hstep⟩ := scanChain_of_link (l := l) hv hlink
      rw [hstep, Option.map_eq_none_iff] at h
      obtain ⟨x, hreach, hx⟩ | ⟨cs, hlen, hchain⟩ := ih h
      · exact .inl ⟨x, .head hlink hreach, hx⟩
      · exact .inr ⟨c' :: cs, by rw [List.length_cons, hlen], List.isChain_cons_cons.2 ⟨hlink, hchain⟩⟩
    · obtain ⟨rs, hstop⟩ := scanChain_of_stop (l := l) hv (fun c' h => hlink ⟨c', h⟩) hover fuel
      rw [hstop] at h
      cases h

/-- A chain of `2^28` clusters has a circle. -/
theorem endless_of_long {cs : List Nat} (hlen : 2 ^ 28 ≤ cs.length) (hchain : (c :: cs).IsChain (LinkedTo disk v)) :
    Endless disk v c := by
  refine cycle_of_long_chain (List.range eoc) (fun a b hlink => List.mem_range.2 hlink.range.2) hchain ?_
  rw [List.length_range]
  exact lt_of_lt_of_le (by decide) hlen

/-- The scan of a directory does not come to an end exactly if it leads to an overflow or into a circle. -/
theorem scanDir_eq_none_iff (hv : v.fatLba < 2 ^ 16) : scanDir disk v c = none ↔
    (∃ x, ReflTransGen (LinkedTo disk v) c x ∧ Overflows disk v x) ∨ Endless disk v c := by
  constructor
  · intro h
    obtain hreach | ⟨cs, hlen, hchain⟩ := reaches_or_long_of_none hv h
    · exact .inl hreach
    · exact .inr (endless_of_long hlen.ge hchain)
  · rintro (⟨x, hreach, hx⟩ | hendless)
    · exact scanChain_of_reaches hv hreach hx
    · exact scanChain_of_endless hv hendless

end Chain

end Rost.Vfs.Fat32
