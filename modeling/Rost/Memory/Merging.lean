import Rost.Memory.Mapping

/-!
# What the merge shows

`merge_kernel_into_user_pml4` fills empty entries only, and the tables that it adds are empty at first: whatever a user
PML4 translates, it goes on to translate (`translateAddress_merge`).  A PML4 that was empty translates as the kernel's
does, from the first 2 MB on (`translateAddress_merged`).
-/

namespace Rost

open Lib.TableTree (TableAt resolve descend)

namespace Memory

/-- In frames that were in use, no present entry has changed. -/
def KeepsPresent (m m' : Memory) : Prop :=
  ∀ f, m.Reserved f → ∀ j, m.ram f j &&& ptePresent ≠ 0 → m'.ram f j = m.ram f j

/-- No page table of `root` is free. -/
def InUse (m : Memory) (root : Word) : Prop := ∀ p f, TableAt m.links root 3 p f → m.Reserved f

/-- The merge does not stop for want of a frame. -/
def mergeAllocates (m : Memory) (kernelPml4 user : Word) : Bool :=
  if kernelPml4 = 0 then true
  else
    let m := m.copyEntries kernelPml4 user
    if m.ram kernelPml4 0 &&& ptePresent = 0 then true
    else
      let kernPdpt := m.ram kernelPml4 0 &&& pteAddrMask
      match m.ensureFirst user with
      | (_, none) => false
      | (m, some userPdpt) =>
        let m := m.copyEntries kernPdpt userPdpt
        if m.ram kernPdpt 0 &&& ptePresent = 0 then true else (m.ensureFirst userPdpt).2.isSome

/-! ### What was there -/

section Keeps

variable {m m₁ m₂ m' : Memory} {kern o : Word} {tag : Tags}

theorem KeepsPresent.trans (h : KeepsPresent m m₁) (hcons : Consumes m m₁) (h' : KeepsPresent m₁ m₂) :
    KeepsPresent m m₂ := by
  intro f hf j hpresent
  have hsame := h f hf j hpresent
  rw [← hsame] at hpresent ⊢
  exact h' f (hf.consumes hcons) j hpresent

theorem keepsPresent_copyEntries (m : Memory) (kern user : Word) : KeepsPresent m (m.copyEntries kern user) := by
  intro f _ j hpresent
  rcases m.copyEntries_ram kern f j with hsame | ⟨-, -, hzero, -⟩
  · by_cases hf : f = user
    · subst hf
      unfold Memory.copyEntries
      simp only
      rw [if_neg]
      rintro ⟨-, -, -, hempty⟩
      rw [hempty] at hpresent
      exact hpresent (by decide)
    · exact m.copyEntries_ram_of_ne kern hf j
  · rw [hzero] at hpresent
    exact absurd (by decide) hpresent

theorem keepsPresent_ensureFirst (m : Memory) (table : Word) : KeepsPresent m (m.ensureFirst table).1 := by
  unfold Memory.ensureFirst
  split
  · rename_i habsent
    split
    · rename_i m₁ halloc
      intro f _ j _
      rw [globalAlloc4k_ram halloc]
    · rename_i m₁ p halloc
      intro f hf j hpresent
      have hfp : f ≠ p := by
        rintro rfl
        exact not_reserved_of_globalAlloc4k halloc hf
      have hhere : ¬ (f = table ∧ j = 0) := by
        rintro ⟨rfl, rfl⟩
        exact hpresent habsent
      simp only
      rw [writeEntry_ram, if_neg hhere, zeroFrame_ram, if_neg hfp, globalAlloc4k_ram halloc]
  · exact fun _ _ _ _ => rfl

theorem keepsPresent_merge (m : Memory) (kern user : Word) : KeepsPresent m (m.mergeKernelIntoUserPml4 kern user) := by
  unfold Memory.mergeKernelIntoUserPml4
  split
  · exact fun _ _ _ _ => rfl
  · simp only
    have h₁ := keepsPresent_copyEntries m kern user
    have hc₁ := Consumes.copyEntries m kern user
    generalize m.copyEntries kern user = m₁ at h₁ hc₁ ⊢
    split
    · exact h₁
    · generalize m₁.ram kern 0 &&& pteAddrMask = kernPdpt
      have h₂ := h₁.trans hc₁ (keepsPresent_ensureFirst m₁ user)
      have hc₂ := hc₁.trans (.ensureFirst m₁ user)
      split
      · rename_i heq
        rw [heq] at h₂
        exact h₂
      · rename_i m₂ userPdpt heq
        rw [heq] at h₂ hc₂
        have h₃ := h₂.trans hc₂ (keepsPresent_copyEntries m₂ kernPdpt userPdpt)
        have hc₃ := hc₂.trans (.copyEntries m₂ kernPdpt userPdpt)
        generalize m₂.copyEntries kernPdpt userPdpt = m₃ at h₃ hc₃ ⊢
        split
        · exact h₃
        · have h₄ := h₃.trans hc₃ (keepsPresent_ensureFirst m₃ userPdpt)
          have hc₄ := hc₃.trans (.ensureFirst m₃ userPdpt)
          split
          · rename_i heq₂
            rw [heq₂] at h₄
            exact h₄
          · rename_i m₄ userPd heq₂
            rw [heq₂] at h₄ hc₄
            exact h₄.trans hc₄ (keepsPresent_copyEntries _ _ _)

/-- So a page that is mapped stays mapped, if the tables on the way to it are in use. -/
theorem resolve_of_keepsPresent (hk : KeepsPresent m m') {f : Word} {is : List (Fin 512)} {l : Nat}
    (hlen : is.length = l + 1) (hres : ∀ p g, TableAt m.links f l p g → m.Reserved g) {r : Nat × Word}
    (h : resolve m.links is f = some r) : resolve m'.links is f = some r := by
  induction is generalizing f l with
  | nil => cases h
  | cons i is ih =>
    have hlevel : is.length = l := by
      rw [List.length_cons] at hlen
      omega
    have hsame : m.links is.length f i ≠ .none → m'.links is.length f i = m.links is.length f i := by
      intro hsome
      unfold links at hsome ⊢
      rw [hk f (hres [] f ⟨Nat.zero_le _, rfl⟩) i fun habsent => hsome (decode_absent habsent _)]
    unfold resolve at h ⊢
    cases hlink : m.links is.length f i with
    | none =>
      rw [hlink] at h
      cases h
    | leaf v =>
      rw [hlink] at h
      rw [hsame (by rw [hlink]; exact fun hnone => by cases hnone), hlink]
      exact h
    | table c =>
      rw [hlink] at h
      rw [hsame (by rw [hlink]; exact fun hnone => by cases hnone), hlink]
      cases l with
      | zero => exact absurd (hlevel ▸ hlink) (decode_zero_ne_table _ c)
      | succ l => exact ih hlevel (fun p g hg => hres (i :: p) g (hg.cons (hlevel ▸ hlink))) h

theorem translateAddress_of_keepsPresent (hk : KeepsPresent m m') (huse : m.InUse o) {v a : Word}
    (h : m.translateAddress o v = some a) : m'.translateAddress o v = some a := by
  rw [translateAddress_eq] at h ⊢
  obtain ⟨r, hr, rfl⟩ := Option.map_eq_some_iff.1 h
  rw [resolve_of_keepsPresent hk (l := 3) (length_pathOf v) huse hr]
  rfl

theorem Tables.inUse (T : Tables m kern tag) (hroot : tag o = some (o, [])) : m.InUse o :=
  fun _ _ hf => (T.layout.tag_of_tableAt hroot hf).elim fun _ htag => T.reserved_of_tag htag

theorem translateAddress_merge (T : Tables m kern tag) (hroot : tag o = some (o, [])) {v a : Word}
    (h : m.translateAddress o v = some a) : (m.mergeKernelIntoUserPml4 kern o).translateAddress o v = some a :=
  translateAddress_of_keepsPresent (keepsPresent_merge m kern o) (T.inUse hroot) h

end Keeps

/-! ### What comes in -/

section Shows

variable {m m₁ m₂ m' : Memory} {kern user f g : Word}

/-- Of what was in use, only the user's PML4 has changed. -/
def KeepsOthers (m : Memory) (user : Word) (m' : Memory) : Prop :=
  ∀ f, m.Reserved f → f ≠ user → ∀ j, m'.ram f j = m.ram f j

/-- Except for the first slot, table `f` of `m'` reads like table `g` of `m`. -/
def Mirrors (m m' : Memory) (f g : Word) : Prop := ∀ l, ∀ j ≠ 0, m'.links l f j = m.links l g j

/-- An empty table becomes a mirror of the kernel's. -/
theorem mirrors_copyEntries (hempty : ∀ j, m.ram f j = 0) : Mirrors m (m.copyEntries g f) f g := by
  intro l j hj
  unfold links Memory.copyEntries
  simp only [true_and]
  by_cases hpresent : m.ram g j &&& ptePresent = 0
  · rw [if_neg fun h => h.2.1 hpresent, hempty j, decode_zero, decode_absent hpresent]
  · rw [if_pos ⟨hj, hpresent, hempty j⟩]

theorem Mirrors.congr (h : Mirrors m m₁ f g) (hf : ∀ j ≠ 0, m₂.ram f j = m₁.ram f j) : Mirrors m m₂ f g := by
  intro l j hj
  rw [← h l j hj]
  unfold links
  rw [hf j hj]

theorem Mirrors.of_same (h : Mirrors m₁ m₂ f g) (hg : ∀ j, m₁.ram g j = m.ram g j) : Mirrors m m₂ f g := by
  intro l j hj
  rw [h l j hj]
  unfold links
  rw [hg j]

/-- A table has been made behind the empty first slot of `f`, and filled from `d`. -/
structure Fills (m : Memory) (f d : Word) (m' : Memory) (c : Word) : Prop where
  consumes : Consumes m m'
  unreserved : ¬ m.Reserved c
  reserved : m'.Reserved c
  link : ∀ l ≠ 0, m'.links l f 0 = .table c
  mirror : Mirrors m m' c d
  first : m'.ram c 0 = 0
  others : ∀ t, m.Reserved t → ∀ j, ¬ (t = f ∧ j = 0) → m'.ram t j = m.ram t j

theorem fills_copyEntries {c d : Word} (hf : m.Reserved f) (habsent : m.ram f 0 &&& ptePresent = 0)
    (h : m.ensureFirst f = (m₁, some c)) (hd : m.Reserved d) (hdf : d ≠ f) : Fills m f d (m₁.copyEntries d c) c := by
  have hcons := Consumes.ensureFirst m f
  rw [h] at hcons
  unfold Memory.ensureFirst at h
  rw [if_pos habsent] at h
  split at h
  · cases h
  · rename_i m₀ p halloc
    cases h
    have hnew := not_reserved_of_globalAlloc4k halloc
    have hreserved := reserved_of_globalAlloc4k halloc
    have hlink := pointsTo_ensureFirst hreserved.addr
    rw [hlink.addr]
    have hne : ∀ {t}, m.Reserved t → t ≠ p := fun ht heq => hnew (heq ▸ ht)
    have hzero : ∀ j, ((m₀.zeroFrame p).writeEntry f 0 (p ||| ptePresent ||| pteWritable ||| pteUser)).ram p j = 0 := by
      intro j
      rw [writeEntry_ram, if_neg fun hc => hne hf hc.1.symm, zeroFrame_ram, if_pos rfl]
    have hold : ∀ t, m.Reserved t → ∀ j, ¬ (t = f ∧ j = 0) →
        ((m₀.zeroFrame p).writeEntry f 0 (p ||| ptePresent ||| pteWritable ||| pteUser)).ram t j = m.ram t j := by
      intro t ht j hhere
      rw [writeEntry_ram, if_neg hhere, zeroFrame_ram, if_neg (hne ht), globalAlloc4k_ram halloc]
    have hentry : ((m₀.zeroFrame p).writeEntry f 0 (p ||| ptePresent ||| pteWritable ||| pteUser)).ram f 0 =
        p ||| ptePresent ||| pteWritable ||| pteUser := by
      rw [writeEntry_ram, if_pos ⟨rfl, rfl⟩]
    have hres : ((m₀.zeroFrame p).writeEntry f 0 (p ||| ptePresent ||| pteWritable ||| pteUser)).Reserved p :=
      hreserved.consumes ((Consumes.zeroFrame m₀ p).trans (.writeEntry _ f 0 _))
    generalize (m₀.zeroFrame p).writeEntry f 0 (p ||| ptePresent ||| pteWritable ||| pteUser) = m₂
      at hcons hzero hold hentry hres ⊢
    refine ⟨hcons.trans (.copyEntries m₂ d p), hnew, hres.consumes (.copyEntries m₂ d p), fun l hl => ?_,
      (mirrors_copyEntries hzero).of_same fun j => hold d hd j fun hc => hdf hc.1, ?_, fun t ht j hhere => ?_⟩
    · unfold links
      rw [m₂.copyEntries_ram_of_ne d (hne hf), hentry]
      exact decode_of_pointsTo hlink hl
    · rcases m₂.copyEntries_ram d p 0 with hsame | ⟨hfirst, -⟩
      · rw [hsame, hzero 0]
      · exact absurd rfl hfirst
    · rw [m₂.copyEntries_ram_of_ne d (hne ht), hold t ht j hhere]

theorem KeepsOthers.fills {c d : Word} (h : KeepsOthers m user m₁) (hcons : Consumes m m₁) (hfills : Fills m₁ f d m₂ c)
    (hf : f = user ∨ ¬ m.Reserved f) : KeepsOthers m user m₂ := by
  intro t ht hne j
  rw [hfills.others t (ht.consumes hcons) j ?_, h t ht hne j]
  rintro ⟨rfl, -⟩
  exact hf.elim hne fun hnot => hnot ht

/-- The table `f` shows on level `n + 1` what `g` shows: the slots agree, and so do the tables behind the first slots,
down to the page directories. -/
def Shows (m m' : Memory) : Nat → Word → Word → Prop
  | 0, f, g => Mirrors m m' f g
  | n + 1, f, g => Mirrors m m' f g ∧ ((m'.links (n + 2) f 0 = .none ∧ m.links (n + 2) g 0 = .none) ∨
      ∃ c d, m'.links (n + 2) f 0 = .table c ∧ m.links (n + 2) g 0 = .table d ∧ Shows m m' n c d)

/-- The tables that `g` reaches from level `l` on are as they were. -/
def SameTree (m m' : Memory) (l : Nat) (g : Word) : Prop := ∀ p t, TableAt m.links g l p t → ∀ j, m'.ram t j = m.ram t j

theorem SameTree.child {l : Nat} {i : Fin 512} {c : Word} (h : SameTree m m' (l + 1) g)
    (hc : m.links (l + 1) g i = .table c) : SameTree m m' l c := fun p t ht => h (i :: p) t (ht.cons hc)

theorem Mirrors.resolve {l : Nat} {i : Fin 512} {is : List (Fin 512)} (h : Mirrors m m' f g)
    (hsame : SameTree m m' (l + 1) g) (hlen : is.length = l + 1) (hi : i ≠ 0) :
    resolve m'.links (i :: is) f = resolve m.links (i :: is) g := by
  unfold Lib.TableTree.resolve
  rw [hlen, h _ i hi]
  cases hlink : m.links (l + 1) g i with
  | none => rfl
  | leaf v => rfl
  | table c =>
    refine Lib.TableTree.resolve_eq_of_tableAt (fun f j c => decode_zero_ne_table (m.ram f j) c)
      (fun p t ht j => ?_) hlen
    unfold links
    rw [hsame.child hlink p t ht j]

/-- A path that does not lead through first slots only leads where it leads from `g`. -/
theorem Shows.resolve {n : Nat} (h : Shows m m' n f g) (hsame : SameTree m m' (n + 1) g) {is : List (Fin 512)}
    (hlen : is.length = n + 2) (hne : ∃ k ≤ n, ∃ j ≠ 0, is[k]? = some j) :
    resolve m'.links is f = resolve m.links is g := by
  induction n generalizing f g is with
  | zero =>
    obtain ⟨i, is, rfl⟩ := List.exists_cons_of_length_eq_add_one hlen
    obtain ⟨k, hk, j, hj, hget⟩ := hne
    obtain rfl : k = 0 := Nat.le_zero.1 hk
    cases hget
    exact Mirrors.resolve h hsame (Nat.succ.inj hlen) hj
  | succ n ih =>
    obtain ⟨i, is, rfl⟩ := List.exists_cons_of_length_eq_add_one hlen
    have hlen' : is.length = n + 2 := Nat.succ.inj hlen
    obtain ⟨hmirror, hfirst⟩ := h
    by_cases hi : i = 0
    · subst hi
      unfold Lib.TableTree.resolve
      rw [hlen']
      rcases hfirst with ⟨hf, hg⟩ | ⟨c, d, hf, hg, hshows⟩
      · rw [hf, hg]
      · rw [hf, hg]
        obtain ⟨k, hk, j, hj, hget⟩ := hne
        cases k with
        | zero => exact absurd (Option.some.inj hget).symm hj
        | succ k => exact ih hshows (hsame.child hg) hlen' ⟨k, Nat.le_of_succ_le_succ hk, j, hj, hget⟩
    · exact hmirror.resolve hsame hlen' hi

/-- From the first 2 MB on, the path of an address does not lead through first slots only. -/
theorem exists_pathOf_ne_zero {v : Word} (hv : 0x200000 ≤ v.toNat % 2 ^ 48) :
    ∃ k ≤ 2, ∃ j ≠ 0, (pathOf v)[k]? = some j := by
  by_contra hno
  have hzero : ∀ k ≤ 2, ∀ j, (pathOf v)[k]? = some j → j = 0 := by
    intro k hk j hj
    by_contra hne
    exact hno ⟨k, hk, j, hne, hj⟩
  have h4 := (toNat_low9 v 39).symm.trans (congrArg Fin.val (hzero 0 (by decide) _ rfl))
  have h3 := (toNat_low9 v 30).symm.trans (congrArg Fin.val (hzero 1 (by decide) _ rfl))
  have h2 := (toNat_low9 v 21).symm.trans (congrArg Fin.val (hzero 2 (by decide) _ rfl))
  rw [Fin.val_zero] at h4 h3 h2
  omega

/-- Of an empty PML4 the merge makes one that shows the kernel's. -/
theorem shows_merge (hkern : kern ≠ 0) (hk : m.InUse kern) (hu : m.Reserved user)
    (hdisjoint : ∀ p, ¬ TableAt m.links kern 3 p user) (hempty : ∀ j, m.ram user j = 0)
    (halloc : m.mergeAllocates kern user = true) :
    KeepsOthers m user (m.mergeKernelIntoUserPml4 kern user) ∧
      Shows m (m.mergeKernelIntoUserPml4 kern user) 2 user kern := by
  have hne : kern ≠ user := fun heq => hdisjoint [] (heq ▸ ⟨Nat.zero_le _, rfl⟩)
  unfold mergeAllocates at halloc
  unfold Memory.mergeKernelIntoUserPml4
  rw [if_neg hkern] at halloc ⊢
  simp only at halloc ⊢
  have hk₁ : KeepsOthers m user (m.copyEntries kern user) := fun t _ hne j => m.copyEntries_ram_of_ne kern hne j
  have hc₁ := Consumes.copyEntries m kern user
  have hm₁ : Mirrors m (m.copyEntries kern user) user kern := mirrors_copyEntries hempty
  have hfirst : (m.copyEntries kern user).ram user 0 = 0 := by
    rcases m.copyEntries_ram kern user 0 with hsame | ⟨hzero, -⟩
    · rw [hsame, hempty 0]
    · exact absurd rfl hzero
  have hkern₁ : (m.copyEntries kern user).ram kern 0 = m.ram kern 0 := m.copyEntries_ram_of_ne kern hne 0
  generalize m.copyEntries kern user = m₁ at halloc hk₁ hc₁ hm₁ hfirst hkern₁ ⊢
  rw [hkern₁] at halloc ⊢
  by_cases habsent : m.ram kern 0 &&& ptePresent = 0
  · rw [if_pos habsent]
    refine ⟨hk₁, hm₁, Or.inl ⟨?_, decode_absent habsent _⟩⟩
    unfold links
    rw [hfirst, decode_zero]
  · rw [if_neg habsent] at halloc ⊢
    have hpdpt : m.links 3 kern 0 = .table (m.ram kern 0 &&& pteAddrMask) := decode_upper habsent (by decide)
    generalize m.ram kern 0 &&& pteAddrMask = kernPdpt at halloc hpdpt ⊢
    obtain ⟨m₂, found, h₂⟩ : ∃ m₂ found, m₁.ensureFirst user = (m₂, found) := ⟨_, _, rfl⟩
    rw [h₂] at halloc ⊢
    cases found with
    | none => cases halloc
    | some p =>
      simp only at halloc ⊢
      have hpdptRes := hk [0] kernPdpt (TableAt.cons ⟨Nat.zero_le _, rfl⟩ hpdpt)
      have hpdptNe : kernPdpt ≠ user := fun heq => hdisjoint [0] (heq ▸ TableAt.cons ⟨Nat.zero_le _, rfl⟩ hpdpt)
      have hfills : Fills m₁ user kernPdpt (m₂.copyEntries kernPdpt p) p :=
        fills_copyEntries (hu.consumes hc₁) (by rw [hfirst]; decide) h₂ (hpdptRes.consumes hc₁) hpdptNe
      generalize m₂.copyEntries kernPdpt p = m₃ at halloc hfills ⊢
      have hk₃ := hk₁.fills hc₁ hfills (Or.inl rfl)
      have hc₃ := hc₁.trans hfills.consumes
      have hm₃ : Mirrors m m₃ user kern :=
        hm₁.congr fun j hj => hfills.others user (hu.consumes hc₁) j fun h => hj h.2
      have hp₃ : Mirrors m m₃ p kernPdpt := hfills.mirror.of_same (hk₁ kernPdpt hpdptRes hpdptNe)
      have hp : ¬ m.Reserved p := fun h => hfills.unreserved (h.consumes hc₁)
      rw [hk₃ kernPdpt hpdptRes hpdptNe 0] at halloc ⊢
      by_cases habsent₂ : m.ram kernPdpt 0 &&& ptePresent = 0
      · rw [if_pos habsent₂]
        refine ⟨hk₃, hm₃, Or.inr ⟨p, kernPdpt, hfills.link 3 (by decide), hpdpt, hp₃,
          Or.inl ⟨?_, decode_absent habsent₂ _⟩⟩⟩
        unfold links
        rw [hfills.first, decode_zero]
      · rw [if_neg habsent₂] at halloc ⊢
        have hpd : m.links 2 kernPdpt 0 = .table (m.ram kernPdpt 0 &&& pteAddrMask) := decode_upper habsent₂ (by decide)
        generalize m.ram kernPdpt 0 &&& pteAddrMask = kernPd at hpd ⊢
        have hpdAt : TableAt m.links kern 3 [0, 0] kernPd := TableAt.cons (TableAt.cons ⟨Nat.zero_le _, rfl⟩ hpd) hpdpt
        have hpdRes := hk [0, 0] kernPd hpdAt
        have hpdNe : kernPd ≠ user := fun heq => hdisjoint [0, 0] (heq ▸ hpdAt)
        obtain ⟨q, hq⟩ := Option.isSome_iff_exists.1 halloc
        have h₄ : m₃.ensureFirst p = ((m₃.ensureFirst p).1, some q) := Prod.ext rfl hq
        rw [h₄]
        simp only
        have hfills₂ : Fills m₃ p kernPd ((m₃.ensureFirst p).1.copyEntries kernPd q) q :=
          fills_copyEntries hfills.reserved (by rw [hfills.first]; decide) h₄ (hpdRes.consumes hc₃)
            fun heq => hp (heq ▸ hpdRes)
        have hup : user ≠ p := fun heq => hp (heq ▸ hu)
        generalize (m₃.ensureFirst p).1.copyEntries kernPd q = m₅ at hfills₂ ⊢
        have huser := hfills₂.others user (hu.consumes hc₃)
        refine ⟨hk₃.fills hc₃ hfills₂ (Or.inr hp), hm₃.congr fun j _ => huser j fun h => hup h.1,
          Or.inr ⟨p, kernPdpt, ?_, hpdpt, hp₃.congr fun j hj => hfills₂.others p hfills.reserved j fun h => hj h.2,
          Or.inr ⟨q, kernPd, hfills₂.link 2 (by decide), hpd, hfills₂.mirror.of_same (hk₃ kernPd hpdRes hpdNe)⟩⟩⟩
        have hlink := hfills.link 3 (by decide)
        unfold links at hlink ⊢
        rw [huser 0 fun h => hup h.1]
        exact hlink

end Shows

/-- A frame below the region of the allocator. -/
theorem reserved_of_lt {m : Memory} {f : Word} (haddr : IsTableAddr f) (hlt : f.toNat < m.region.base) :
    m.Reserved f := by
  refine ⟨haddr, fun idx hidx heq => ?_⟩
  have hto := m.toNat_frameAddr hidx
  rw [heq] at hto
  omega

/-- The merge leaves the translations of the user alone; and a PML4 that was empty translates from the first 2 MB on as
the kernel's does. -/
theorem translateAddress_merged {m : Memory} {kern user : Word} (hkern : kern ≠ 0) (hk : m.InUse kern)
    (hu : m.InUse user) (hdisjoint : ∀ p q f, TableAt m.links kern 3 p f → ¬ TableAt m.links user 3 q f)
    (halloc : m.mergeAllocates kern user = true) :
    (∀ v a, m.translateAddress user v = some a →
      (m.mergeKernelIntoUserPml4 kern user).translateAddress user v = some a) ∧
    ((∀ j, m.ram user j = 0) → ∀ v, 0x200000 ≤ v.toNat % 2 ^ 48 →
      (m.mergeKernelIntoUserPml4 kern user).translateAddress user v =
          (m.mergeKernelIntoUserPml4 kern user).translateAddress kern v ∧
        (m.mergeKernelIntoUserPml4 kern user).translateAddress kern v = m.translateAddress kern v) := by
  refine ⟨fun v a => translateAddress_of_keepsPresent (keepsPresent_merge m kern user) hu, fun hempty v hv => ?_⟩
  have hroot : TableAt m.links user 3 [] user := ⟨Nat.zero_le _, rfl⟩
  have hout : ∀ p, ¬ TableAt m.links kern 3 p user := fun p hp => hdisjoint p [] user hp hroot
  obtain ⟨hkeeps, hshows⟩ := shows_merge hkern hk (hu [] user hroot) hout hempty halloc
  have hsame : SameTree m (m.mergeKernelIntoUserPml4 kern user) 3 kern := by
    intro p t ht
    exact hkeeps t (hk p t ht) fun heq => hout p (heq ▸ ht)
  have hkern : (m.mergeKernelIntoUserPml4 kern user).translateAddress kern v = m.translateAddress kern v := by
    rw [translateAddress_eq, translateAddress_eq]
    refine congrArg _ (Lib.TableTree.resolve_eq_of_tableAt (l := 3) (fun f j c => decode_zero_ne_table (m.ram f j) c)
      (fun p t ht j => ?_) (length_pathOf v))
    unfold links
    rw [hsame p t ht j]
  refine ⟨?_, hkern⟩
  rw [hkern, translateAddress_eq, translateAddress_eq,
    hshows.resolve hsame (length_pathOf v) (exists_pathOf_ne_zero hv)]

/-- A kernel that maps the second 2 MB onto themselves, and an empty PML4 at `0x8000`. -/
private def sharedTree : Memory :=
  { ofRegion (.atOneMb 0x20000 (by decide)) with
    ram := fun f i =>
      if f = 0x1000 ∧ i = 0 then 0x2003
      else if f = 0x2000 ∧ i = 0 then 0x3003
      else if f = 0x3000 ∧ i = 1 then 0x200083
      else 0 }

private theorem sharedTree_entry {f : Word} {i : Fin 512} (h : sharedTree.ram f i &&& ptePresent ≠ 0) :
    (f = 0x1000 ∧ sharedTree.ram f i = 0x2003) ∨ (f = 0x2000 ∧ sharedTree.ram f i = 0x3003) ∨
      (f = 0x3000 ∧ sharedTree.ram f i = 0x200083) := by
  unfold sharedTree at h ⊢
  simp only at h ⊢
  by_cases h₁ : f = 0x1000 ∧ i = 0
  · exact Or.inl ⟨h₁.1, if_pos h₁⟩
  · rw [if_neg h₁] at h ⊢
    by_cases h₂ : f = 0x2000 ∧ i = 0
    · exact Or.inr (Or.inl ⟨h₂.1, if_pos h₂⟩)
    · rw [if_neg h₂] at h ⊢
      by_cases h₃ : f = 0x3000 ∧ i = 1
      · exact Or.inr (Or.inr ⟨h₃.1, if_pos h₃⟩)
      · rw [if_neg h₃] at h
        exact absurd (by decide) h

/-- The tables of the kernel. -/
private theorem sharedTree_tableAt {p : List (Fin 512)} {f : Word} (h : TableAt sharedTree.links 0x1000 3 p f) :
    f = 0x1000 ∨ f = 0x2000 ∨ f = 0x3000 := by
  have hclosed := TableAt.of_closed (S := fun l f => (l = 3 ∧ f = 0x1000) ∨ (l = 2 ∧ f = 0x2000) ∨ (l = 1 ∧ f = 0x3000))
    (fun l f i c hf hc => ?_) (Or.inl ⟨rfl, rfl⟩) h
  · exact hclosed.imp And.right (Or.imp And.right And.right)
  · obtain ⟨hpresent, hleaf, haddr⟩ := decode_eq_table hc
    rcases sharedTree_entry hpresent with ⟨rfl, he⟩ | ⟨rfl, he⟩ | ⟨rfl, he⟩
    · rw [he] at haddr
      rcases hf with ⟨rfl, -⟩ | ⟨-, hne⟩ | ⟨-, hne⟩
      · exact Or.inr (Or.inl ⟨rfl, haddr.symm⟩)
      · exact absurd hne (by decide)
      · exact absurd hne (by decide)
    · rw [he] at haddr
      rcases hf with ⟨-, hne⟩ | ⟨rfl, -⟩ | ⟨-, hne⟩
      · exact absurd hne (by decide)
      · exact Or.inr (Or.inr ⟨rfl, haddr.symm⟩)
      · exact absurd hne (by decide)
    · -- the page directory holds a 2 MB page, and no table
      rw [he] at hleaf
      rcases hf with ⟨-, hne⟩ | ⟨-, hne⟩ | ⟨rfl, -⟩
      · exact absurd hne (by decide)
      · exact absurd hne (by decide)
      · exact absurd (Or.inr ⟨rfl, by decide⟩) hleaf

/-- The empty PML4 comes to translate the second 2 MB. -/
theorem translateAddress_merged_empty :
    (sharedTree.mergeKernelIntoUserPml4 0x1000 0x8000).translateAddress 0x8000 0x234567 = some 0x234567 := by
  have hzero : ∀ j, sharedTree.ram 0x8000 j = 0 := fun j => by
    unfold sharedTree
    simp only
    rw [if_neg fun h => absurd h.1 (by decide), if_neg fun h => absurd h.1 (by decide),
      if_neg fun h => absurd h.1 (by decide)]
  have huser : ∀ {p f}, TableAt sharedTree.links 0x8000 3 p f → f = 0x8000 := by
    intro p f hf
    refine TableAt.of_closed (S := fun _ f => f = 0x8000) (fun l f i c hf hc => ?_) rfl hf
    obtain ⟨hpresent, -⟩ := decode_eq_table hc
    rw [hf, hzero i] at hpresent
    exact absurd (by decide) hpresent
  have hlow : ∀ f : Word, f &&& pteAddrMask = f → f.toNat < 0x100000 → sharedTree.Reserved f :=
    fun _ haddr hlt => reserved_of_lt haddr hlt
  have hkern : sharedTree.InUse 0x1000 := by
    intro p f hf
    rcases sharedTree_tableAt hf with rfl | rfl | rfl
    · exact hlow _ (by decide) (by decide)
    · exact hlow _ (by decide) (by decide)
    · exact hlow _ (by decide) (by decide)
  have hinUse : sharedTree.InUse 0x8000 := by
    intro p f hf
    rw [huser hf]
    exact hlow _ (by decide) (by decide)
  have hdisjoint : ∀ p q f, TableAt sharedTree.links 0x1000 3 p f → ¬ TableAt sharedTree.links 0x8000 3 q f := by
    intro p q f hp hq
    rcases sharedTree_tableAt hp with rfl | rfl | rfl <;> exact absurd (huser hq) (by decide)
  have hall :=
    (translateAddress_merged (by decide) hkern hinUse hdisjoint (by decide +kernel)).2 hzero 0x234567 (by decide)
  rw [hall.1, hall.2]
  decide

end Memory

end Rost
