import Rost.Basic

/-!
# The service registry

Sixteen entries that map short names to pids.  A name is a buffer of bytes that counts up to its first NUL; the stored
copy has at most 15 bytes.
-/

namespace Rost

def maxServices : Nat := 16
def nameLen : Nat := 16

structure ServiceEntry where
  name : List Byte
  pid : Nat
  used : Bool
deriving DecidableEq

def ServiceEntry.empty : ServiceEntry := ⟨List.replicate nameLen 0, 0, false⟩

def trimName (name : List Byte) : List Byte := name.takeWhile (· != 0)

/-- Change the first element that meets `p`. -/
def updateFirst {α : Type} (p : α → Bool) (f : α → α) : List α → List α
  | [] => []
  | a :: as => if p a then f a :: as else a :: updateFirst p f as

/-- The static `TABLE`. -/
abbrev Registry := List ServiceEntry

namespace Registry

def new : Registry := List.replicate maxServices .empty

def hasName (key : List Byte) (e : ServiceEntry) : Bool := e.used && trimName e.name == key

def hasPid (pid : Nat) (e : ServiceEntry) : Bool := e.used && e.pid == pid

/-- Bind a name to a pid: an existing entry is changed, else the first free one is taken. -/
def register (t : Registry) (name : List Byte) (pid : Nat) : Registry × Bool :=
  let key := trimName name
  if key = [] then (t, false)
  else if t.any (hasName key) then (updateFirst (hasName key) (fun e => { e with pid := pid }) t, true)
  else if t.any (fun e => !e.used) then
    let stored := key.take (nameLen - 1)
    (updateFirst (fun e => !e.used) (fun _ => ⟨stored ++ List.replicate (nameLen - stored.length) 0, pid, true⟩) t,
      true)
  else (t, false)

def lookup (t : Registry) (name : List Byte) : Option Nat :=
  (t.find? (hasName (trimName name))).map ServiceEntry.pid

def lookupByPid (t : Registry) (pid : Nat) : List Byte :=
  match t.find? (hasPid pid) with
  | none => List.replicate nameLen 0
  | some e => e.name

/-- Drop the first entry of `pid`. -/
def unregisterPid (t : Registry) (pid : Nat) : Registry × Bool :=
  (updateFirst (hasPid pid) (fun e => { e with used := false }) t, t.any (hasPid pid))

/-! ### What the operations change -/

/-- A change of the first element that meets `p` is invisible to a test that it does not affect. -/
private theorem find?_updateFirst_of_find? {p q : ServiceEntry → Bool} {f : ServiceEntry → ServiceEntry}
    {t : Registry} (h : ∀ e, t.find? p = some e → q e = false ∧ q (f e) = false) :
    (updateFirst p f t).find? q = t.find? q := by
  induction t with
  | nil => rfl
  | cons e t ih =>
    unfold updateFirst
    split
    · rename_i hp
      obtain ⟨hold, hnew⟩ := h e (List.find?_cons_of_pos hp)
      rw [List.find?_cons_of_neg (by simp [hnew]), List.find?_cons_of_neg (by simp [hold])]
    · rename_i hp
      rw [List.find?_cons, List.find?_cons, ih fun e' he' => h e' (by rw [List.find?_cons_of_neg hp, he'])]

theorem find?_updateFirst {p q : ServiceEntry → Bool} {f : ServiceEntry → ServiceEntry}
    (hold : ∀ e, p e = true → q e = false) (hnew : ∀ e, p e = true → q (f e) = false) (t : Registry) :
    (updateFirst p f t).find? q = t.find? q :=
  find?_updateFirst_of_find? fun e he => ⟨hold e (List.find?_some he), hnew e (List.find?_some he)⟩

/-- A test that holds of no element before the change, and of the changed one, finds the changed one. -/
private theorem find?_updateFirst_self {p q : ServiceEntry → Bool} {f : ServiceEntry → ServiceEntry} {t : Registry}
    (hany : t.any p = true) (hq : ∀ e ∈ t, p e = false → q e = false) (hnew : ∀ e, p e = true → q (f e) = true) :
    ∃ e, (updateFirst p f t).find? q = some (f e) := by
  induction t with
  | nil => cases hany
  | cons e t ih =>
    unfold updateFirst
    split
    · rename_i hp
      exact ⟨e, List.find?_cons_of_pos (hnew e hp)⟩
    · rename_i hp
      have hp : p e = false := by simpa using hp
      rw [List.find?_cons_of_neg (by simp [hq e List.mem_cons_self hp])]
      exact ih (by simpa [hp] using hany) fun e' he' => hq e' (List.mem_cons_of_mem _ he')

theorem mem_updateFirst {p : ServiceEntry → Bool} {f : ServiceEntry → ServiceEntry} {t : Registry}
    {x : ServiceEntry} (h : x ∈ updateFirst p f t) : x ∈ t ∨ ∃ e ∈ t, p e = true ∧ x = f e := by
  induction t with
  | nil => cases h
  | cons e t ih =>
    unfold updateFirst at h
    split at h
    · rename_i hp
      rcases List.mem_cons.1 h with rfl | hx
      · exact Or.inr ⟨e, List.mem_cons_self, hp, rfl⟩
      · exact Or.inl (List.mem_cons_of_mem _ hx)
    · rcases List.mem_cons.1 h with rfl | hx
      · exact Or.inl List.mem_cons_self
      · rcases ih hx with hmem | ⟨e', he', hpe, rfl⟩
        · exact Or.inl (List.mem_cons_of_mem _ hmem)
        · exact Or.inr ⟨e', List.mem_cons_of_mem _ he', hpe, rfl⟩

/-- The entries of `pid`. -/
def entriesOf (t : Registry) (pid : Nat) : List ServiceEntry := t.filter (hasPid pid)

/-- A name that looks up to `pid` is an entry of `pid`. -/
theorem entriesOf_ne_nil_of_lookup {t : Registry} {name : List Byte} {pid : Nat} (h : t.lookup name = some pid) :
    t.entriesOf pid ≠ [] := by
  obtain ⟨e, he, rfl⟩ := Option.map_eq_some_iff.1 h
  have hname : hasName (trimName name) e = true := List.find?_some he
  have hmem : e ∈ t.entriesOf e.pid := by
    refine List.mem_filter.2 ⟨List.mem_of_find?_eq_some he, ?_⟩
    simp [hasPid, (Bool.and_eq_true_iff.1 hname).1]
  exact List.ne_nil_of_mem hmem

/-- Dropping the first entry of `pid` keeps those of the other processes. -/
theorem entriesOf_unregisterPid (t : Registry) {pid q : Nat} (h : q ≠ pid) :
    (t.unregisterPid pid).1.entriesOf q = t.entriesOf q := by
  unfold unregisterPid entriesOf
  induction t with
  | nil => rfl
  | cons e t ih =>
    unfold updateFirst
    split
    · rename_i hp
      have hpid : e.pid = pid := by simpa using (Bool.and_eq_true_iff.1 hp).2
      have hq : hasPid q e = false := by simp [hasPid, hpid, Ne.symm h]
      rw [List.filter_cons_of_neg (by simp [hasPid]), List.filter_cons_of_neg (by simp [hq])]
    · rw [List.filter_cons, List.filter_cons, ih]

/-- Of the entries of `pid` one is dropped. -/
theorem entriesOf_unregisterPid_self (t : Registry) (pid : Nat) :
    (t.unregisterPid pid).1.entriesOf pid = (t.entriesOf pid).tail := by
  unfold unregisterPid entriesOf
  induction t with
  | nil => rfl
  | cons e t ih =>
    unfold updateFirst
    split
    · rename_i hp
      rw [List.filter_cons_of_neg (by simp [hasPid]), List.filter_cons_of_pos hp, List.tail_cons]
    · rename_i hp
      rw [List.filter_cons_of_neg hp, List.filter_cons_of_neg hp]
      exact ih

/-- A name that does not look up to `pid` looks up to the same process when an entry of `pid` is dropped. -/
theorem lookup_unregisterPid {t : Registry} {name : List Byte} {pid : Nat} (h : t.lookup name ≠ some pid) :
    (t.unregisterPid pid).1.lookup name = t.lookup name := by
  unfold unregisterPid lookup at *
  induction t with
  | nil => rfl
  | cons e t ih =>
    by_cases hname : hasName (trimName name) e = true
    · -- `e` is what the name looks up to, so it is no entry of `pid`
      rw [List.find?_cons_of_pos hname] at h
      have hused : e.used = true := (Bool.and_eq_true_iff.1 hname).1
      have hp : ¬ hasPid pid e = true := by
        intro hp
        have hpid : e.pid = pid := by simpa using (Bool.and_eq_true_iff.1 hp).2
        exact h (by rw [Option.map_some, hpid])
      unfold updateFirst
      rw [if_neg hp, List.find?_cons_of_pos hname, List.find?_cons_of_pos hname]
    · rw [List.find?_cons_of_neg hname] at h
      unfold updateFirst
      split
      · rw [List.find?_cons_of_neg (by simp [hasName]), List.find?_cons_of_neg hname]
      · rw [List.find?_cons_of_neg hname, List.find?_cons_of_neg hname]
        exact ih h

/-- Dropping the first entry of `pid` keeps the lookups of the names that are not in it. -/
theorem lookup_unregisterPid_of_first {t : Registry} {name : List Byte} {pid : Nat}
    (h : trimName (t.lookupByPid pid) ≠ trimName name) : (t.unregisterPid pid).1.lookup name = t.lookup name := by
  unfold lookup unregisterPid
  rw [find?_updateFirst_of_find?]
  intro e he
  have hfirst : t.lookupByPid pid = e.name := by unfold lookupByPid; rw [he]
  rw [hfirst] at h
  exact ⟨by simp [hasName, h], by simp [hasName]⟩

/-- A stored name is the key, cut to 15 bytes. -/
theorem trimName_stored (name : List Byte) (n : Nat) :
    trimName ((trimName name).take (nameLen - 1) ++ List.replicate n 0) = (trimName name).take (nameLen - 1) := by
  unfold trimName
  have hall : ∀ b ∈ (name.takeWhile (· != 0)).take (nameLen - 1), (b != 0) = true := by
    intro b hb
    exact List.all_eq_true.1 (List.all_takeWhile (p := (· != 0))) b (List.mem_of_mem_take hb)
  rw [List.takeWhile_append_of_pos hall]
  cases n with
  | zero => simp
  | succ n => simp [List.replicate_succ]

/-- A registration under another name leaves a lookup alone. -/
theorem lookup_register_of_ne {t : Registry} {name other : List Byte} {pid : Nat}
    (hne : trimName name ≠ trimName other) (hcut : (trimName name).take (nameLen - 1) ≠ trimName other) :
    (t.register name pid).1.lookup other = t.lookup other := by
  have hother : ∀ e, hasName (trimName name) e = true → trimName e.name ≠ trimName other := by
    intro e he
    have hname : trimName e.name = trimName name := by simpa using (Bool.and_eq_true_iff.1 he).2
    rwa [hname]
  unfold lookup register
  simp only
  split
  · rfl
  · split
    · rw [find?_updateFirst]
      · intro e he
        simp [hasName, hother e he]
      · intro e he
        simp [hasName, hother e he]
    · split
      · rw [find?_updateFirst]
        · intro e he
          have hused : e.used = false := by simpa using he
          simp [hasName, hused]
        · intro e _
          simp only [hasName, trimName_stored, Bool.true_and]
          exact beq_eq_false_iff_ne.2 hcut
      · rfl

/-- An accepted name of at most 15 bytes looks up to the process that registered it. -/
theorem lookup_register_self {t t' : Registry} {name : List Byte} {pid : Nat}
    (h : t.register name pid = (t', true)) (hlen : (trimName name).length < nameLen) : t'.lookup name = some pid := by
  unfold register at h
  simp only at h
  unfold lookup
  split at h
  · cases h
  · split at h
    · rename_i hany
      obtain ⟨rfl, -⟩ := Prod.mk.inj h
      obtain ⟨e, he⟩ := find?_updateFirst_self (q := hasName (trimName name))
        (f := fun e => { e with pid := pid }) hany (fun _ _ he => he) (fun _ he => he)
      rw [he]; rfl
    · split at h
      · rename_i hnone hfree
        obtain ⟨rfl, -⟩ := Prod.mk.inj h
        have htake : (trimName name).take (nameLen - 1) = trimName name := List.take_of_length_le (by omega)
        have hbefore : ∀ e ∈ t, (!e.used) = false → hasName (trimName name) e = false := by
          intro e he _
          exact Bool.eq_false_iff.2 fun hname => hnone (List.any_eq_true.2 ⟨e, he, hname⟩)
        obtain ⟨e, he⟩ := find?_updateFirst_self (q := hasName (trimName name))
          (f := fun _ => ⟨(trimName name).take (nameLen - 1) ++
            List.replicate (nameLen - ((trimName name).take (nameLen - 1)).length) 0, pid, true⟩) hfree hbefore
          (fun _ _ => beq_iff_eq.2 ((trimName_stored name _).trans htake))
        rw [he]; rfl
      · cases h

/-- A registration of another process adds no entry of `pid`. -/
theorem entriesOf_register_eq_nil {t : Registry} {name : List Byte} {pid q : Nat} (hq : q ≠ pid)
    (h : t.entriesOf pid = []) : (t.register name q).1.entriesOf pid = [] := by
  unfold entriesOf at h ⊢
  rw [List.filter_eq_nil_iff] at h ⊢
  unfold register
  simp only
  split
  · exact h
  · split
    · intro x hx
      rcases mem_updateFirst hx with hx | ⟨e, -, -, rfl⟩
      · exact h x hx
      · simp [hasPid, hq]
    · split
      · intro x hx
        rcases mem_updateFirst hx with hx | ⟨e, -, -, rfl⟩
        · exact h x hx
        · simp [hasPid, hq]
      · exact h

/-! ### The entries of a name -/

/-- The entries under the key `key`, a name without its padding. -/
def named (t : Registry) (key : List Byte) : List ServiceEntry := t.filter (hasName key)

theorem mem_named {t : Registry} {key : List Byte} {e : ServiceEntry} : e ∈ t.named key ↔ e ∈ t ∧ hasName key e = true :=
  List.mem_filter

theorem named_of_lookup {t : Registry} {name : List Byte} {pid : Nat} (h : t.lookup name = some pid) :
    ∃ e ∈ t.named (trimName name), e.pid = pid := by
  obtain ⟨e, he, rfl⟩ := Option.map_eq_some_iff.1 h
  exact ⟨e, mem_named.2 ⟨List.mem_of_find?_eq_some he, List.find?_some he⟩, rfl⟩

private theorem length_filter_updateFirst_le {p q : ServiceEntry → Bool} {f : ServiceEntry → ServiceEntry}
    (h : ∀ e, p e = true → q (f e) = true → q e = true) (t : Registry) :
    ((updateFirst p f t).filter q).length ≤ (t.filter q).length := by
  induction t with
  | nil => exact le_refl _
  | cons e t ih =>
    unfold updateFirst
    by_cases hp : p e = true
    · rw [if_pos hp, List.filter_cons, List.filter_cons]
      by_cases hnew : q (f e) = true
      · rw [if_pos hnew, if_pos (h e hp hnew)]
        exact le_refl _
      · rw [if_neg hnew]
        split
        · exact Nat.le_succ _
        · exact le_refl _
    · rw [if_neg hp, List.filter_cons, List.filter_cons]
      split
      · exact Nat.succ_le_succ ih
      · exact ih

private theorem length_filter_updateFirst_le_succ (p q : ServiceEntry → Bool) (f : ServiceEntry → ServiceEntry)
    (t : Registry) : ((updateFirst p f t).filter q).length ≤ (t.filter q).length + 1 := by
  induction t with
  | nil => exact Nat.zero_le _
  | cons e t ih =>
    unfold updateFirst
    by_cases hp : p e = true
    · rw [if_pos hp, List.filter_cons, List.filter_cons]
      by_cases hnew : q (f e) = true
      · rw [if_pos hnew, List.length_cons]
        split
        · exact Nat.le_succ _
        · exact le_refl _
      · rw [if_neg hnew]
        split
        · exact Nat.le_succ_of_le (Nat.le_succ _)
        · exact Nat.le_succ _
    · rw [if_neg hp, List.filter_cons, List.filter_cons]
      split
      · exact Nat.succ_le_succ ih
      · exact ih

/-- A key that is short enough is the one under which its name is stored. -/
private theorem take_eq_key {name key : List Byte} (hkey : key.length < nameLen - 1)
    (h : (trimName name).take (nameLen - 1) = key) : trimName name = key := by
  have hlen : ((trimName name).take (nameLen - 1)).length = key.length := by rw [h]
  rw [List.length_take] at hlen
  rw [← h, List.take_of_length_le (by omega)]

/-- A registration gives the name to its process, and changes no entry of another name. -/
theorem mem_named_register {t : Registry} {name key : List Byte} {pid : Nat} (hkey : key.length < nameLen - 1)
    {e : ServiceEntry} (h : e ∈ (t.register name pid).1.named key) :
    e ∈ t.named key ∨ (trimName name = key ∧ e.pid = pid) := by
  obtain ⟨hmem, hname⟩ := mem_named.1 h
  have hold : e ∈ t → e ∈ t.named key := fun he => mem_named.2 ⟨he, hname⟩
  have hkeyOf : trimName e.name = key := by simpa using (Bool.and_eq_true_iff.1 hname).2
  unfold register at hmem
  dsimp only at hmem
  split at hmem
  · exact .inl (hold hmem)
  · split at hmem
    · rcases mem_updateFirst hmem with he | ⟨e', -, he', rfl⟩
      · exact .inl (hold he)
      · have hname' : trimName e'.name = trimName name := by simpa using (Bool.and_eq_true_iff.1 he').2
        exact .inr ⟨hname'.symm.trans hkeyOf, rfl⟩
    · split at hmem
      · rcases mem_updateFirst hmem with he | ⟨e', -, -, rfl⟩
        · exact .inl (hold he)
        · rw [trimName_stored] at hkeyOf
          exact .inr ⟨take_eq_key hkey hkeyOf, rfl⟩
      · exact .inl (hold hmem)

theorem mem_named_unregisterPid {t : Registry} {key : List Byte} {pid : Nat} {e : ServiceEntry}
    (h : e ∈ (t.unregisterPid pid).1.named key) : e ∈ t.named key := by
  obtain ⟨hmem, hname⟩ := mem_named.1 h
  rcases mem_updateFirst hmem with he | ⟨e', -, -, rfl⟩
  · exact mem_named.2 ⟨he, hname⟩
  · simp [hasName] at hname

theorem length_named_unregisterPid_le (t : Registry) (key : List Byte) (pid : Nat) :
    ((t.unregisterPid pid).1.named key).length ≤ (t.named key).length :=
  length_filter_updateFirst_le (fun e _ h => by simp [hasName] at h) t

/-- A short name has one entry at most. -/
theorem length_named_register_le {t : Registry} {key : List Byte} (hkey : key.length < nameLen - 1)
    (h : (t.named key).length ≤ 1) (name : List Byte) (pid : Nat) : ((t.register name pid).1.named key).length ≤ 1 := by
  unfold register
  dsimp only
  split
  · exact h
  · split
    · have hle := @length_filter_updateFirst_le (hasName (trimName name)) (hasName key) (fun e => { e with pid := pid })
        (fun e _ he => he) t
      exact Nat.le_trans hle h
    · rename_i hany
      split
      · by_cases hname : trimName name = key
        · have hnone : t.named key = [] := by
            refine List.filter_eq_nil_iff.2 fun e he hasName => hany (List.any_eq_true.2 ⟨e, he, ?_⟩)
            rw [hname]
            exact hasName
          have hle := length_filter_updateFirst_le_succ (fun e => !e.used) (hasName key) (fun _ =>
            ⟨(trimName name).take (nameLen - 1) ++
              List.replicate (nameLen - ((trimName name).take (nameLen - 1)).length) 0, pid, true⟩) t
          have hzero : (t.filter (hasName key)).length = 0 := by
            rw [show t.filter (hasName key) = t.named key from rfl, hnone]
            rfl
          rw [hzero] at hle
          exact hle
        · refine Nat.le_trans (length_filter_updateFirst_le (fun e _ he => ?_) t) h
          have hstored := (Bool.and_eq_true_iff.1 he).2
          rw [trimName_stored] at hstored
          exact absurd (take_eq_key hkey (by simpa using hstored)) hname
      · exact h

/-- What a name with one entry looks up to. -/
theorem pid_of_mem_named {t : Registry} {name : List Byte} {pid : Nat} (h : (t.named (trimName name)).length ≤ 1)
    (hlookup : t.lookup name = some pid) {e : ServiceEntry} (he : e ∈ t.named (trimName name)) : e.pid = pid := by
  obtain ⟨e', he', rfl⟩ := named_of_lookup hlookup
  cases hnamed : t.named (trimName name) with
  | nil =>
    rw [hnamed] at he
    cases he
  | cons a rest =>
    have hrest : rest = [] := by
      rw [hnamed, List.length_cons] at h
      exact List.eq_nil_of_length_eq_zero (by omega)
    rw [hnamed, hrest, List.mem_singleton] at he he'
    rw [he, he']

end Registry

end Rost
