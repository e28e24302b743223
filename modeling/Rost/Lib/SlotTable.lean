import Mathlib.Algebra.Order.Ring.Nat
import Mathlib.Tactic.Common
import Mathlib.Data.List.ReduceOption
import Mathlib.Data.List.Nodup

/-!
# Tables of keyed records

A table is a fixed number of slots, each empty or holding a record; no two records have the same key.  A table is
searched by key in slot order, a record is changed in place, a new one goes to the first empty slot, and removing one
empties its slot.  Since the keys are distinct, a table is a finite map from keys to records: the lemmas
`find?_mapAll`, `find?_update`, `find?_insert` and `find?_erase` say how each operation changes that map.
-/

namespace Rost.Lib

/-- `n` slots of optional records with distinct keys. -/
structure SlotTable (ρ κ : Type) (key : ρ → κ) (n : Nat) where
  slots : List (Option ρ)
  length_slots : slots.length = n
  distinct : (slots.reduceOption.map key).Nodup

namespace SlotTable

variable {ρ κ : Type} {key : ρ → κ} {n : Nat}

/-- The records of the table in slot order. -/
def entries (t : SlotTable ρ κ key n) : List ρ := t.slots.reduceOption

/-- The record with key `k`. -/
def find? [DecidableEq κ] (t : SlotTable ρ κ key n) (k : κ) : Option ρ :=
  t.entries.find? (fun r => decide (key r = k))

private theorem eq_of_key_eq {l : List ρ} (h : (l.map key).Nodup) {a b : ρ} (ha : a ∈ l) (hb : b ∈ l)
    (e : key a = key b) : a = b := List.inj_on_of_nodup_map h ha hb e

theorem find?_eq_some_iff [DecidableEq κ] {t : SlotTable ρ κ key n} {k : κ} {r : ρ} :
    t.find? k = some r ↔ r ∈ t.entries ∧ key r = k := by
  have found : ∀ {x}, t.find? k = some x → x ∈ t.entries ∧ key x = k := by
    intro x hx
    have hkey := List.find?_some hx
    exact ⟨List.mem_of_find?_eq_some hx, of_decide_eq_true hkey⟩
  refine ⟨found, fun ⟨hr, hkey⟩ => ?_⟩
  have hsome : (t.find? k).isSome := List.find?_isSome.2 ⟨r, hr, decide_eq_true hkey⟩
  obtain ⟨x, hx⟩ := Option.isSome_iff_exists.1 hsome
  obtain ⟨hm, hk⟩ := found hx
  rw [hx, eq_of_key_eq t.distinct hm hr (hk.trans hkey.symm)]

theorem mem_entries_iff [DecidableEq κ] {t : SlotTable ρ κ key n} {r : ρ} :
    r ∈ t.entries ↔ t.find? (key r) = some r := by
  rw [find?_eq_some_iff]; simp

private theorem find?_ext [DecidableEq κ] {t : SlotTable ρ κ key n} {k : κ} {f : Option ρ}
    (h : ∀ r, r ∈ t.entries ∧ key r = k ↔ f = some r) : t.find? k = f := by
  cases hf : f with
  | none =>
    cases ht : t.find? k with
    | none => rfl
    | some r =>
      have := (h r).1 (find?_eq_some_iff.1 ht)
      rw [hf] at this; cases this
  | some r => exact find?_eq_some_iff.2 ((h r).2 hf)

/-! ### The empty table -/

private theorem length_empty (ρ : Type) (n : Nat) : (List.replicate n (none : Option ρ)).length = n := List.length_replicate

private theorem nodup_empty (key : ρ → κ) (n : Nat) : ((List.replicate n (none : Option ρ)).reduceOption.map key).Nodup := by
  simp

/-- The table with all slots free. -/
def empty (ρ κ : Type) (key : ρ → κ) (n : Nat) : SlotTable ρ κ key n where
  slots := List.replicate n none
  length_slots := length_empty ρ n
  distinct := nodup_empty key n

theorem entries_empty : (empty ρ κ key n).entries = [] := by simp [empty, entries]

theorem find?_empty [DecidableEq κ] (k : κ) : (empty ρ κ key n).find? k = none := by
  simp [find?, entries_empty]

/-! ### Changing records in place -/

private theorem reduceOption_map_map (l : List (Option ρ)) (f : ρ → ρ) :
    (l.map (Option.map f)).reduceOption = l.reduceOption.map f := by
  induction l with
  | nil => rfl
  | cons a l ih => cases a <;> simp [List.reduceOption_cons_of_some, List.reduceOption_cons_of_none, ih]

/-- Apply `f` to every record; `f` keeps the keys. -/
def mapAll (t : SlotTable ρ κ key n) (f : ρ → ρ) (hf : ∀ r, key (f r) = key r) : SlotTable ρ κ key n where
  slots := t.slots.map (Option.map f)
  length_slots := by rw [List.length_map]; exact t.length_slots
  distinct := by
    rw [reduceOption_map_map, List.map_map, show key ∘ f = key from funext hf]
    exact t.distinct

theorem entries_mapAll (t : SlotTable ρ κ key n) (f : ρ → ρ) (hf : ∀ r, key (f r) = key r) :
    (t.mapAll f hf).entries = t.entries.map f := reduceOption_map_map t.slots f

theorem find?_mapAll [DecidableEq κ] (t : SlotTable ρ κ key n) (f : ρ → ρ) (hf : ∀ r, key (f r) = key r) (k : κ) :
    (t.mapAll f hf).find? k = (t.find? k).map f := by
  unfold find?
  rw [entries_mapAll, List.find?_map]
  congr 2
  funext r
  simp [hf r]

/-- Apply `f` to the record with key `k`. -/
def update [DecidableEq κ] (t : SlotTable ρ κ key n) (k : κ) (f : ρ → ρ) (hf : ∀ r, key (f r) = key r) :
    SlotTable ρ κ key n :=
  t.mapAll (fun r => if key r = k then f r else r) (fun r => by split <;> simp [hf r])

theorem find?_update [DecidableEq κ] (t : SlotTable ρ κ key n) (k : κ) (f : ρ → ρ) (hf : ∀ r, key (f r) = key r)
    (j : κ) : (t.update k f hf).find? j = if j = k then (t.find? j).map f else t.find? j := by
  unfold update
  rw [find?_mapAll]
  cases h : t.find? j with
  | none => simp
  | some r =>
    have hk := (find?_eq_some_iff.1 h).2
    subst hk
    by_cases hj : key r = k <;> simp [hj]

/-- Without a record for the key nothing is changed. -/
theorem update_of_find?_eq_none [DecidableEq κ] {t : SlotTable ρ κ key n} {k : κ} (h : t.find? k = none) (f : ρ → ρ)
    (hf : ∀ r, key (f r) = key r) : t.update k f hf = t := by
  have hslots : t.slots.map (Option.map fun r => if key r = k then f r else r) = t.slots := by
    conv => rhs; rw [← List.map_id t.slots]
    apply List.map_congr_left
    intro slot hslot
    cases slot with
    | none => rfl
    | some r =>
      have hr : r ∈ t.entries := List.reduceOption_mem_iff.2 hslot
      have hne : key r ≠ k := by
        intro hk
        rw [← hk, mem_entries_iff.1 hr] at h
        cases h
      simp [hne]
  cases t with
  | mk slots length_slots distinct =>
    unfold update mapAll
    congr

/-! ### Adding and removing records -/

/-- Put `r` into the first empty slot. -/
def fillFirst : List (Option ρ) → ρ → List (Option ρ)
  | [], _ => []
  | none :: rest, r => some r :: rest
  | some x :: rest, r => some x :: fillFirst rest r

private theorem length_fillFirst (l : List (Option ρ)) (r : ρ) : (fillFirst l r).length = l.length := by
  induction l with
  | nil => rfl
  | cons a l ih => cases a <;> simp [fillFirst, ih]

private theorem perm_fillFirst {l : List (Option ρ)} (r : ρ) (h : none ∈ l) :
    (fillFirst l r).reduceOption.Perm (r :: l.reduceOption) := by
  induction l with
  | nil => simp at h
  | cons a l ih =>
    cases a with
    | none => simp [fillFirst, List.reduceOption_cons_of_some, List.reduceOption_cons_of_none]
    | some x =>
      have hl : none ∈ l := by simpa using h
      simp only [fillFirst, List.reduceOption_cons_of_some]
      exact ((ih hl).cons x).trans (List.Perm.swap r x _)

private theorem fillFirst_of_full {l : List (Option ρ)} (r : ρ) (h : none ∉ l) : fillFirst l r = l := by
  induction l with
  | nil => rfl
  | cons a l ih =>
    cases a with
    | none => simp at h
    | some x =>
      have hl : none ∉ l := by simpa using h
      simp [fillFirst, ih hl]

/-- Some slot is empty. -/
def HasFree (t : SlotTable ρ κ key n) : Prop := ∃ s ∈ t.slots, s.isNone = true

instance (t : SlotTable ρ κ key n) : Decidable t.HasFree :=
  inferInstanceAs (Decidable (∃ s ∈ t.slots, s.isNone = true))

private theorem hasFree_iff (t : SlotTable ρ κ key n) : t.HasFree ↔ none ∈ t.slots := by
  unfold HasFree
  constructor
  · rintro ⟨s, hs, hn⟩
    rw [Option.isNone_iff_eq_none.1 hn] at hs; exact hs
  · intro h; exact ⟨none, h, rfl⟩

/-- Add the record `r`, whose key is new, in the first empty slot (a full table stays as it is). -/
def insert (t : SlotTable ρ κ key n) (r : ρ) (hr : ∀ x ∈ t.entries, key x ≠ key r) : SlotTable ρ κ key n where
  slots := fillFirst t.slots r
  length_slots := by rw [length_fillFirst]; exact t.length_slots
  distinct := by
    by_cases h : none ∈ t.slots
    · rw [((perm_fillFirst r h).map key).nodup_iff, List.map_cons, List.nodup_cons]
      refine ⟨?_, t.distinct⟩
      intro hm
      obtain ⟨x, hx, e⟩ := List.mem_map.1 hm
      exact hr x hx e
    · rw [fillFirst_of_full r h]; exact t.distinct

theorem perm_entries_insert {t : SlotTable ρ κ key n} {r : ρ} {hr : ∀ x ∈ t.entries, key x ≠ key r}
    (hfree : t.HasFree) : (t.insert r hr).entries.Perm (r :: t.entries) :=
  perm_fillFirst r ((hasFree_iff t).1 hfree)

/-- A slot is free exactly when there are fewer records than slots. -/
theorem hasFree_iff_length (t : SlotTable ρ κ key n) : t.HasFree ↔ t.entries.length < n := by
  rw [hasFree_iff, ← List.reduceOption_length_lt_iff, t.length_slots]
  rfl

theorem length_entries_le (t : SlotTable ρ κ key n) : t.entries.length ≤ n := by
  have := List.reduceOption_length_le t.slots
  rwa [t.length_slots] at this

theorem mem_entries_insert {t : SlotTable ρ κ key n} {r : ρ} {hr : ∀ x ∈ t.entries, key x ≠ key r}
    (hfree : t.HasFree) {x : ρ} : x ∈ (t.insert r hr).entries ↔ x = r ∨ x ∈ t.entries := by
  rw [(perm_entries_insert hfree).mem_iff, List.mem_cons]

theorem find?_insert [DecidableEq κ] {t : SlotTable ρ κ key n} {r : ρ} {hr : ∀ x ∈ t.entries, key x ≠ key r}
    (hfree : t.HasFree) (k : κ) : (t.insert r hr).find? k = if k = key r then some r else t.find? k := by
  apply find?_ext
  intro x
  rw [mem_entries_insert hfree]
  by_cases hk : k = key r
  · rw [if_pos hk]
    constructor
    · rintro ⟨rfl | hx, hkey⟩
      · rfl
      · exact absurd (hkey.trans hk) (hr x hx)
    · intro h
      rw [Option.some.injEq] at h
      subst h
      exact ⟨Or.inl rfl, hk.symm⟩
  · rw [if_neg hk, find?_eq_some_iff]
    constructor
    · rintro ⟨rfl | hx, hkey⟩
      · exact absurd hkey.symm hk
      · exact ⟨hx, hkey⟩
    · rintro ⟨hx, hkey⟩; exact ⟨Or.inr hx, hkey⟩

private theorem reduceOption_clear [DecidableEq κ] (l : List (Option ρ)) (k : κ) :
    (l.map (Option.filter fun r => decide (key r ≠ k))).reduceOption =
      l.reduceOption.filter (fun r => decide (key r ≠ k)) := by
  induction l with
  | nil => rfl
  | cons a l ih =>
    cases a with
    | none => simpa [List.reduceOption_cons_of_none] using ih
    | some x =>
      by_cases hx : key x = k
      · simpa [Option.filter, hx, List.reduceOption_cons_of_none, List.reduceOption_cons_of_some] using ih
      · simpa [Option.filter, hx, List.reduceOption_cons_of_some] using ih

/-- Empty the slot of the record with key `k`. -/
def erase [DecidableEq κ] (t : SlotTable ρ κ key n) (k : κ) : SlotTable ρ κ key n where
  slots := t.slots.map (Option.filter fun r => decide (key r ≠ k))
  length_slots := by rw [List.length_map]; exact t.length_slots
  distinct := by
    rw [reduceOption_clear]
    exact t.distinct.sublist (List.filter_sublist.map key)

theorem mem_entries_erase [DecidableEq κ] {t : SlotTable ρ κ key n} {k : κ} {x : ρ} :
    x ∈ (t.erase k).entries ↔ x ∈ t.entries ∧ key x ≠ k := by
  unfold erase entries
  rw [reduceOption_clear, List.mem_filter]
  simp

/-- The records are the erased one and the rest. -/
theorem perm_entries_erase [DecidableEq κ] {t : SlotTable ρ κ key n} {k : κ} {r : ρ} (h : t.find? k = some r) :
    t.entries.Perm (r :: (t.erase k).entries) := by
  obtain ⟨hr, hkey⟩ := find?_eq_some_iff.1 h
  have hnodup : (r :: (t.erase k).entries).Nodup := by
    refine List.nodup_cons.2 ⟨fun hm => (mem_entries_erase.1 hm).2 hkey, (t.erase k).distinct.of_map⟩
  refine (List.perm_ext_iff_of_nodup t.distinct.of_map hnodup).2 fun x => ?_
  rw [List.mem_cons, mem_entries_erase]
  change x ∈ t.entries ↔ _
  constructor
  · intro hx
    by_cases hk : key x = k
    · exact Or.inl (eq_of_key_eq t.distinct hx hr (hk.trans hkey.symm))
    · exact Or.inr ⟨hx, hk⟩
  · rintro (rfl | ⟨hx, -⟩)
    · exact hr
    · exact hx

theorem find?_erase [DecidableEq κ] (t : SlotTable ρ κ key n) (k j : κ) :
    (t.erase k).find? j = if j = k then none else t.find? j := by
  apply find?_ext
  intro x
  rw [mem_entries_erase]
  by_cases hj : j = k
  · subst hj; simp
  · rw [if_neg hj, find?_eq_some_iff]
    constructor
    · rintro ⟨⟨hx, -⟩, hkey⟩; exact ⟨hx, hkey⟩
    · rintro ⟨hx, hkey⟩; exact ⟨⟨hx, fun e => hj (hkey.symm.trans e)⟩, hkey⟩

end SlotTable

end Rost.Lib
