import Rost.Lib.Bindings
import Rost.Shell.Vars

/-!
# The stores as finite maps

The arrays behind variables and aliases: an entry has room for a name and a value and says how much of each it uses;
what lies behind that, or behind the last entry, is left over from earlier.  Read through `bindings`, such an array is a
`Store` (`view_set`, `view_unset`), and a store whose names are distinct is a finite map (`lookup`), after any history
of bindings and removals.
-/

namespace Rost.Shell

open Vfs (Bytes ascii)
open Lib.Bindings (isKey lookup Distinct rebind swapRemove keys_rebind distinct_snoc distinct_swapRemove lookup_rebind
  lookup_snoc lookup_swapRemove lookup_eq_none_iff lookup_eq_some_iff swapRemove_of_not_mem)

/-! ### Stores and bindings -/

namespace Store

variable {cap : Nat}

theorem ext_entries {s t : Store cap} (h : s.entries = t.entries) : s = t := by
  cases s
  cases t
  congr

theorem hasName_eq (name : Bytes) : hasName name = isKey (name.take nameMax) := by
  funext e
  exact beq_eq_decide ..

theorem get_eq (s : Store cap) (name : Bytes) : s.get name = lookup s.entries (name.take nameMax) := by
  unfold get lookup
  rw [hasName_eq]

theorem any_hasName (s : Store cap) (name : Bytes) :
    s.entries.any (hasName name) = true ↔ name.take nameMax ∈ s.entries.map Prod.fst := by
  rw [hasName_eq, List.any_eq_true, List.mem_map]
  unfold isKey
  simp only [decide_eq_true_eq]

/-- A name is bound again, bound at the end, or refused by a full store. -/
theorem set_cases (s : Store cap) (name val : Bytes) :
    (name.take nameMax ∈ s.entries.map Prod.fst ∧ (s.set name val).2 = true ∧
      (s.set name val).1.entries = rebind s.entries (name.take nameMax) (val.take valMax)) ∨
    (name.take nameMax ∉ s.entries.map Prod.fst ∧
      ((s.entries.length < cap ∧ (s.set name val).2 = true ∧
          (s.set name val).1.entries = s.entries ++ [(name.take nameMax, val.take valMax)]) ∨
       (s.entries.length = cap ∧ s.set name val = (s, false)))) := by
  have hle := s.length_le
  unfold set
  by_cases hbound : s.entries.any (hasName name) = true
  · rw [if_pos hbound]
    refine Or.inl ⟨(any_hasName s name).1 hbound, rfl, ?_⟩
    show s.entries.modify _ _ = _
    rw [hasName_eq]
    rfl
  · rw [if_neg hbound]
    refine Or.inr ⟨fun hmem => hbound ((any_hasName s name).2 hmem), ?_⟩
    by_cases hroom : s.entries.length < cap
    · rw [dif_pos hroom]
      exact Or.inl ⟨hroom, rfl, rfl⟩
    · rw [dif_neg hroom]
      exact Or.inr ⟨by omega, rfl⟩

theorem entries_remove (s : Store cap) (name : Bytes) :
    (s.remove name).entries = swapRemove s.entries (name.take nameMax) := by
  unfold remove swapRemove
  rw [hasName_eq]
  cases s.entries.findIdx? (isKey (name.take nameMax)) with
  | none => rfl
  | some i =>
    cases s.entries.getLast? with
    | none => rfl
    | some last => rfl

theorem distinct_set {s : Store cap} (h : Distinct s.entries) (name val : Bytes) :
    Distinct (s.set name val).1.entries := by
  rcases s.set_cases name val with ⟨-, -, heq⟩ | ⟨hfresh, ⟨-, -, heq⟩ | ⟨-, heq⟩⟩
  · rw [heq]
    unfold Distinct
    rw [keys_rebind]
    exact h
  · rw [heq]
    exact distinct_snoc h hfresh
  · rw [heq]
    exact h

theorem distinct_remove {s : Store cap} (h : Distinct s.entries) (name : Bytes) : Distinct (s.remove name).entries := by
  rw [entries_remove]
  exact distinct_swapRemove h _

/-- A binding that is accepted is the map changed at the name. -/
theorem lookup_set {s : Store cap} {name val : Bytes} (hok : (s.set name val).2 = true) :
    lookup (s.set name val).1.entries =
      Function.update (lookup s.entries) (name.take nameMax) (some (val.take valMax)) := by
  rcases s.set_cases name val with ⟨hmem, -, heq⟩ | ⟨hfresh, ⟨-, -, heq⟩ | ⟨-, heq⟩⟩
  · rw [heq, lookup_rebind hmem]
  · rw [heq, lookup_snoc hfresh]
  · rw [heq] at hok
    cases hok

theorem set_refused_iff (s : Store cap) (name val : Bytes) :
    (s.set name val).2 = false ↔ s.entries.length = cap ∧ s.get name = none := by
  rw [get_eq, lookup_eq_none_iff]
  rcases s.set_cases name val with ⟨hmem, hok, -⟩ | ⟨hfresh, ⟨hroom, hok, -⟩ | ⟨hfull, heq⟩⟩
  · rw [hok]
    exact ⟨fun h => (by cases h), fun h => absurd hmem h.2⟩
  · rw [hok]
    exact ⟨fun h => (by cases h), fun h => absurd h.1 (Nat.ne_of_lt hroom)⟩
  · rw [heq]
    exact ⟨fun _ => ⟨hfull, hfresh⟩, fun _ => rfl⟩

end Store

/-! ### The arrays -/

structure Entry where
  name : Vector Byte nameMax
  val : Vector Byte valMax
  nameLen : Nat
  valLen : Nat
  nameLen_le : nameLen ≤ nameMax
  valLen_le : valLen ≤ valMax

/-- `dst[..src.len()].copy_from_slice(src)` -/
def copyFromSlice {n : Nat} (dst : Vector Byte n) (src : Bytes) : Vector Byte n :=
  Vector.ofFn fun i => (src[i.val]?).getD dst[i]

/-- The first `len` bytes stay, the others become 0. -/
def zeroFrom {n : Nat} (dst : Vector Byte n) (len : Nat) : Vector Byte n :=
  Vector.ofFn fun i => if i.val < len then dst[i] else 0

namespace Entry

def empty : Entry where
  name := Vector.replicate nameMax 0
  val := Vector.replicate valMax 0
  nameLen := 0
  valLen := 0
  nameLen_le := Nat.zero_le _
  valLen_le := Nat.zero_le _

/-- The test of the three loops. -/
def matchesName (e : Entry) (name : Bytes) : Bool :=
  let nl := min name.length nameMax
  decide (e.nameLen = nl) && decide (e.name.toList.take nl = name.take nl)

/-- The value of a name that is bound already. -/
def setVal (e : Entry) (val : Bytes) : Entry :=
  let vl := min val.length valMax
  { e with
    val := zeroFrom (copyFromSlice e.val (val.take vl)) vl
    valLen := vl
    valLen_le := Nat.min_le_right _ _ }

/-- A new binding; nothing is zeroed here. -/
def assign (e : Entry) (name val : Bytes) : Entry where
  name := copyFromSlice e.name (name.take (min name.length nameMax))
  val := copyFromSlice e.val (val.take (min val.length valMax))
  nameLen := min name.length nameMax
  valLen := min val.length valMax
  nameLen_le := Nat.min_le_right _ _
  valLen_le := Nat.min_le_right _ _

/-- The name and the value as slices. -/
def slices (e : Entry) : Bytes × Bytes := (e.name.toList.take e.nameLen, e.val.toList.take e.valLen)

private theorem take_copyFromSlice {n : Nat} (dst : Vector Byte n) (src : Bytes) (h : src.length ≤ n) :
    (copyFromSlice dst src).toList.take src.length = src := by
  refine List.ext_getElem? fun i => ?_
  rw [List.getElem?_take]
  by_cases hi : i < src.length
  · have hn : i < n := by omega
    rw [if_pos hi, Vector.getElem?_toList, Vector.getElem?_eq_getElem hn]
    unfold copyFromSlice
    rw [Vector.getElem_ofFn, List.getElem?_eq_getElem hi]
    rfl
  · rw [if_neg hi, List.getElem?_eq_none (by omega)]

private theorem take_zeroFrom {n : Nat} (dst : Vector Byte n) (len : Nat) :
    (zeroFrom dst len).toList.take len = dst.toList.take len := by
  refine List.ext_getElem? fun i => ?_
  rw [List.getElem?_take, List.getElem?_take]
  by_cases hi : i < len
  · rw [if_pos hi, if_pos hi, Vector.getElem?_toList, Vector.getElem?_toList]
    unfold zeroFrom
    rw [Vector.getElem?_ofFn]
    by_cases hn : i < n
    · rw [dif_pos hn, Vector.getElem?_eq_getElem hn]
      simp [hi]
    · rw [dif_neg hn, Vector.getElem?_eq_none (by omega)]
  · rw [if_neg hi, if_neg hi]

private theorem take_min_length (l : Bytes) (n : Nat) : l.take (min l.length n) = l.take n := by
  rw [List.take_eq_take_iff]
  omega

private theorem length_take_min (l : Bytes) (n : Nat) : (l.take (min l.length n)).length = min l.length n := by
  rw [List.length_take]
  omega

/-- Names are compared up to 32 bytes. -/
theorem matchesName_eq (e : Entry) (name : Bytes) : e.matchesName name = isKey (name.take nameMax) e.slices := by
  have hsize : e.name.toList.length = nameMax := Vector.length_toList
  have hle := e.nameLen_le
  have hiff : (e.nameLen = min name.length nameMax ∧
      e.name.toList.take (min name.length nameMax) = name.take (min name.length nameMax)) ↔
      e.name.toList.take e.nameLen = name.take nameMax := by
    rw [take_min_length]
    constructor
    · rintro ⟨hlen, hname⟩
      rw [hlen]
      exact hname
    · intro hname
      have hlen := congrArg List.length hname
      rw [List.length_take, List.length_take, hsize] at hlen
      have hmin : e.nameLen = min name.length nameMax := by omega
      exact ⟨hmin, by rw [← hmin]; exact hname⟩
  unfold matchesName isKey slices
  rw [← Bool.decide_and]
  exact decide_eq_decide.2 hiff

theorem slices_setVal (e : Entry) (val : Bytes) : (e.setVal val).slices = (e.slices.1, val.take valMax) := by
  have hval := take_copyFromSlice e.val (val.take (min val.length valMax)) (by rw [length_take_min]; omega)
  rw [length_take_min] at hval
  unfold setVal slices
  simp only
  rw [take_zeroFrom, hval, take_min_length]

theorem slices_assign (e : Entry) (name val : Bytes) :
    (e.assign name val).slices = (name.take nameMax, val.take valMax) := by
  have hname := take_copyFromSlice e.name (name.take (min name.length nameMax)) (by rw [length_take_min]; omega)
  have hval := take_copyFromSlice e.val (val.take (min val.length valMax)) (by rw [length_take_min]; omega)
  rw [length_take_min] at hname hval
  unfold assign slices
  simp only
  rw [hname, hval, take_min_length, take_min_length]

end Entry

/-- `VarStore` and `AliasStore`, as arrays. -/
structure StoreArray (cap : Nat) where
  entries : List Entry
  count : Nat
  length_entries : entries.length = cap
  count_le : count ≤ cap

namespace StoreArray

variable {cap : Nat}

def new (cap : Nat) : StoreArray cap := ⟨List.replicate cap Entry.empty, 0, List.length_replicate, Nat.zero_le cap⟩

/-- The first entry in use that has the name. -/
def find (t : StoreArray cap) (name : Bytes) : Option Nat := (t.entries.take t.count).findIdx? fun e => e.matchesName name

def set (t : StoreArray cap) (name val : Bytes) : StoreArray cap × Bool :=
  match t.find name with
  | some i =>
    ({ t with
       entries := t.entries.modify i fun e => e.setVal val
       length_entries := by rw [List.length_modify]; exact t.length_entries }, true)
  | none =>
    if h : t.count < cap then
      ({ entries := t.entries.modify t.count fun e => e.assign name val
         count := t.count + 1
         length_entries := by rw [List.length_modify]; exact t.length_entries
         count_le := h }, true)
    else (t, false)

def get (t : StoreArray cap) (name : Bytes) : Option Bytes :=
  match t.find name with
  | some i => (t.entries[i]?).map fun e => e.slices.2
  | none => none

/-- `unset` of variables, `remove` of aliases. -/
def unset (t : StoreArray cap) (name : Bytes) : StoreArray cap :=
  match t.find name with
  | some i =>
    { entries := if i < t.count - 1 then t.entries.set i (t.entries.getD (t.count - 1) Entry.empty) else t.entries
      count := t.count - 1
      length_entries := by
        split
        · rw [List.length_set]; exact t.length_entries
        · exact t.length_entries
      count_le := Nat.le_trans (Nat.sub_le _ _) t.count_le }
  | none => t

def entry (t : StoreArray cap) (i : Nat) : Option (Bytes × Bytes) :=
  if t.count ≤ i then none else (t.entries[i]?).map Entry.slices

/-- What is bound, in the order of the array. -/
def bindings (t : StoreArray cap) : List (Bytes × Bytes) := (t.entries.take t.count).map Entry.slices

/-- The array as a store. -/
def view (t : StoreArray cap) : Store cap := ⟨t.bindings, by
  unfold bindings
  rw [List.length_map, List.length_take]
  have := t.count_le
  omega⟩

/-! ### The array as a store -/

theorem find_eq (t : StoreArray cap) (name : Bytes) : t.find name = t.bindings.findIdx? (isKey (name.take nameMax)) := by
  unfold find bindings
  rw [List.findIdx?_map]
  congr 1
  funext e
  exact e.matchesName_eq name

theorem find_lt {t : StoreArray cap} {name : Bytes} {i : Nat} (h : t.find name = some i) : i < t.count := by
  rw [find_eq] at h
  obtain ⟨hi, -⟩ := List.findIdx?_eq_some_iff_getElem.1 h
  unfold bindings at hi
  rw [List.length_map, List.length_take] at hi
  omega

theorem length_bindings (t : StoreArray cap) : t.bindings.length = t.count := by
  have hle := t.count_le
  have hlen := t.length_entries
  unfold bindings
  rw [List.length_map, List.length_take]
  omega

theorem entry_eq (t : StoreArray cap) (i : Nat) : t.entry i = t.bindings[i]? := by
  unfold entry bindings
  rw [List.getElem?_map, List.getElem?_take]
  by_cases hi : t.count ≤ i
  · rw [if_pos hi, if_neg (by omega)]
    rfl
  · rw [if_neg hi, if_pos (by omega)]

private theorem slices_modify {f : Entry → Entry} {g : Bytes × Bytes → Bytes × Bytes}
    (h : ∀ e, (f e).slices = g e.slices) (es : List Entry) (i : Nat) :
    (es.modify i f).map Entry.slices = (es.map Entry.slices).modify i g := by
  refine List.ext_getElem? fun j => ?_
  rw [List.getElem?_map, List.getElem?_modify, List.getElem?_modify, List.getElem?_map]
  cases es[j]? with
  | none => rfl
  | some e =>
    by_cases hj : i = j
    · simp [hj, h]
    · simp [hj]

private theorem mem_keys_of_find {t : StoreArray cap} {name : Bytes} {i : Nat} (h : t.find name = some i) :
    name.take nameMax ∈ t.bindings.map Prod.fst ∧ t.bindings.findIdx (isKey (name.take nameMax)) = i := by
  rw [find_eq] at h
  obtain ⟨hi, hidx⟩ := List.findIdx?_eq_some_iff_findIdx_eq.1 h
  obtain ⟨_, hfound, -⟩ := List.findIdx?_eq_some_iff_getElem.1 h
  exact ⟨List.mem_map.2 ⟨_, List.getElem_mem hi, of_decide_eq_true hfound⟩, hidx⟩

private theorem not_mem_keys_of_find {t : StoreArray cap} {name : Bytes} (h : t.find name = none) :
    name.take nameMax ∉ t.bindings.map Prod.fst := by
  rw [find_eq, List.findIdx?_eq_none_iff] at h
  intro hmem
  obtain ⟨e, he, hkey⟩ := List.mem_map.1 hmem
  exact absurd hkey (of_decide_eq_false (h e he))

theorem view_set (t : StoreArray cap) (name val : Bytes) :
    (t.set name val).1.view = (t.view.set name val).1 ∧ (t.set name val).2 = (t.view.set name val).2 := by
  have hcount := t.length_bindings
  have hlen := t.length_entries
  -- the array and the store agree on whether the name is bound, and on whether there is room
  cases hfind : t.find name with
  | some i =>
    obtain ⟨hmem, hidx⟩ := mem_keys_of_find hfind
    rcases t.view.set_cases name val with ⟨-, hok, hentries⟩ | ⟨hno, -⟩
    · have hset : (t.set name val).1.bindings = rebind t.bindings (name.take nameMax) (val.take valMax) ∧
          (t.set name val).2 = true := by
        unfold set bindings rebind
        rw [hfind]
        refine ⟨?_, rfl⟩
        show ((t.entries.modify i _).take t.count).map _ = _
        rw [List.take_modify, slices_modify (g := fun e => (e.1, val.take valMax)) (fun e => e.slices_setVal val)]
        exact congrArg (fun j => List.modify (t.bindings) j _) hidx.symm
      exact ⟨Store.ext_entries (hset.1.trans hentries.symm), hset.2.trans hok.symm⟩
    · exact absurd hmem hno
  | none =>
    have hfresh := not_mem_keys_of_find hfind
    rcases t.view.set_cases name val with ⟨hmem, -⟩ | ⟨-, ⟨hroom, hok, hentries⟩ | ⟨hfull, heq⟩⟩
    · exact absurd hmem hfresh
    · -- the first entry that is not in use gets the name
      have hlt : t.count < cap := hcount ▸ hroom
      have hset : (t.set name val).1.bindings = t.bindings ++ [(name.take nameMax, val.take valMax)] ∧
          (t.set name val).2 = true := by
        unfold set
        rw [hfind]
        simp only
        rw [dif_pos hlt]
        refine ⟨?_, rfl⟩
        unfold bindings
        simp only
        rw [List.take_add_one, List.take_modify, List.getElem?_modify_eq, List.getElem?_eq_getElem (by omega),
          List.modify_eq_self (by rw [List.length_take]; omega)]
        simp [Entry.slices_assign]
      exact ⟨Store.ext_entries (hset.1.trans hentries.symm), hset.2.trans hok.symm⟩
    · have hge : ¬ t.count < cap := by
        have hviewlen : t.view.entries.length = t.count := hcount
        omega
      have hset : t.set name val = (t, false) := by
        unfold set
        rw [hfind]
        exact dif_neg hge
      rw [hset, heq]
      exact ⟨rfl, rfl⟩

theorem view_unset (t : StoreArray cap) (name : Bytes) : (t.unset name).view = t.view.remove name := by
  refine Store.ext_entries (Eq.trans ?_ (Store.entries_remove t.view name).symm)
  have hcount := t.length_bindings
  show (t.unset name).bindings = swapRemove t.bindings (name.take nameMax)
  cases hfind : t.find name with
  | none =>
    rw [swapRemove_of_not_mem (not_mem_keys_of_find hfind)]
    unfold unset
    rw [hfind]
  | some i =>
    have hi := find_lt hfind
    have hlt : t.count - 1 < t.entries.length := by
      have hle := t.count_le
      have hlen := t.length_entries
      omega
    generalize hmoved : t.entries.getD (t.count - 1) Entry.empty = moved
    have hlast : t.bindings.getLast? = some moved.slices := by
      rw [List.getLast?_eq_getElem?, hcount, ← entry_eq]
      unfold entry
      rw [if_neg (by omega), ← hmoved, List.getD_eq_getElem?_getD, List.getElem?_eq_getElem hlt]
      rfl
    have hswap : swapRemove t.bindings (name.take nameMax) =
        ((t.entries.take (t.count - 1)).map Entry.slices).set i moved.slices := by
      unfold swapRemove
      rw [← find_eq, hfind, hlast]
      show (t.bindings.set i moved.slices).dropLast = _
      rw [List.dropLast_eq_take, List.length_set, hcount, List.take_set]
      unfold bindings
      rw [← List.map_take, List.take_take, Nat.min_eq_left (Nat.sub_le _ _)]
    have hunset : (t.unset name).bindings =
        ((if i < t.count - 1 then t.entries.set i moved else t.entries).take (t.count - 1)).map Entry.slices := by
      unfold unset bindings
      rw [hfind, ← hmoved]
    rw [hswap, hunset]
    by_cases hmove : i < t.count - 1
    · rw [if_pos hmove, List.take_set, List.map_set]
    · -- the entry that goes is the last one
      have hend : ((t.entries.take (t.count - 1)).map Entry.slices).length ≤ i := by
        rw [List.length_map, List.length_take]
        omega
      rw [if_neg hmove, List.set_eq_of_length_le hend]

theorem get_eq (t : StoreArray cap) (name : Bytes) : t.get name = t.view.get name := by
  unfold get Store.get
  rw [Store.hasName_eq]
  show _ = (t.bindings.find? (isKey (name.take nameMax))).map Prod.snd
  cases hfind : t.find name with
  | none =>
    rw [find_eq, List.findIdx?_eq_none_iff] at hfind
    rw [List.find?_eq_none.2 fun e he => by rw [hfind e he]; exact Bool.false_ne_true]
    rfl
  | some i =>
    have hi := find_lt hfind
    have hidx := hfind
    rw [find_eq] at hidx
    have hentry := t.entry_eq i
    unfold entry at hentry
    rw [if_neg (by omega)] at hentry
    rw [List.find?_eq_getElem?_findIdx, (mem_keys_of_find hfind).2, ← hentry, Option.map_map]
    rfl

/-! ### Any history -/

/-- A call that changes the store. -/
inductive Call where
  | set (name val : Bytes)
  | unset (name : Bytes)

def call (t : StoreArray cap) : Call → StoreArray cap
  | .set name val => (t.set name val).1
  | .unset name => t.unset name

/-- The store after the calls `cs`. -/
def after (cap : Nat) (cs : List Call) : StoreArray cap := cs.foldl call (new cap)

theorem distinct_call {t : StoreArray cap} (h : Distinct t.bindings) (c : Call) : Distinct (t.call c).bindings := by
  cases c with
  | set name val =>
    have hset := Store.distinct_set (s := t.view) h name val
    rw [← (t.view_set name val).1] at hset
    exact hset
  | unset name =>
    have hunset := Store.distinct_remove (s := t.view) h name
    rw [← t.view_unset name] at hunset
    exact hunset

theorem distinct_after (cs : List Call) : Distinct (after cap cs).bindings := by
  have hrun : ∀ (cs : List Call) (t : StoreArray cap), Distinct t.bindings → Distinct (cs.foldl call t).bindings := by
    intro cs
    induction cs with
    | nil => exact fun t h => h
    | cons c cs ih => exact fun t h => ih (t.call c) (distinct_call h c)
  exact hrun cs (new cap) List.nodup_nil

theorem get_eq_lookup (t : StoreArray cap) {name : Bytes} (h : name.length ≤ nameMax) :
    t.get name = lookup t.bindings name := by
  rw [get_eq, Store.get_eq, List.take_of_length_le h]
  rfl

/-- The entries that are enumerated are the bindings. -/
theorem filterMap_entry (t : StoreArray cap) : (List.range t.count).filterMap t.entry = t.bindings := by
  have hentry : t.entry = fun i => t.bindings[i]? := funext t.entry_eq
  have hget : ∀ l : List (Bytes × Bytes), (List.range l.length).filterMap (fun i => l[i]?) = l := by
    intro l
    induction l with
    | nil => rfl
    | cons e l ih =>
      rw [List.length_cons, List.range_succ_eq_map, List.filterMap_cons, List.filterMap_map]
      exact congrArg (e :: ·) ih
  rw [hentry, ← t.length_bindings]
  exact hget t.bindings

/-- After any history the store is a finite map: what is accepted is bound and what is unset is free, other names keep
their values, only a full store refuses a new name, and the entries are the bindings, each once. -/
theorem store_lawful (cap : Nat) (cs : List Call) :
    (∀ name val : Bytes, name.length ≤ 32 → val.length ≤ 128 →
      (((after cap cs).set name val).2 = true → ∀ q : Bytes, q.length ≤ 32 →
        ((after cap cs).set name val).1.get q = if q = name then some val else (after cap cs).get q) ∧
      (((after cap cs).set name val).2 = false ↔ (after cap cs).count = cap ∧ (after cap cs).get name = none)) ∧
    (∀ name : Bytes, name.length ≤ 32 → ∀ q : Bytes, q.length ≤ 32 →
      ((after cap cs).unset name).get q = if q = name then none else (after cap cs).get q) ∧
    (∀ i, i < (after cap cs).count → ((after cap cs).entry i).isSome) ∧
    (((List.range (after cap cs).count).filterMap (after cap cs).entry).map Prod.fst).Nodup ∧
    ∀ name val : Bytes, name.length ≤ 32 →
      ((name, val) ∈ (List.range (after cap cs).count).filterMap (after cap cs).entry ↔
        (after cap cs).get name = some val) := by
  have hdistinct : Distinct (after cap cs).bindings := distinct_after cs
  have hshort : ∀ b : Bytes, b.length ≤ 32 → b.take nameMax = b := fun b hb => List.take_of_length_le hb
  generalize after cap cs = t at hdistinct ⊢
  refine ⟨fun name val hname hval => ⟨fun hok q hq => ?_, ?_⟩, fun name hname q hq => ?_, fun i hi => ?_, ?_,
    fun name val hname => ?_⟩
  · rw [(t.view_set name val).2] at hok
    have hlookup := congrFun (Store.lookup_set hok) q
    have hwhole : val.take valMax = val := List.take_of_length_le hval
    rw [hshort name hname, hwhole, Function.update_apply] at hlookup
    rw [get_eq, (t.view_set name val).1, Store.get_eq, hshort q hq, get_eq_lookup t hq]
    exact hlookup
  · rw [(t.view_set name val).2, Store.set_refused_iff, ← get_eq]
    exact and_congr_left fun _ => by rw [← t.length_bindings]; rfl
  · have hlookup := congrFun (lookup_swapRemove hdistinct name) q
    rw [Function.update_apply] at hlookup
    rw [get_eq, view_unset, Store.get_eq, Store.entries_remove, hshort name hname, hshort q hq, get_eq_lookup t hq]
    exact hlookup
  · rw [entry_eq, List.getElem?_eq_getElem (by rw [length_bindings]; exact hi)]
    rfl
  · rw [filterMap_entry]
    exact hdistinct
  · rw [filterMap_entry, get_eq_lookup t hname, lookup_eq_some_iff hdistinct]

/-- The alias table, with an entry taken from the middle. -/
theorem store_lawful_aliases :
    (((after maxAliases [.set (ascii "ll") (ascii "ls"), .set (ascii "h") (ascii "history"), .set (ascii "q") (ascii "exit"),
      .unset (ascii "ll")]).set (ascii "h") (ascii "help")).2 = true) ∧
    ((after maxAliases [.set (ascii "ll") (ascii "ls"), .set (ascii "h") (ascii "history"), .set (ascii "q") (ascii "exit"),
      .unset (ascii "ll")]).set (ascii "h") (ascii "help")).1.get (ascii "q") =
      (after maxAliases [.set (ascii "ll") (ascii "ls"), .set (ascii "h") (ascii "history"),
        .set (ascii "q") (ascii "exit"), .unset (ascii "ll")]).get (ascii "q") := by
  have hok : ((after maxAliases [.set (ascii "ll") (ascii "ls"), .set (ascii "h") (ascii "history"),
      .set (ascii "q") (ascii "exit"), .unset (ascii "ll")]).set (ascii "h") (ascii "help")).2 = true := by decide +kernel
  have hother := ((store_lawful maxAliases _).1 (ascii "h") (ascii "help") (by decide) (by decide)).1 hok (ascii "q")
    (by decide)
  rw [if_neg (by decide)] at hother
  exact ⟨hok, hother⟩

end StoreArray

end Rost.Shell
