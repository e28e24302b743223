import Rost.Ipc.Message
import Mathlib.Data.List.TakeWhile

/-!
# Paths

A path is a sequence of bytes that ends at the first NUL.  The writable layer compares paths without one trailing slash
(`canon`); the static tree and the FAT32 layer split a path at its slashes.  A request carries 48 bytes of path, or 40
bytes of data, packed into its words.
-/

namespace Rost.Vfs

abbrev Bytes := List Byte

/-- The bytes of an ASCII string. -/
def ascii (s : String) : Bytes := s.toList.map fun c => BitVec.ofNat 8 c.toNat

/-- `b'/'`. -/
def slash : Byte := 0x2F

def pathBytes : Nat := 48
def chunkSize : Nat := 40
def nameBytes : Nat := 40

/-- The bytes before the first NUL. -/
def trimNull (s : Bytes) : Bytes := s.takeWhile fun b => b != 0

/-- Strip one trailing slash, except from the bare one. -/
def canon (p : Bytes) : Bytes := if 1 < p.length ∧ p.getLast? = some slash then p.dropLast else p

/-- What stands before the first slash, and what follows it. -/
def splitFirst (p : Bytes) : Bytes × Bytes := (p.takeWhile fun b => b != slash, (p.dropWhile fun b => b != slash).drop 1)

/-- `to_ascii_lowercase`. -/
def toLower (b : Byte) : Byte := if 0x41 ≤ b.toNat ∧ b.toNat ≤ 0x5A then b + 0x20 else b

/-- The names are equal up to the case of ASCII letters. -/
def eqCi (a b : Bytes) : Bool := decide (a.map toLower = b.map toLower)

/-- Byte `i` of the bytes that are packed into the words from `first` on. -/
def unpackByte (words : Vector Word dataFields) (first i : Nat) : Byte :=
  if h : first + i / 8 < dataFields then (words[first + i / 8] >>> (8 * (i % 8))).setWidth 8 else 0

def unpackPath (words : Vector Word dataFields) : Bytes := (List.range pathBytes).map (unpackByte words 2)

/-- The 40 bytes from word `first` on. -/
def unpackBytesFrom (words : Vector Word dataFields) (first : Nat) : Bytes :=
  (List.range chunkSize).map (unpackByte words first)

@[simp] theorem length_unpackPath (words : Vector Word dataFields) : (unpackPath words).length = pathBytes := by
  simp [unpackPath]

@[simp] theorem length_unpackBytesFrom (words : Vector Word dataFields) (first : Nat) :
    (unpackBytesFrom words first).length = chunkSize := by
  simp [unpackBytesFrom]

/-! ### NUL bytes -/

theorem length_trimNull_le (s : Bytes) : (trimNull s).length ≤ s.length := (List.takeWhile_prefix _).length_le

theorem not_mem_trimNull (s : Bytes) : (0 : Byte) ∉ trimNull s := by
  intro h
  have := List.mem_takeWhile_imp h
  simp at this

theorem trimNull_of_not_mem {s : Bytes} (h : (0 : Byte) ∉ s) : trimNull s = s := by
  unfold trimNull
  rw [List.takeWhile_eq_self_iff]
  intro b hb
  have hne : b ≠ 0 := fun hz => h (hz ▸ hb)
  simpa using hne

@[simp] theorem trimNull_trimNull (s : Bytes) : trimNull (trimNull s) = trimNull s :=
  trimNull_of_not_mem (not_mem_trimNull s)

/-! ### Joining paths -/

/-- The path of a name in a directory, with one slash between them. -/
def joinPath (p name : Bytes) : Bytes := if p.getLast? = some slash then p ++ name else p ++ slash :: name

/-- A name that can stand between two slashes. -/
structure Plain (name : Bytes) : Prop where
  ne_nil : name ≠ []
  no_slash : slash ∉ name
  no_null : (0 : Byte) ∉ name

/-- Some component of the path is empty, other than what stands before the first and after the last slash. -/
def HasEmpty (p : Bytes) : Prop := [slash, slash] <:+: p

variable {p q name : Bytes}

theorem splitFirst_of_not_mem (h : slash ∉ p) : splitFirst p = (p, []) := by
  have hall : ∀ b ∈ p, (b != slash) = true := fun b hb => by
    have hne : b ≠ slash := fun heq => h (heq ▸ hb)
    simpa using hne
  unfold splitFirst
  rw [List.takeWhile_eq_self_iff.2 hall, List.dropWhile_eq_nil_iff.2 hall]
  rfl

theorem splitFirst_append (h : slash ∉ p) : splitFirst (p ++ slash :: q) = (p, q) := by
  have hall : ∀ b ∈ p, (b != slash) = true := fun b hb => by
    have hne : b ≠ slash := fun heq => h (heq ▸ hb)
    simpa using hne
  unfold splitFirst
  rw [List.takeWhile_append_of_pos hall, List.dropWhile_append_of_pos hall]
  simp

theorem length_splitFirst_lt {p : Bytes} (h : (splitFirst p).1 ≠ []) : (splitFirst p).2.length < p.length := by
  have hsplit := congrArg List.length (List.takeWhile_append_dropWhile (p := fun b => b != slash) (l := p))
  rw [List.length_append] at hsplit
  have hpos : 0 < (splitFirst p).1.length := List.length_pos_iff.2 h
  unfold splitFirst at hpos ⊢
  simp only at hpos ⊢
  rw [List.length_drop]
  omega

theorem slash_not_mem_splitFirst (p : Bytes) : slash ∉ (splitFirst p).1 := by
  intro h
  have := List.mem_takeWhile_imp h
  simp at this

/-- A path is its first component, or that, a slash and the rest. -/
theorem splitFirst_cases (p : Bytes) :
    (p = (splitFirst p).1 ∧ (splitFirst p).2 = []) ∨ p = (splitFirst p).1 ++ slash :: (splitFirst p).2 := by
  by_cases h : slash ∈ p
  · right
    obtain ⟨a, b, rfl, ha⟩ := List.eq_append_cons_of_mem h
    rw [splitFirst_append ha]
  · left
    rw [splitFirst_of_not_mem h]
    exact ⟨rfl, rfl⟩

theorem joinPath_ne_nil (h : name ≠ []) : joinPath p name ≠ [] := by
  unfold joinPath
  split <;> simp [h]

theorem head?_joinPath (h : p ≠ []) : (joinPath p name).head? = p.head? := by
  obtain ⟨b, q, rfl⟩ := List.exists_cons_of_ne_nil h
  unfold joinPath
  split <;> rfl

theorem joinPath_append_slash (p name : Bytes) : joinPath (p ++ [slash]) name = p ++ slash :: name := by
  unfold joinPath
  simp

theorem joinPath_of_not_mem (h : slash ∉ p) : joinPath p name = p ++ slash :: name := by
  unfold joinPath
  rw [if_neg]
  intro heq
  exact h (List.mem_of_getLast? heq)

/-- The last slash of `q` decides how a name is joined to a path that ends with `q`. -/
theorem joinPath_append (h : q ≠ []) : joinPath (p ++ q) name = p ++ joinPath q name := by
  unfold joinPath
  rw [List.getLast?_append_of_ne_nil _ h]
  split <;> simp

theorem not_mem_joinPath {b : Byte} (hb : b ≠ slash) (hp : b ∉ p) (hname : b ∉ name) : b ∉ joinPath p name := by
  unfold joinPath
  split
  · simp [hp, hname]
  · simp [hp, hname, hb]

theorem mem_joinPath {b : Byte} (h : b ∈ name) : b ∈ joinPath p name := by
  unfold joinPath
  split
  · exact List.mem_append_right _ h
  · exact List.mem_append_right _ (List.mem_cons_of_mem _ h)

theorem joinPath_slash (name : Bytes) : joinPath [slash] name = slash :: name := joinPath_append_slash [] name

theorem joinPath_cons (h : q ≠ []) (b : Byte) : joinPath (b :: q) name = b :: joinPath q name := joinPath_append h (p := [b])

/-- The first component of a joined path is that of the directory. -/
theorem splitFirst_joinPath (name : Bytes) :
    splitFirst (joinPath p name) =
      ((splitFirst p).1, if (splitFirst p).2 = [] then name else joinPath (splitFirst p).2 name) := by
  have hno := slash_not_mem_splitFirst p
  rcases splitFirst_cases p with ⟨hp, hrest⟩ | hp
  · have hnot : slash ∉ p := fun h => hno (hp ▸ h)
    rw [joinPath_of_not_mem hnot, splitFirst_append hnot, if_pos hrest, ← hp]
  · by_cases hrest : (splitFirst p).2 = []
    · have hjoin : joinPath p name = (splitFirst p).1 ++ slash :: name := by
        rw [hrest] at hp
        rw [hp, splitFirst_append hno]
        exact joinPath_append_slash _ _
      rw [hjoin, splitFirst_append hno, if_pos hrest]
    · have hjoin : joinPath p name = (splitFirst p).1 ++ slash :: joinPath (splitFirst p).2 name := by
        have happend : joinPath ((splitFirst p).1 ++ [slash] ++ (splitFirst p).2) name =
            (splitFirst p).1 ++ [slash] ++ joinPath (splitFirst p).2 name := joinPath_append hrest
        rw [List.append_assoc, List.singleton_append, ← hp] at happend
        rw [happend]
        simp
      rw [hjoin, splitFirst_append hno, if_neg hrest]

/-- The rest of a path without empty components has none either. -/
theorem hasEmpty_of_splitFirst (hrest : (splitFirst p).2 ≠ []) (h : HasEmpty (slash :: (splitFirst p).2)) : HasEmpty p := by
  rcases splitFirst_cases p with ⟨-, hnil⟩ | hp
  · exact absurd hnil hrest
  · unfold HasEmpty at h ⊢
    rw [hp]
    exact h.trans (List.suffix_append _ _).isInfix

theorem hasEmpty_cons (hne : p.head? ≠ some slash) (h : HasEmpty (slash :: p)) : HasEmpty p := by
  unfold HasEmpty at h ⊢
  rcases List.infix_cons_iff.1 h with hprefix | hinfix
  · obtain ⟨t, ht⟩ := hprefix
    simp only [List.cons_append, List.nil_append, List.cons.injEq, true_and] at ht
    rw [← ht] at hne
    exact absurd rfl hne
  · exact hinfix

theorem splitFirst_ne_nil (hne : p ≠ []) (hempty : ¬ HasEmpty (slash :: p)) : (splitFirst p).1 ≠ [] := by
  intro h
  rcases splitFirst_cases p with ⟨hp, -⟩ | hp
  · exact hne (hp.trans h)
  · rw [h, List.nil_append] at hp
    refine hempty ?_
    unfold HasEmpty
    rw [hp]
    exact List.IsPrefix.isInfix ⟨_, rfl⟩

theorem canon_of_getLast?_ne (h : p.getLast? ≠ some slash) : canon p = p := by
  unfold canon
  rw [if_neg]
  exact fun hslash => h hslash.2

theorem canon_joinPath (hname : Plain name) : canon (joinPath p name) = joinPath p name := by
  apply canon_of_getLast?_ne
  have hlast : ∀ q : Bytes, (q ++ name).getLast? = name.getLast? := fun q => List.getLast?_append_of_ne_nil q hname.ne_nil
  have hne : name.getLast? ≠ some slash := fun heq => hname.no_slash (List.mem_of_getLast? heq)
  unfold joinPath
  split
  · rw [hlast]
    exact hne
  · rw [← List.singleton_append, ← List.append_assoc, hlast]
    exact hne

/-- A name in the canonical form of a directory. -/
theorem joinPath_eq_canon (name : Bytes) (hp : p ≠ [slash, slash]) :
    joinPath p name = if canon p = [slash] then slash :: name else canon p ++ slash :: name := by
  by_cases hlast : p.getLast? = some slash
  · have hsplit := List.dropLast_append_getLast? slash hlast
    have hjoin : joinPath p name = p ++ name := if_pos hlast
    by_cases hlen : 1 < p.length
    · have hcanon : canon p = p.dropLast := if_pos ⟨hlen, hlast⟩
      have hne : p.dropLast ≠ [slash] := fun heq => hp (by rw [← hsplit, heq]; rfl)
      rw [hjoin, hcanon, if_neg hne]
      conv_lhs => rw [← hsplit]
      simp
    · have hcanon : canon p = p := if_neg fun h => hlen h.1
      have hnil : p.dropLast = [] := by
        apply List.eq_nil_of_length_eq_zero
        rw [List.length_dropLast]
        omega
      rw [hnil, List.nil_append] at hsplit
      rw [hjoin, hcanon, if_pos hsplit.symm, ← hsplit]
      rfl
  · have hjoin : joinPath p name = p ++ slash :: name := if_neg hlast
    have hne : p ≠ [slash] := fun heq => hlast (by rw [heq]; rfl)
    rw [hjoin, canon_of_getLast?_ne hlast, if_neg hne]

end Rost.Vfs
