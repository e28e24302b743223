import Rost.Lib.Paths
import Rost.Shell.Dispatch

/-!
# Resolved paths

A path given to a command is resolved against the working directory.  Its normal form is what remains when empty
components and `.` are left out and `..` takes a component away; the shell only knows the arguments `.` and `..` as a
whole, and otherwise puts the texts together.  So it resolves a path to its normal form exactly if no other component needs
work, and the completion does so only for absolute paths of that kind (`resolve_iff`).
-/

namespace Rost.Shell

open Lib (IsName normalise Canonical)
open Vfs (Bytes ascii slash)

/-! ### Normal forms -/

/-- The normal form of a path. -/
def normal (path : Bytes) : Bytes := normalise slash (ascii ".") (ascii "..") path

/-- A component that is a name. -/
def PathName (c : Bytes) : Prop := IsName slash (ascii ".") (ascii "..") c

/-- A canonical path, which has no zero byte either. -/
def Canon (d : Bytes) : Prop := Canonical slash (ascii ".") (ascii "..") d ∧ 0 ∉ d

/-- A canonical directory. -/
abbrev Directory := { d : Bytes // Canon d }

/-- A path joined to a directory, unless it is absolute. -/
def joined (cwd p : Bytes) : Bytes :=
  if p.head? = some slash then p else if cwd = [slash] then slash :: p else cwd ++ slash :: p

/-- An argument in which nothing needs work: an absolute path of names, perhaps with one slash behind it, or names only. -/
def PlainArg (p : Bytes) : Prop :=
  if p.head? = some slash then
    Canonical slash (ascii ".") (ascii "..") p ∨ ∃ q, p = q ++ [slash] ∧ Canonical slash (ascii ".") (ascii "..") q
  else ∀ c ∈ p.splitOn slash, PathName c

/-! ### Changing the directory -/

/-- `cd` with one argument. -/
def cdTo (cwd p : Bytes) : Bytes := cmdCd [ascii "cd", p] cwd

/-- The directory after a sequence of `cd` commands on a shell that has just started. -/
def cdRun (ps : List Bytes) : Bytes := ps.foldl cdTo [slash]

/-- An argument of `cd` that leads to a canonical directory. -/
def CdPlain (cwd p : Bytes) : Prop :=
  p = [] ∨ p = [tilde] ∨ p = ascii ".." ∨ p = ascii "." ∨ (PlainArg p ∧ 0 ∉ p ∧ (joined cwd p).length ≤ pathCap)

/-- Every argument of a sequence is such a one where it is given. -/
def CdsPlain (cwd : Bytes) : List Bytes → Prop
  | [] => True
  | p :: ps => CdPlain cwd p ∧ CdsPlain (cdTo cwd p) ps

/-! ### Completion -/

/-- The place of the last slash. -/
def lastSlash (p : Bytes) : Option Nat := (p.reverse.findIdx? fun b => b == slash).map fun i => p.length - 1 - i

/-- `path_complete`: the directory that is listed for a word. -/
def completionDir (cwd word : Bytes) : Bytes :=
  match lastSlash word with
  | some 0 => [slash]
  | some (i + 1) => (word.take (i + 1)).take pathCap
  | none => uptoZero cwd

/-- The part of a word up to its last slash. -/
def dirPart (word : Bytes) : Bytes :=
  match lastSlash word with
  | some i => word.take (i + 1)
  | none => []

/-- The completion of a word lists the directory its path leads to, and the request says all of it. -/
def Lists (cwd word : Bytes) : Prop :=
  completionDir cwd word = normal (joined cwd (dirPart word)) ∧
    pathAsWords (completionDir cwd word) = completionDir cwd word

/-- A word for which that is so: without a slash in a directory of at most 48 bytes, with one only at its start, or with an
absolute path of names of at most 48 bytes before the last slash. -/
def Completes (cwd word : Bytes) : Prop :=
  (slash ∉ word ∧ cwd.length ≤ 48) ∨ dirPart word = [slash] ∨
    (Canon (dirPart word).dropLast ∧ (dirPart word).dropLast.length ≤ 48)

/-! ### The parts of a path -/

private theorem lastSlash_none {p : Bytes} (h : slash ∉ p) : lastSlash p = none := by
  rw [lastSlash, List.findIdx?_eq_none_iff.2 fun b hb => ?_]
  · rfl
  · rw [List.mem_reverse] at hb
    simpa using fun heq : b = slash => h (heq ▸ hb)

private theorem findIdx_reverse (a : Bytes) {b : Bytes} (hb : slash ∉ b) :
    ((a ++ slash :: b).reverse.findIdx? fun c => c == slash) = some b.length := by
  rw [List.reverse_append, List.reverse_cons, List.append_assoc, List.findIdx?_append,
    List.findIdx?_eq_none_iff.2 fun c hc => ?_]
  · simp [List.findIdx?_cons]
  · rw [List.mem_reverse] at hc
    simpa using fun heq : c = slash => hb (heq ▸ hc)

private theorem lastSlash_append (a : Bytes) {b : Bytes} (hb : slash ∉ b) : lastSlash (a ++ slash :: b) = some a.length := by
  rw [lastSlash, findIdx_reverse a hb, Option.map_some, List.length_append, List.length_cons]
  congr 1
  omega

/-- A word with a slash, cut at the last one. -/
private theorem exists_last {p : Bytes} (h : slash ∈ p) : ∃ a b, p = a ++ slash :: b ∧ slash ∉ b := by
  induction p with
  | nil => cases h
  | cons c p ih =>
    by_cases hp : slash ∈ p
    · obtain ⟨a, b, rfl, hb⟩ := ih hp
      exact ⟨c :: a, b, rfl, hb⟩
    · obtain rfl : slash = c := (List.mem_cons.1 h).resolve_right hp
      exact ⟨[], p, rfl, hp⟩

private theorem uptoZero_of_notMem {p : Bytes} (h : 0 ∉ p) : uptoZero p = p := by
  rw [uptoZero, List.takeWhile_eq_self_iff]
  intro b hb
  simpa using fun heq : b = 0 => h (heq ▸ hb)

/-- What a request says of a path is all of it exactly if it has no zero byte and at most 48 bytes. -/
theorem pathAsWords_eq_self_iff {p : Bytes} : pathAsWords p = p ↔ 0 ∉ p ∧ p.length ≤ 48 := by
  constructor
  · intro h
    have hlen := congrArg List.length h
    have hle : (uptoZero p).length ≤ p.length := (List.takeWhile_prefix _).length_le
    rw [pathAsWords, List.length_take] at hlen
    have hself : uptoZero p = p := (List.takeWhile_prefix _).eq_of_length (by unfold uptoZero at hle hlen; omega)
    refine ⟨fun h0 => ?_, by omega⟩
    have := List.takeWhile_eq_self_iff.1 hself 0 h0
    simp at this
  · rintro ⟨h0, hlen⟩
    rw [pathAsWords, uptoZero_of_notMem h0, List.take_of_length_le hlen]

private theorem parentOf_append {a b : Bytes} (hb : slash ∉ b) (hne : b ≠ []) :
    parentOf (a ++ slash :: b) = max 1 a.length := by
  have hlast : (a ++ slash :: b).getLast? ≠ some slash := by
    rw [List.getLast?_append_of_ne_nil _ (by simp), List.getLast?_cons_of_ne_nil hne]
    exact fun h => hb (List.mem_of_getLast? h)
  rw [parentOf, if_neg fun h => hlast h.1]
  simp only [findIdx_reverse a hb]
  rw [List.length_append, List.length_cons]
  congr 1
  omega

/-! ### Resolving -/

private theorem canon_head {d : Bytes} (h : Canonical slash (ascii ".") (ascii "..") d) : d.head? = some slash := by
  obtain ⟨cs, -, rfl⟩ := h
  cases cs <;> rfl

private theorem normal_eq_self_iff {path : Bytes} :
    normal path = path ↔ Canonical slash (ascii ".") (ascii "..") path := Lib.normalise_eq_self_iff

/-- What `..` and `.` make of a canonical directory. -/
private theorem special_components {cs : List Bytes} (h : ∀ c ∈ cs, PathName c) :
    normal (joined (Lib.pathOf slash cs) (ascii "..")) = Lib.pathOf slash cs.dropLast ∧
      normal (joined (Lib.pathOf slash cs) (ascii ".")) = Lib.pathOf slash cs := by
  have hroot : Lib.pathOf slash cs = [slash] ↔ cs = [] := by
    refine ⟨fun heq => ?_, by rintro rfl; rfl⟩
    by_contra hne
    exact Lib.pathOf_getLast hne h (by rw [heq]; rfl)
  have hjoin : ∀ p : Bytes, p.head? ≠ some slash → normal (joined (Lib.pathOf slash cs) p) =
      Lib.pathOf slash (Lib.reduce (ascii ".") (ascii "..") cs (p.splitOn slash)) := by
    intro p hp
    rw [joined, if_neg hp]
    by_cases hnil : cs = []
    · rw [if_pos (hroot.2 hnil), normal, normalise, hnil]
      have hsplit : (slash :: p).splitOn slash = [] :: p.splitOn slash := List.splitOn_append_cons_self [] p
      rw [hsplit, Lib.reduce, if_pos (.inl rfl)]
    · rw [if_neg (mt hroot.1 hnil)]
      exact Lib.normalise_pathOf_append h p
  rw [hjoin (ascii "..") (by decide), hjoin (ascii ".") (by decide)]
  have hup : (ascii "..").splitOn slash = [ascii ".."] := by decide
  have hhere : (ascii ".").splitOn slash = [ascii "."] := by decide
  rw [hup, hhere]
  constructor
  · rw [Lib.reduce, if_neg (by decide), if_pos rfl, Lib.reduce]
  · rw [Lib.reduce, if_pos (.inr rfl), Lib.reduce]

/-- The parent of a canonical directory. -/
private theorem take_parentOf {cs : List Bytes} (h : ∀ c ∈ cs, PathName c) :
    (Lib.pathOf slash cs).take (parentOf (Lib.pathOf slash cs)) = Lib.pathOf slash cs.dropLast := by
  rcases List.eq_nil_or_concat' cs with rfl | ⟨ds, d, rfl⟩
  · decide
  have hd := h d (by simp)
  have hpath : Lib.pathOf slash (ds ++ [d]) = ds.flatMap (fun c => slash :: c) ++ slash :: d := by
    rw [Lib.pathOf_of_ne_nil (by simp), List.flatMap_append, List.flatMap_singleton]
  rw [hpath, parentOf_append hd.sep_notMem hd.ne_nil, List.dropLast_concat]
  rcases ds with _ | ⟨c, ds⟩
  · rfl
  · have hpos : 1 ≤ ((c :: ds).flatMap fun c => slash :: c).length := by simp
    rw [Nat.max_eq_right hpos, List.take_left, Lib.pathOf_of_ne_nil (by simp)]

/-- An absolute path without a slash behind it. -/
private theorem unslashed_iff {p : Bytes} (hp : p.head? = some slash) :
    (if 1 < p.length ∧ p.getLast? = some slash then p.dropLast else p) = normal p ↔ PlainArg p := by
  have hnotLast : Canonical slash (ascii ".") (ascii "..") p → ¬(1 < p.length ∧ p.getLast? = some slash) := by
    rintro ⟨cs, hcs, rfl⟩ ⟨hlen, hlast⟩
    rcases cs with _ | ⟨c, cs⟩
    · simp [Lib.pathOf] at hlen
    · exact Lib.pathOf_getLast (by simp) hcs hlast
  rw [PlainArg, if_pos hp]
  by_cases hstrip : 1 < p.length ∧ p.getLast? = some slash
  · rw [if_pos hstrip]
    obtain ⟨q, rfl⟩ := List.getLast?_eq_some_iff.1 hstrip.2
    have hnormal : normal (q ++ [slash]) = normal q := Lib.normalise_append_sep q
    rw [List.dropLast_concat, hnormal, eq_comm, normal_eq_self_iff]
    constructor
    · exact fun h => .inr ⟨q, rfl, h⟩
    · rintro (h | ⟨q', heq, h⟩)
      · exact absurd hstrip (hnotLast h)
      · obtain rfl := List.append_cancel_right heq
        exact h
  · -- the path is the root, or has no slash at its end
    rw [if_neg hstrip, eq_comm, normal_eq_self_iff]
    constructor
    · exact .inl
    · rintro (h | ⟨q, rfl, h⟩)
      · exact h
      · refine absurd ⟨?_, by simp⟩ hstrip
        have hne : q ≠ [] := by
          rintro rfl
          exact absurd (canon_head h) (by simp)
        rw [List.length_append, List.length_singleton]
        exact Nat.succ_lt_succ (List.length_pos_of_ne_nil hne)

/-- A relative path is put behind the directory. -/
private theorem resolve_relative {cwd p : Bytes} (hcwd : Canon cwd) (hp : p.head? ≠ some slash) (hup : p ≠ ascii "..")
    (hhere : p ≠ ascii ".") (hfits : (joined cwd p).length ≤ pathCap) : resolve cwd p = joined cwd p := by
  have hne : cwd ≠ [] := by
    rintro rfl
    exact absurd (canon_head hcwd.1) (by simp)
  rw [joined, if_neg hp] at hfits
  rw [resolve, joined, if_neg hp, if_neg hp, if_neg hup, if_neg hhere]
  simp only [uptoZero_of_notMem hcwd.2]
  by_cases hroot : cwd = [slash]
  · subst hroot
    rw [if_pos rfl, List.length_cons] at hfits
    have htake : p.take (pathCap - 1) = p := List.take_of_length_le (by omega)
    rw [if_pos rfl]
    exact congrArg (List.cons slash) htake
  · rw [if_neg hroot, List.length_append, List.length_cons] at hfits
    have hlast : cwd.getLast? ≠ some slash := by
      obtain ⟨⟨cs, hcs, rfl⟩, -⟩ := hcwd
      exact Lib.pathOf_getLast (by rintro rfl; exact hroot rfl) hcs
    have htake : cwd.take pathCap = cwd := List.take_of_length_le (by omega)
    rw [if_neg hroot, htake, if_pos ⟨hne, hlast, by omega⟩, List.length_append, List.length_singleton,
      List.take_of_length_le (by omega), List.append_assoc]
    rfl

/-- A relative path joined to a directory is canonical exactly if all its components are names, or it is empty and the
directory is the root. -/
private theorem joined_canonical_iff {cwd p : Bytes} (hcwd : Canon cwd) (hp : p.head? ≠ some slash) :
    Canonical slash (ascii ".") (ascii "..") (joined cwd p) ↔ PlainArg p ∨ (p = [] ∧ cwd = [slash]) := by
  rw [joined, PlainArg, if_neg hp, if_neg hp]
  by_cases hroot : cwd = [slash]
  · rw [if_pos hroot, Lib.canonical_cons_iff]
    simp only [hroot, and_true]
    exact or_comm
  · rw [if_neg hroot]
    obtain ⟨⟨cs, hcs, rfl⟩, -⟩ := hcwd
    have hne : cs ≠ [] := by
      rintro rfl
      exact hroot rfl
    rw [Lib.canonical_pathOf_append_iff hne hcs]
    simp only [hroot, and_false, or_false]
    rfl

/-- A path that fits is resolved to its normal form exactly if it is `..` or `.`, or nothing in it needs work. -/
theorem resolve_eq_normal_iff {cwd p : Bytes} (hcwd : Canon cwd) (hfits : (joined cwd p).length ≤ pathCap) :
    resolve cwd p = normal (joined cwd p) ↔
      p = ascii ".." ∨ p = ascii "." ∨ PlainArg p ∨ (p = [] ∧ cwd = [slash]) := by
  by_cases hp : p.head? = some slash
  · -- an absolute path loses a slash at its end, and nothing else
    have hjoin : joined cwd p = p := by rw [joined, if_pos hp]
    rw [hjoin] at hfits
    have hresolve : resolve cwd p = if 1 < p.length ∧ p.getLast? = some slash then p.dropLast else p := by
      rw [resolve, if_pos hp]
      simp only [List.take_of_length_le hfits]
    rw [hresolve, hjoin, unslashed_iff hp]
    constructor
    · exact fun h => .inr (.inr (.inl h))
    · rintro (rfl | rfl | h | ⟨rfl, -⟩)
      · exact absurd hp (by decide)
      · exact absurd hp (by decide)
      · exact h
      · exact absurd hp (by decide)
  by_cases hup : p = ascii ".."
  · subst hup
    refine iff_of_true ?_ (.inl rfl)
    obtain ⟨⟨cs, hcs, rfl⟩, hzero⟩ := hcwd
    rw [(special_components hcs).1, resolve, if_neg hp, if_pos rfl, uptoZero_of_notMem hzero, take_parentOf hcs]
  by_cases hhere : p = ascii "."
  · subst hhere
    refine iff_of_true ?_ (.inr (.inl rfl))
    obtain ⟨⟨cs, hcs, rfl⟩, hzero⟩ := hcwd
    rw [(special_components hcs).2, resolve, if_neg hp, if_neg hup, if_pos rfl, uptoZero_of_notMem hzero]
  · rw [resolve_relative hcwd hp hup hhere hfits, eq_comm, normal_eq_self_iff, joined_canonical_iff hcwd hp,
      or_iff_right hup, or_iff_right hhere]

/-! ### The directories of a shell -/

private theorem root_canon : Canon [slash] := ⟨⟨[], by simp, rfl⟩, by decide⟩

private theorem home_canon : Canon (ascii "/home/user") := by
  refine ⟨⟨[ascii "home", ascii "user"], ?_, rfl⟩, by decide⟩
  intro c hc
  rcases List.mem_cons.1 hc with rfl | hc
  · exact ⟨by decide, by decide, by decide, by decide⟩
  · rw [List.mem_singleton.1 hc]
    exact ⟨by decide, by decide, by decide, by decide⟩

/-- A resolved path has no zero byte, if its parts have none. -/
private theorem zero_notMem_resolve {cwd p : Bytes} (hcwd : 0 ∉ cwd) (hp : 0 ∉ p) : 0 ∉ resolve cwd p := by
  have htake : ∀ (s : Bytes) n, 0 ∉ s → 0 ∉ s.take n := fun s n h h0 => h (List.mem_of_mem_take h0)
  rw [resolve]
  simp only [uptoZero_of_notMem hcwd]
  split
  · split
    · exact fun h0 => htake p _ hp (List.dropLast_subset _ h0)
    · exact htake p _ hp
  · split
    · exact htake cwd _ hcwd
    · split
      · exact hcwd
      · rw [List.mem_append, not_or]
        refine ⟨?_, htake p _ hp⟩
        split
        · rw [List.mem_append, not_or]
          exact ⟨htake cwd _ hcwd, by decide⟩
        · exact htake cwd _ hcwd

theorem cdTo_canon {cwd p : Bytes} (hcwd : Canon cwd) (h : CdPlain cwd p) : Canon (cdTo cwd p) := by
  rw [cdTo, cmdCd, show arg [ascii "cd", p] 1 = p from rfl]
  by_cases hhome : p = [] ∨ p = [tilde]
  · rw [if_pos hhome]
    exact home_canon
  rw [if_neg hhome]
  rw [not_or] at hhome
  have hzero : 0 ∉ p := by
    obtain h | h | rfl | rfl | h := h
    · exact absurd h hhome.1
    · exact absurd h hhome.2
    · decide
    · decide
    · exact h.2.1
  refine ⟨?_, zero_notMem_resolve hcwd.2 hzero⟩
  have hcanon : ∀ path, Canonical slash (ascii ".") (ascii "..") (normal path) := Lib.canonical_normalise
  obtain h | h | rfl | rfl | ⟨hplain, -, hfits⟩ := h
  · exact absurd h hhome.1
  · exact absurd h hhome.2
  · -- the parent, however long the path to it
    obtain ⟨⟨cs, hcs, rfl⟩, hcs0⟩ := hcwd
    rw [resolve, if_neg (by decide), if_pos rfl, uptoZero_of_notMem hcs0, take_parentOf hcs]
    exact ⟨cs.dropLast, fun c hc => hcs c (List.dropLast_subset _ hc), rfl⟩
  · rw [resolve, if_neg (by decide), if_neg (by decide), if_pos rfl, uptoZero_of_notMem hcwd.2]
    exact hcwd.1
  · rw [(resolve_eq_normal_iff hcwd hfits).2 (.inr (.inr (.inl hplain)))]
    exact hcanon _

private theorem cdRun_canon {ps : List Bytes} {cwd : Bytes} (hcwd : Canon cwd) (h : CdsPlain cwd ps) :
    Canon (ps.foldl cdTo cwd) := by
  induction ps generalizing cwd with
  | nil => exact hcwd
  | cons p ps ih => exact ih (cdTo_canon hcwd h.1) h.2

private theorem CdsPlain.of_prefix {cwd : Bytes} {qs ps : List Bytes} (h : CdsPlain cwd ps) (hqs : qs <+: ps) :
    CdsPlain cwd qs := by
  induction qs generalizing cwd ps with
  | nil => exact trivial
  | cons q qs ih =>
    obtain ⟨rest, rfl⟩ := hqs
    exact ⟨h.1, ih h.2 ⟨rest, rfl⟩⟩

/-! ### The directory of a completion -/

private theorem lists_iff {cwd word : Bytes} (hcwd : Canon cwd) (hfits : (joined cwd (dirPart word)).length ≤ pathCap) :
    Lists cwd word ↔ Completes cwd word := by
  by_cases hslash : slash ∈ word
  · obtain ⟨a, b, rfl, hb⟩ := exists_last hslash
    have hdir : dirPart (a ++ slash :: b) = a ++ [slash] := by
      rw [dirPart, lastSlash_append a hb, show a ++ slash :: b = a ++ [slash] ++ b by simp]
      exact List.take_left' (by simp)
    have hnot : ¬(slash ∉ a ++ slash :: b ∧ cwd.length ≤ 48) := fun h => h.1 hslash
    rw [hdir] at hfits
    rw [Lists, Completes, or_iff_right hnot, hdir, List.dropLast_concat]
    cases a with
    | nil =>
      have hlist : completionDir cwd ([] ++ slash :: b) = [slash] := by
        rw [completionDir, lastSlash_append [] hb]
        rfl
      rw [hlist]
      exact iff_of_true ⟨by rfl, by decide⟩ (.inl rfl)
    | cons c a =>
      have hlist : completionDir cwd (c :: a ++ slash :: b) = (c :: a).take pathCap := by
        rw [completionDir, lastSlash_append (c :: a) hb, List.length_cons]
        simp only
        rw [← List.length_cons, List.take_left]
      have hne : c :: a ++ [slash] ≠ [slash] := by simp
      rw [hlist, or_iff_right hne]
      by_cases hc : c = slash
      · have hjoin : joined cwd (c :: a ++ [slash]) = c :: a ++ [slash] := by
          rw [joined, if_pos (by rw [hc]; rfl)]
        have hnormal : normal (c :: a ++ [slash]) = normal (c :: a) := Lib.normalise_append_sep _
        rw [hjoin, List.length_append, List.length_singleton] at hfits
        rw [List.take_of_length_le (by omega), hjoin, hnormal, eq_comm, normal_eq_self_iff, pathAsWords_eq_self_iff, Canon,
          and_assoc]
      · -- what is listed is not even an absolute path
        refine iff_of_false (fun h => ?_) fun h => hc (by simpa using canon_head h.1.1)
        have hcanon : Canonical slash (ascii ".") (ascii "..") (normal (joined cwd (c :: a ++ [slash]))) :=
          Lib.canonical_normalise _
        have hhead := canon_head hcanon
        rw [← h.1, pathCap, List.take_succ_cons] at hhead
        exact hc (by simpa using hhead)
  · -- without a slash the directory itself is listed
    have hdir : dirPart word = [] := by rw [dirPart, lastSlash_none hslash]
    have hlist : completionDir cwd word = cwd := by
      rw [completionDir, lastSlash_none hslash]
      exact uptoZero_of_notMem hcwd.2
    have hnormal : normal (joined cwd []) = cwd := by
      obtain ⟨⟨cs, hcs, rfl⟩, -⟩ := hcwd
      rw [joined, if_neg (by decide)]
      split
      · next hroot => rw [hroot]; rfl
      · have hself : normal (Lib.pathOf slash cs) = Lib.pathOf slash cs := Lib.normalise_pathOf hcs
        have hsep : normal (Lib.pathOf slash cs ++ [slash]) = normal (Lib.pathOf slash cs) := Lib.normalise_append_sep _
        rw [hsep, hself]
    rw [Lists, Completes, hdir, hlist, hnormal, pathAsWords_eq_self_iff]
    have hempty : ¬Canon [] := fun h => absurd (canon_head h.1) (by simp)
    constructor
    · exact fun h => .inl ⟨hslash, h.2.2⟩
    · rintro (h | h | h)
      · exact ⟨rfl, hcwd.2, h.2⟩
      · cases h
      · exact absurd h.1 hempty

/-- In a canonical directory a path that fits is resolved to its normal form exactly if it is `..` or `.`, or nothing in it
needs work; a sequence of `cd` commands with such arguments only leads through canonical directories; and the completion
lists what its path leads to exactly for the words of `Completes`. -/
theorem resolve_iff (cwd : Directory) (p word : Bytes) (ps : List Bytes) :
    ((joined cwd.val p).length ≤ pathCap → (resolve cwd.val p = normal (joined cwd.val p) ↔
      p = ascii ".." ∨ p = ascii "." ∨ PlainArg p ∨ (p = [] ∧ cwd.val = [slash]))) ∧
    (CdsPlain [slash] ps → ∀ qs, qs <+: ps → Canon (cdRun qs)) ∧
    ((joined cwd.val (dirPart word)).length ≤ pathCap → (Lists cwd.val word ↔ Completes cwd.val word)) :=
  ⟨fun hfits => resolve_eq_normal_iff cwd.property hfits,
    fun h _ hqs => cdRun_canon root_canon (h.of_prefix hqs), fun hfits => lists_iff cwd.property hfits⟩

/-- `a/..` in the root, two `cd` commands, and the completion of `x/` in `/home`. -/
theorem resolve_not_normal :
    (resolve [slash] (ascii "a/..") = ascii "/a/.." ∧ normal (joined [slash] (ascii "a/..")) = [slash]) ∧
      cdRun [ascii "bin", ascii "../etc"] = ascii "/bin/../etc" ∧
      completionDir (ascii "/home") (ascii "x/") = ascii "x" ∧
      normal (joined (ascii "/home") (dirPart (ascii "x/"))) = ascii "/home/x" := by
  decide +kernel

end Rost.Shell
