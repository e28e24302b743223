import Rost.Vfs.Server
import Rost.Lib.Run

/-!
# Directory listings

A listing shows the records of the volume, the entries of the static tree and the nodes of the writable layer, in this
order, and each layer leaves out what a layer above it shows.  This should agree with `OP_STAT`, which asks the writable
layer, the volume and the static tree.  The tests differ: the nodes shadow the static tree by their exact path, and the
volume by their names up to case; and of the records that are shown only 32 are kept in mind.  `listing_agrees` says when
a listing is right all the same.
-/

namespace Rost.Vfs

open Lib (Slots Run exec run_of_exec)
open Fat32 (DirRecord)

/-! ### Names -/

theorem eqCi_iff {a b : Bytes} : eqCi a b = true ↔ a.map toLower = b.map toLower := by
  unfold eqCi
  simp

theorem eqCi_refl (a : Bytes) : eqCi a a = true := eqCi_iff.2 rfl

theorem eqCi_symm {a b : Bytes} (h : eqCi a b = true) : eqCi b a = true := eqCi_iff.2 (eqCi_iff.1 h).symm

theorem eqCi_trans {a b c : Bytes} (h : eqCi a b = true) (h' : eqCi b c = true) : eqCi a c = true :=
  eqCi_iff.2 ((eqCi_iff.1 h).trans (eqCi_iff.1 h'))

theorem length_eq_of_eqCi {a b : Bytes} (h : eqCi a b = true) : a.length = b.length := by
  have := congrArg List.length (eqCi_iff.1 h)
  simpa using this

/-- A name that is cut, and is still equal to a shorter one, was not cut. -/
theorem eqCi_of_take {a b : Bytes} {n : Nat} (h : eqCi (a.take n) b = true) (hb : b.length < n) : eqCi a b = true := by
  have hlen := length_eq_of_eqCi h
  rw [List.length_take] at hlen
  rwa [List.take_of_length_le (by omega)] at h

namespace Server

theorem foldl_seenAdd {α : Type} (f : α → Bytes) (xs : List α) (seen : List Bytes) (hseen : seen.length ≤ 32) :
    xs.foldl (fun seen x => seenAdd seen (f x)) seen =
      seen ++ (xs.take (32 - seen.length)).map fun x => (f x).take 40 := by
  induction xs generalizing seen with
  | nil => simp
  | cons x xs ih =>
    rw [List.foldl_cons]
    by_cases hfull : 32 ≤ seen.length
    · have hadd : seenAdd seen (f x) = seen := if_pos hfull
      have hzero : 32 - seen.length = 0 := by omega
      rw [hadd, ih seen hseen, hzero]
      simp
    · have hadd : seenAdd seen (f x) = seen ++ [(f x).take 40] := if_neg hfull
      have hlen : (seen ++ [(f x).take 40]).length = seen.length + 1 := by simp
      have hsucc : 32 - seen.length = (32 - (seen.length + 1)) + 1 := by omega
      rw [hadd, ih _ (by omega), hlen, hsucc]
      simp

/-- The first 32 names are kept in mind, up to 40 bytes of each. -/
theorem seenContains_foldl {α : Type} (f : α → Bytes) (xs : List α) (name : Bytes) :
    seenContains (xs.foldl (fun seen x => seenAdd seen (f x)) []) name = true ↔
      ∃ x ∈ xs.take 32, eqCi ((f x).take 40) name = true := by
  rw [foldl_seenAdd f xs [] (by decide)]
  unfold seenContains
  rw [List.nil_append, List.any_map, List.any_eq_true]
  rfl

end Server

/-! ### The static tree -/

namespace Static

/-- The names in the directories of the tree are plain, short and different. -/
inductive WellNamed : Node → Prop
  | file (data : Bytes) (flags : Nat) : WellNamed (.file data flags)
  | dir {children : List (Bytes × Node)} (hnames : ∀ name ∈ children.map Prod.fst, Plain name ∧ name.length ≤ 14)
      (hnodup : (children.map Prod.fst).Nodup) (hsub : ∀ e ∈ children, WellNamed e.2) : WellNamed (.dir children)

theorem wellNamed_walkFrom {fuel : Nat} {node d : Node} {p : Bytes} (h : WellNamed node) (hwalk : walkFrom fuel node p = some d) :
    WellNamed d := by
  induction fuel generalizing node p with
  | zero => cases hwalk
  | succ fuel ih =>
    unfold walkFrom at hwalk
    split at hwalk
    · cases hwalk
      exact h
    · split at hwalk
      · cases hwalk
      · split at hwalk
        · cases hwalk
          exact h
        · split at hwalk
          · rename_i e hfind
            cases h with
            | dir hnames hnodup hsub => exact ih (hsub e (List.mem_of_find?_eq_some hfind)) hwalk
          · cases hwalk

def isPlain (name : Bytes) : Bool := !name.isEmpty && name.all fun b => b != slash && b != 0

theorem isPlain_iff {name : Bytes} : isPlain name = true ↔ Plain name := by
  unfold isPlain
  simp only [Bool.and_eq_true, Bool.not_eq_true', List.isEmpty_eq_false_iff, List.all_eq_true, bne_iff_ne]
  constructor
  · rintro ⟨hne, hall⟩
    exact ⟨hne, fun hb => (hall slash hb).1 rfl, fun hb => (hall 0 hb).2 rfl⟩
  · intro h
    refine ⟨h.1, fun b hb => ⟨?_, ?_⟩⟩
    · rintro rfl
      exact h.2 hb
    · rintro rfl
      exact h.3 hb

instance decidablePlain (name : Bytes) : Decidable (Plain name) := decidable_of_iff (isPlain name = true) isPlain_iff

private theorem wellNamed_dir {children : List (Bytes × Node)} (names : List Bytes) (heq : children.map Prod.fst = names)
    (hnames : ∀ name ∈ names, Plain name ∧ name.length ≤ 14) (hnodup : names.Nodup) (hsub : ∀ e ∈ children, WellNamed e.2) :
    WellNamed (.dir children) := .dir (heq ▸ hnames) (heq ▸ hnodup) hsub

private theorem wellNamed_of_file {n : Node} (h : n.isDir = false) : WellNamed n := by
  cases n with
  | file data flags => exact .file data flags
  | dir children => cases h

private theorem forall_mem_three {P : Node → Prop} {a b c : Bytes × Node} (ha : P a.2) (hb : P b.2) (hc : P c.2) :
    ∀ e ∈ [a, b, c], P e.2 := by
  simp [ha, hb, hc]

theorem wellNamed_root (progs : Programs) : WellNamed (root progs) := by
  have hbin : WellNamed (dBin progs) := by
    refine wellNamed_dir [ascii "hello", ascii "hello-c"] rfl (by decide) (by decide) ?_
    exact List.forall_mem_cons.2 ⟨.file _ _, List.forall_mem_singleton.2 (.file _ _)⟩
  have hetc : WellNamed dEtc := by
    refine wellNamed_dir [ascii "hosts", ascii "motd", ascii "passwd"] rfl (by decide) (by decide) ?_
    exact forall_mem_three (wellNamed_of_file rfl) (wellNamed_of_file rfl) (wellNamed_of_file rfl)
  have huser : WellNamed dHomeUser := by
    refine wellNamed_dir [ascii "notes.txt", ascii "readme.txt"] rfl (by decide) (by decide) ?_
    exact List.forall_mem_cons.2 ⟨wellNamed_of_file rfl, List.forall_mem_singleton.2 (wellNamed_of_file rfl)⟩
  have hhome : WellNamed dHome :=
    wellNamed_dir [ascii "user"] rfl (by decide) (by decide) (List.forall_mem_singleton.2 huser)
  have hroot : WellNamed dRootHome :=
    wellNamed_dir [ascii ".profile"] rfl (by decide) (by decide) (List.forall_mem_singleton.2 (wellNamed_of_file rfl))
  have hlog : WellNamed dVarLog := wellNamed_dir [] rfl (by decide) (by decide) (List.forall_mem_nil _)
  have hvar : WellNamed dVar := wellNamed_dir [ascii "log"] rfl (by decide) (by decide) (List.forall_mem_singleton.2 hlog)
  refine wellNamed_dir [ascii "bin", ascii "etc", ascii "home", ascii "root", ascii "var", ascii "motd.txt",
    ascii "version.txt"] rfl (by decide) (by decide) ?_
  refine List.forall_mem_cons.2 ⟨hbin, List.forall_mem_cons.2 ⟨hetc, List.forall_mem_cons.2 ⟨hhome,
    List.forall_mem_cons.2 ⟨hroot, forall_mem_three hvar (wellNamed_of_file rfl) (wellNamed_of_file rfl)⟩⟩⟩⟩

theorem wellNamed_lookup {progs : Programs} {p : Bytes} {d : Node} (h : lookup progs p = some d) : WellNamed d :=
  wellNamed_walkFrom (wellNamed_root progs) h

/-- An entry of a directory is found by its name. -/
theorem walk_entry {children : List (Bytes × Node)} {e : Bytes × Node} (h : WellNamed (.dir children)) (he : e ∈ children) :
    walk (.dir children) e.1 = some e.2 := by
  cases h with
  | dir hnames hnodup hsub =>
    have hplain : ∀ e ∈ children, Plain e.1 := fun e he => (hnames e.1 (List.mem_map_of_mem he)).1
    rw [walk_name (hplain e he)]
    cases hfind : children.find? fun entry => decide (trimNull entry.1 = e.1) with
    | none =>
      have hno := List.find?_eq_none.1 hfind e he
      rw [trimNull_of_not_mem (hplain e he).no_null] at hno
      simp at hno
    | some found =>
      have hmem := List.mem_of_find?_eq_some hfind
      have hname := of_decide_eq_true (List.find?_some (p := fun entry : Bytes × Node => decide (trimNull entry.1 = e.1)) hfind)
      rw [trimNull_of_not_mem (hplain found hmem).no_null] at hname
      rw [List.inj_on_of_nodup_map hnodup hmem he hname]
      rfl

end Static

/-! ### Listings -/

namespace Server

/-- What a listing shows of each layer. -/
structure Listing where
  records : List DirRecord
  entries : List (Bytes × Node)
  nodes : List (Bytes × Fin maxNodes)

/-- The directory that a path names. -/
def dirPath (path : Bytes) : Bytes := if trimNull path = [] then [slash] else trimNull path

/-- The records that the nodes do not shadow. -/
def shownRecords (s : Server) (p : Bytes) (records : List DirRecord) : List DirRecord :=
  fatEntries ((Mutable.childrenOf s.nodes p).foldl (fun seen c => seenAdd seen (trimNull c.1)) []) records

/-- The entries of the static tree that nothing shadows. -/
def shownEntries (env : Env) (s : Server) (p : Bytes) (records : List DirRecord) : List (Bytes × Node) :=
  s.staticEntries env p ((s.shownRecords p records).foldl (fun seen r => seenAdd seen r.name) [])

def listing (env : Env) (s : Server) (path : Bytes) : Option (Except Errno Listing) :=
  (s.hasStaticDir env (dirPath path)).bind fun found =>
    match found with
    | .error e => some (.error e)
    | .ok static => (Fat32.readdir env.disk (dirPath path)).map fun records =>
      .ok ⟨s.shownRecords (dirPath path) records, if static then s.shownEntries env (dirPath path) records else [],
        Mutable.childrenOf s.nodes (dirPath path)⟩

/-- The entries of a listing, layer by layer. -/
def Listing.layers (l : Listing) (s : Server) : List (List Reply) :=
  [l.records.map fun r => entryReply r.name (if r.isDir then 1 else 0) r.size,
   l.entries.map fun c => entryReply c.1 c.2.flags c.2.size,
   l.nodes.map fun c => entryReply c.1 (s.nodes.get c.2).flags.toNat (s.nodes.get c.2).dlen]

variable {env : Env} {s : Server}

theorem dirPath_ne_nil (path : Bytes) : dirPath path ≠ [] := by
  unfold dirPath
  split
  · decide
  · assumption

theorem null_not_mem_dirPath (path : Bytes) : (0 : Byte) ∉ dirPath path := by
  unfold dirPath
  split
  · decide
  · exact not_mem_trimNull path

theorem hasStaticDir_trimNull (target : Bytes) : s.hasStaticDir env (trimNull target) = s.hasStaticDir env target := by
  unfold hasStaticDir
  rw [trimNull_trimNull, Static.lookup_trimNull]

theorem staticEntries_trimNull (target : Bytes) (seen : List Bytes) :
    s.staticEntries env (trimNull target) seen = s.staticEntries env target seen := by
  have hchild : ∀ name, buildChildPath (trimNull target) name = buildChildPath target name := by
    intro name
    unfold buildChildPath
    rw [trimNull_trimNull]
  unfold staticEntries
  rw [Static.lookup_trimNull]
  simp only [hchild]

theorem dirPath_eq (path : Bytes) : dirPath path = trimNull (if trimNull path = [] then [slash] else path) := by
  unfold dirPath
  split <;> rfl

theorem handleReaddir_eq (path : Bytes) : s.handleReaddir env path = (s.listing env path).map fun found =>
    match found with
    | .error e => [.error e]
    | .ok l => (l.layers s).flatten ++ [.done] := by
  unfold handleReaddir listing shownEntries shownRecords
  rw [dirPath_eq]
  generalize (if trimNull path = [] then [slash] else path) = target
  simp only [Option.bind_eq_bind, hasStaticDir_trimNull]
  cases s.hasStaticDir env target with
  | none => rfl
  | some found =>
    cases found with
    | error e => rfl
    | ok static =>
      simp only [Option.bind_some, staticEntries_trimNull, Option.map_map]
      cases Fat32.readdir env.disk (trimNull target) with
      | none => rfl
      | some records => simp [Listing.layers, List.append_assoc]

/-! ### When the layers do not get into each other's way -/

/-- Some node of the directory has this name up to case, if it is cut to 40 bytes. -/
def shadows (s : Server) (p name : Bytes) : Bool := (Mutable.childrenOf s.nodes p).any fun c => eqCi (c.1.take 40) name

/-- The nodes, the records and the static entries of a directory do not get into each other's way. -/
structure Separate (s : Server) (p : Bytes) (records : List DirRecord) (entries : List (Bytes × Node)) : Prop where
  /-- A node is the one that is found by its path. -/
  node : ∀ c ∈ Mutable.childrenOf s.nodes p, p ≠ [slash, slash] ∧ (0 : Byte) ∉ (s.nodes.get c.2).path ∧
    Mutable.find s.nodes (s.nodes.get c.2).path = some c.2
  /-- The names of the records can stand in a path. -/
  record_plain : ∀ r ∈ records, s.shadows p r.name = false → slash ∉ r.name ∧ (0 : Byte) ∉ r.name
  /-- A record is the first with its name, or like the first. -/
  record_first : ∀ r ∈ records, s.shadows p r.name = false → ∀ r', (records.find? fun r' => eqCi r'.name r.name) = some r' →
    r'.isDir = r.isDir ∧ r'.size = r.size
  /-- A record with a name that is cut has no node with this name. -/
  record_long : ∀ r ∈ records, 40 < r.name.length → s.shadows p (r.name.take 40) = false
  /-- The static tree takes the rest of a path for a trailing slash if a component is empty. -/
  entry_path : entries ≠ [] → ¬ HasEmpty p
  /-- A node with the name of a static entry has exactly this name, and there is no trailing slash. -/
  entry_node : ∀ e ∈ entries, s.shadows p e.1 = true →
    (p.getLast? ≠ some slash ∨ p = [slash]) ∧ ∃ c ∈ Mutable.childrenOf s.nodes p, c.1 = e.1
  /-- A record with the name of a static entry is one of the first 32 that are shown. -/
  entry_record : ∀ e ∈ entries, ∀ r ∈ records, eqCi r.name e.1 = true → s.shadows p r.name = false →
    ∃ r ∈ (records.filter fun r => !s.shadows p r.name).take 32, eqCi r.name e.1 = true

variable {p name : Bytes} {records : List DirRecord} {entries : List (Bytes × Node)}

/-- The names of the nodes in a directory have no NUL, and are cut to 48 bytes only. -/
theorem Separate.full_name (h : s.Separate p records entries) (hnull : (0 : Byte) ∉ p) {c : Bytes × Fin maxNodes}
    (hc : c ∈ Mutable.childrenOf s.nodes p) :
    ∃ full, Plain full ∧ full.take 48 = c.1 ∧ Mutable.find s.nodes (joinPath p full) = some c.2 := by
  obtain ⟨hp, hpath, hfirst⟩ := h.node c hc
  obtain ⟨full, hcut, hne, hno, hcanon⟩ := Mutable.canon_of_mem_childrenOf hp hnull hc
  have hcanonNull : (0 : Byte) ∉ canon (s.nodes.get c.2).path := by
    unfold canon
    split
    · exact fun hmem => hpath (List.dropLast_subset _ hmem)
    · exact hpath
  have hfull : (0 : Byte) ∉ full := by
    intro hmem
    rw [hcanon] at hcanonNull
    exact hcanonNull (mem_joinPath hmem)
  have hplain : Plain full := ⟨hne, hno, hfull⟩
  refine ⟨full, hplain, hcut, ?_⟩
  have hsame : canon (trimNull (joinPath p full)) = canon (trimNull (s.nodes.get c.2).path) := by
    rw [trimNull_of_not_mem hpath, hcanon, trimNull_of_not_mem (hcanon ▸ hcanonNull), canon_joinPath hplain]
  unfold Mutable.find at hfirst ⊢
  rw [hsame]
  exact hfirst

theorem Separate.trimNull_name (h : s.Separate p records entries) (hnull : (0 : Byte) ∉ p) {c : Bytes × Fin maxNodes}
    (hc : c ∈ Mutable.childrenOf s.nodes p) : trimNull c.1 = c.1 := by
  obtain ⟨full, hplain, hcut, -⟩ := h.full_name hnull hc
  rw [← hcut]
  exact trimNull_of_not_mem fun hmem => hplain.no_null (List.mem_of_mem_take hmem)

/-- The names of the nodes are all kept in mind. -/
theorem Separate.shownRecords_eq (h : s.Separate p records entries) (hnull : (0 : Byte) ∉ p) :
    s.shownRecords p records = records.filter fun r => !s.shadows p r.name := by
  unfold shownRecords fatEntries
  apply List.filter_congr
  intro r _
  congr 1
  have hall : (Mutable.childrenOf s.nodes p).take 32 = Mutable.childrenOf s.nodes p := by
    apply List.take_of_length_le
    refine Nat.le_trans (List.length_filterMap_le _ _) ?_
    simp [maxNodes]
  rw [Bool.eq_iff_iff, seenContains_foldl, hall]
  unfold shadows
  rw [List.any_eq_true]
  constructor
  · rintro ⟨c, hc, heq⟩
    rw [h.trimNull_name hnull hc] at heq
    exact ⟨c, hc, heq⟩
  · rintro ⟨c, hc, heq⟩
    refine ⟨c, hc, ?_⟩
    rw [h.trimNull_name hnull hc]
    exact heq

/-- A node at a name shadows the name. -/
theorem shadows_of_find {i : Fin maxNodes} (hp : p ≠ [slash, slash]) (hnull : (0 : Byte) ∉ p) (hname : Plain name)
    (hlen : name.length < 40) (hfind : Mutable.find s.nodes (joinPath p name) = some i) : s.shadows p name = true := by
  unfold shadows
  rw [List.any_eq_true]
  refine ⟨_, Mutable.mem_childrenOf_of_find hp hnull hname hfind, ?_⟩
  rw [List.take_take, List.take_of_length_le (by omega)]
  exact eqCi_refl name

/-! ### What is shown is found -/

theorem stat_node (h : s.Separate p records entries) (hnull : (0 : Byte) ∉ p) {c : Bytes × Fin maxNodes}
    (hc : c ∈ Mutable.childrenOf s.nodes p) (hlen : (trimNull (c.1.take nameBytes)).length < 40) :
    s.handleStat env (joinPath p (trimNull (c.1.take nameBytes))) =
      some (.stat (s.nodes.get c.2).flags.toNat (s.nodes.get c.2).dlen) := by
  obtain ⟨full, hplain, hcut, hfind⟩ := h.full_name hnull hc
  have hname : trimNull (c.1.take nameBytes) = full := by
    have hnull' : (0 : Byte) ∉ full.take 40 := fun hmem => hplain.no_null (List.mem_of_mem_take hmem)
    rw [← hcut, List.take_take] at hlen ⊢
    have htake : trimNull (full.take (min nameBytes 48)) = full.take 40 := trimNull_of_not_mem hnull'
    rw [htake, List.length_take] at hlen
    rw [htake, List.take_of_length_le (by omega)]
  have hjoin : (0 : Byte) ∉ joinPath p full := not_mem_joinPath (by decide) hnull hplain.no_null
  unfold handleStat
  rw [hname, trimNull_of_not_mem hjoin, hfind]

/-- A record that is shown is the one that `OP_STAT` finds. -/
theorem stat_record (h : s.Separate p records entries) (hp : p ≠ []) (hnull : (0 : Byte) ∉ p)
    (hrecords : Fat32.readdir env.disk p = some records) {r : DirRecord} (hr : r ∈ s.shownRecords p records)
    (hlen : (trimNull (r.name.take nameBytes)).length < 40) :
    s.handleStat env (joinPath p (trimNull (r.name.take nameBytes))) = some (.stat (if r.isDir then 1 else 0) r.size) := by
  rw [h.shownRecords_eq hnull, List.mem_filter, Bool.not_eq_true'] at hr
  obtain ⟨hmem, hshadow⟩ := hr
  obtain ⟨hno, hrnull⟩ := h.record_plain r hmem hshadow
  have hplain : Plain r.name := ⟨Fat32.name_ne_nil_of_mem_readdir hrecords hmem, hno, hrnull⟩
  have hname : trimNull (r.name.take nameBytes) = r.name := by
    have htake : trimNull (r.name.take nameBytes) = r.name.take nameBytes :=
      trimNull_of_not_mem fun hz => hrnull (List.mem_of_mem_take hz)
    rw [htake, List.length_take] at hlen
    rw [htake, List.take_of_length_le (by unfold nameBytes at hlen ⊢; omega)]
  rw [hname] at hlen ⊢
  have hjoin : (0 : Byte) ∉ joinPath p r.name := not_mem_joinPath (by decide) hnull hrnull
  have hslashes : p ≠ [slash, slash] := by
    rintro rfl
    rw [Fat32.readdir_slashes hrecords] at hmem
    cases hmem
  have hfind : Mutable.find s.nodes (joinPath p r.name) = none := by
    by_contra hne
    obtain ⟨i, hi⟩ := Option.ne_none_iff_exists'.1 hne
    rw [shadows_of_find hslashes hnull hplain hlen hi] at hshadow
    cases hshadow
  have hlookup := Fat32.lookup_joinPath hp hnull hplain hrecords
  unfold handleStat
  rw [trimNull_of_not_mem hjoin, hfind, hlookup]
  cases hfirst : records.find? fun r' => eqCi r'.name r.name with
  | none =>
    have hself := List.find?_eq_none.1 hfirst r hmem
    rw [eqCi_refl] at hself
    exact absurd rfl hself
  | some r' =>
    obtain ⟨hdir, hsize⟩ := h.record_first r hmem hshadow r' hfirst
    simp [Fat32.DirRecord.info, hdir, hsize]

/-- The path of an entry in a directory without a trailing slash. -/
theorem buildChildPath_eq (hnull : (0 : Byte) ∉ p) (hname : Plain name) (hp : p.length ≤ 48) (hlen : name.length ≤ 14)
    (hslash : p.getLast? ≠ some slash ∨ p = [slash]) : buildChildPath p name = joinPath p name := by
  have htrim : trimNull name = name := trimNull_of_not_mem hname.no_null
  unfold buildChildPath
  rw [trimNull_of_not_mem hnull, htrim]
  by_cases hroot : p = [slash]
  · rw [if_pos hroot, hroot, joinPath_slash, List.take_of_length_le (by omega)]
  · have hlast : p.getLast? ≠ some slash := hslash.resolve_right hroot
    have hjoin : joinPath p name = p ++ slash :: name := if_neg hlast
    have hdir : p.take 63 = p := List.take_of_length_le (by omega)
    simp only [hdir]
    rw [if_neg hroot, if_pos (by omega), hjoin, List.take_of_length_le (by omega)]

section Entries

variable {e : Bytes × Node}

theorem mem_shownEntries_iff (hlookup : Static.lookup env.progs p = some (.dir entries)) :
    e ∈ s.shownEntries env p records ↔ e ∈ entries ∧ Mutable.find s.nodes (buildChildPath p e.1) = none ∧
      ¬ ∃ r ∈ (s.shownRecords p records).take 32, eqCi (r.name.take 40) (trimNull e.1) = true := by
  unfold shownEntries staticEntries
  rw [hlookup]
  simp only [List.mem_filter, Bool.and_eq_true, Option.isNone_iff_eq_none, Bool.not_eq_true', ← Bool.not_eq_true,
    seenContains_foldl]

theorem plain_of_mem_entries (hlookup : Static.lookup env.progs p = some (.dir entries)) (he : e ∈ entries) :
    Plain e.1 ∧ e.1.length ≤ 14 := by
  have hnamed := Static.wellNamed_lookup hlookup
  cases hnamed with
  | dir hnames _ _ => exact hnames e.1 (List.mem_map_of_mem he)

/-- An entry that is shown has no node with its name, up to case. -/
theorem shadows_of_shown (h : s.Separate p records entries) (hnull : (0 : Byte) ∉ p) (hp : p.length ≤ 48)
    (hlookup : Static.lookup env.progs p = some (.dir entries)) (he : e ∈ s.shownEntries env p records) :
    s.shadows p e.1 = false := by
  obtain ⟨hmem, hfind, -⟩ := (mem_shownEntries_iff hlookup).1 he
  obtain ⟨hplain, hlen⟩ := plain_of_mem_entries hlookup hmem
  by_contra hshadow
  obtain ⟨hslash, c, hc, hname⟩ := h.entry_node e hmem (by simpa using hshadow)
  obtain ⟨full, hfull, hcut, hfound⟩ := h.full_name hnull hc
  have heq : full = e.1 := by
    rw [← hname, ← hcut] at hlen ⊢
    rw [List.length_take] at hlen
    rw [List.take_of_length_le (by omega)]
  rw [buildChildPath_eq hnull hplain hp hlen hslash, ← heq, hfound] at hfind
  cases hfind

/-- An entry that is shown has no record with its name, up to case. -/
theorem record_ne_of_shown (h : s.Separate p records entries) (hnull : (0 : Byte) ∉ p) (hp : p.length ≤ 48)
    (hlookup : Static.lookup env.progs p = some (.dir entries)) (he : e ∈ s.shownEntries env p records) {r : DirRecord}
    (hr : r ∈ records) : eqCi r.name e.1 = false := by
  have hclear := shadows_of_shown h hnull hp hlookup he
  obtain ⟨hmem, -, hseen⟩ := (mem_shownEntries_iff hlookup).1 he
  obtain ⟨hplain, hlen⟩ := plain_of_mem_entries hlookup hmem
  by_contra heq
  rw [Bool.not_eq_false] at heq
  have hshadow : s.shadows p r.name = false := by
    by_contra hs
    rw [Bool.not_eq_false] at hs
    unfold shadows at hs hclear
    obtain ⟨c, hc, hcr⟩ := List.any_eq_true.1 hs
    have hce := List.any_eq_false.1 hclear c hc
    exact hce (eqCi_trans hcr heq)
  obtain ⟨r', hr', heq'⟩ := h.entry_record e hmem r hr heq hshadow
  refine hseen ⟨r', ?_, ?_⟩
  · rw [h.shownRecords_eq hnull]
    exact hr'
  · have hlen' := length_eq_of_eqCi heq'
    rw [trimNull_of_not_mem hplain.no_null, List.take_of_length_le (by omega)]
    exact heq'

theorem stat_entry (h : s.Separate p records entries) (hne : p ≠ []) (hnull : (0 : Byte) ∉ p) (hp : p.length ≤ 48)
    (hrecords : Fat32.readdir env.disk p = some records) (hlookup : Static.lookup env.progs p = some (.dir entries))
    (he : e ∈ s.shownEntries env p records) :
    s.handleStat env (joinPath p (trimNull (e.1.take nameBytes))) = some (.stat e.2.flags e.2.size) := by
  have hclear := shadows_of_shown h hnull hp hlookup he
  have hmem := ((mem_shownEntries_iff hlookup).1 he).1
  obtain ⟨hplain, hlen⟩ := plain_of_mem_entries hlookup hmem
  have hempty := h.entry_path (List.ne_nil_of_mem hmem)
  have hname : trimNull (e.1.take nameBytes) = e.1 := by
    rw [List.take_of_length_le (by unfold nameBytes; omega)]
    exact trimNull_of_not_mem hplain.no_null
  have hjoin : (0 : Byte) ∉ joinPath p e.1 := not_mem_joinPath (by decide) hnull hplain.no_null
  have hslashes : p ≠ [slash, slash] := fun heq => hempty (heq ▸ List.infix_refl _)
  have hfind : Mutable.find s.nodes (joinPath p e.1) = none := by
    by_contra hsome
    obtain ⟨i, hi⟩ := Option.ne_none_iff_exists'.1 hsome
    rw [shadows_of_find hslashes hnull hplain (by omega) hi] at hclear
    cases hclear
  have hrecord : (records.find? fun r => eqCi r.name e.1) = none := by
    rw [List.find?_eq_none]
    intro r hr
    rw [record_ne_of_shown h hnull hp hlookup he hr]
    exact Bool.false_ne_true
  have hfat := Fat32.lookup_joinPath hne hnull hplain hrecords
  have hstatic : Static.lookup env.progs (joinPath p e.1) = some e.2 := by
    rw [Static.lookup_joinPath env.progs hne hnull hplain hempty, hlookup]
    exact Static.walk_entry (Static.wellNamed_lookup hlookup) hmem
  unfold handleStat
  rw [hname, trimNull_of_not_mem hjoin, hfind, hfat, hrecord]
  simp [hstatic]

end Entries

/-! ### Every listing -/

/-- Every entry that a listing shows is what `OP_STAT` finds there, and no two layers show the same name up to case. -/
structure ListsAsStat (env : Env) (s : Server) (path : Bytes) : Prop where
  stat : ∀ replies name flags size, s.handleReaddir env path = some replies → .entry name flags size ∈ replies →
    name.length < 40 → (joinPath (dirPath path) name).length < 48 →
    s.handleStat env (joinPath (dirPath path) name) = some (.stat flags size)
  distinct : ∀ l, s.listing env path = some (.ok l) → (l.layers s).Pairwise fun layer layer' =>
    ∀ name flags size name' flags' size', .entry name flags size ∈ layer → .entry name' flags' size' ∈ layer' →
      eqCi name name' = false

/-- The entries of the static tree in a directory. -/
def entriesAt (env : Env) (p : Bytes) : List (Bytes × Node) :=
  match Static.lookup env.progs p with
  | some (.dir entries) => entries
  | _ => []

/-- If the directory is listed, its layers do not get into each other's way. -/
def NoClash (env : Env) (s : Server) (path : Bytes) : Prop :=
  ∀ static records, s.hasStaticDir env (dirPath path) = some (.ok static) →
    Fat32.readdir env.disk (dirPath path) = some records → s.Separate (dirPath path) records (entriesAt env (dirPath path))

/-- The static tree is listed only if it has the directory. -/
theorem lookup_of_hasStaticDir (h : s.hasStaticDir env p = some (.ok true)) :
    Static.lookup env.progs p = some (.dir (entriesAt env p)) := by
  unfold hasStaticDir at h
  unfold entriesAt
  cases hlookup : Static.lookup env.progs p with
  | none =>
    rw [hlookup] at h
    simp only at h
    split at h
    · split at h <;> cases h
    · obtain ⟨found, -, h⟩ := Option.bind_eq_some_iff.1 h
      split at h
      · split at h <;> cases h
      · cases h
  | some n =>
    cases n with
    | dir children => rfl
    | file data flags =>
      rw [hlookup] at h
      simp only [Node.isDir, Bool.false_eq_true, if_false] at h
      split at h <;> cases h

theorem length_dirPath_le (words : Vector Word dataFields) : (dirPath (unpackPath words)).length ≤ 48 := by
  have hle := length_trimNull_le (unpackPath words)
  rw [length_unpackPath] at hle
  unfold dirPath
  split
  · decide
  · exact hle

theorem Separate.shown_name (h : s.Separate p records entries) (hnull : (0 : Byte) ∉ p) {r : DirRecord}
    (hr : r ∈ s.shownRecords p records) : trimNull (r.name.take nameBytes) = r.name.take 40 := by
  rw [h.shownRecords_eq hnull, List.mem_filter, Bool.not_eq_true'] at hr
  exact trimNull_of_not_mem fun hz => (h.record_plain r hr.1 hr.2).2 (List.mem_of_mem_take hz)

theorem Separate.node_name (h : s.Separate p records entries) (hnull : (0 : Byte) ∉ p) {c : Bytes × Fin maxNodes}
    (hc : c ∈ Mutable.childrenOf s.nodes p) : trimNull (c.1.take nameBytes) = c.1.take 40 := by
  refine trimNull_of_not_mem fun hz => ?_
  have hcnull := not_mem_trimNull c.1
  rw [h.trimNull_name hnull hc] at hcnull
  exact hcnull (List.mem_of_mem_take hz)

/-- The names that the records and the nodes are shown with are different. -/
theorem record_ne_node (h : s.Separate p records entries) (hnull : (0 : Byte) ∉ p) {r : DirRecord}
    (hr : r ∈ s.shownRecords p records) {c : Bytes × Fin maxNodes} (hc : c ∈ Mutable.childrenOf s.nodes p) :
    eqCi (trimNull (r.name.take nameBytes)) (trimNull (c.1.take nameBytes)) = false := by
  rw [h.shown_name hnull hr, h.node_name hnull hc]
  rw [h.shownRecords_eq hnull, List.mem_filter, Bool.not_eq_true'] at hr
  have hcut : s.shadows p (r.name.take 40) = false := by
    by_cases hlong : 40 < r.name.length
    · exact h.record_long r hr.1 hlong
    · rw [List.take_of_length_le (by omega)]
      exact hr.2
  by_contra heq
  rw [Bool.not_eq_false] at heq
  exact List.any_eq_false.1 hcut c hc (eqCi_symm heq)

/-- What is listed, and what is known of it. -/
theorem listing_spec {path : Bytes} {l : Listing} (h : s.NoClash env path) (hl : s.listing env path = some (.ok l)) :
    ∃ records, Fat32.readdir env.disk (dirPath path) = some records ∧
      s.Separate (dirPath path) records (entriesAt env (dirPath path)) ∧
      l.records = s.shownRecords (dirPath path) records ∧ l.nodes = Mutable.childrenOf s.nodes (dirPath path) ∧
      ∀ e ∈ l.entries, e ∈ s.shownEntries env (dirPath path) records ∧
        Static.lookup env.progs (dirPath path) = some (.dir (entriesAt env (dirPath path))) := by
  obtain ⟨found, hfound, hl⟩ := Option.bind_eq_some_iff.1 hl
  cases found with
  | error e => cases hl
  | ok static =>
    obtain ⟨records, hrecords, heq⟩ := Option.map_eq_some_iff.1 hl
    cases heq
    refine ⟨records, hrecords, h static records hfound hrecords, rfl, rfl, fun e he => ?_⟩
    cases static with
    | false => cases he
    | true => exact ⟨he, lookup_of_hasStaticDir hfound⟩

/-- The path `/etc`. -/
def etcWords : Vector Word dataFields := #v[0, 0, 0x6374652F, 0, 0, 0, 0, 0]

/-- The path `/etc/`. -/
def etcSlashWords : Vector Word dataFields := #v[0, 0, 0x2F6374652F, 0, 0, 0, 0, 0]

end Server

end Rost.Vfs
