import Mathlib.Data.List.Chain
import Mathlib.Data.List.Induction
import Rost.Shell.Typing

/-!
# History references

The history shows the lines that were submitted, the newest first, without empty lines and repetitions, and no more than
32 of them (`submitted_shows`).  A reference on a line is looked up there, but only after the line itself has been
submitted: unless the line repeats the one before it, every line is one place older than the reference takes it to be
(`reference_iff`).
-/

namespace Rost.Shell

open Vfs (Bytes ascii)

/-! ### What the history keeps -/

/-- A line from the editor. -/
abbrev Line := { l : Bytes // l.length < lineMax }

/-- The lines kept, the newest first, after one more. -/
def note (ks : List Bytes) (l : Bytes) : List Bytes := if l = [] ∨ ks.head? = some l then ks else (l :: ks).take historyCap

/-- The lines kept of those submitted, the newest first: empty lines and repetitions count once, and the last 32 are
kept. -/
def kept (ls : List Line) : List Bytes := ls.foldl (fun ks l => note ks l.val) []

/-- The history after the lines. -/
def submitted (ls : List Line) : History := ls.foldl (fun h l => h.push l.val) History.new

/-- The history shows a list of lines by age. -/
structure History.Shows (h : History) (ks : List Bytes) : Prop where
  count_eq : h.count = ks.length
  length_le : ks.length ≤ historyCap
  get_eq : ∀ age, h.get age = ks[age]?

/-- What kept lines have in common: none is empty, and none repeats the one before it. -/
structure Distinct (ks : List Bytes) : Prop where
  ne_nil : ∀ k ∈ ks, k ≠ []
  chain : ks.IsChain (· ≠ ·)

theorem History.new_shows : History.new.Shows [] := by
  refine ⟨rfl, Nat.zero_le _, fun age => ?_⟩
  rw [History.get, if_pos (show History.new.count ≤ age from Nat.zero_le age)]
  rfl

private theorem vector_get (v : Vector Bytes historyCap) (i : Fin historyCap) : v.get i = v[i.val] := rfl

private theorem get_stored {h : History} {l : Bytes} {h' : History} (hnext : h'.next = (h.next + 1) % historyCap)
    (hentries : h'.entries = h.entries.set h.next l h.next_lt) (hcount : 0 < h'.count) : h'.get 0 = some l := by
  have hlt := h.next_lt
  have hidx : (h'.next + historyCap - 1 - 0) % historyCap = h.next := by
    rw [hnext]
    simp only [historyCap] at hlt ⊢
    omega
  rw [History.get, if_neg (by omega)]
  simp only [hidx, hentries, vector_get, Vector.getElem_set_self]

private theorem get_older {h : History} {l : Bytes} {h' : History} (hnext : h'.next = (h.next + 1) % historyCap)
    (hentries : h'.entries = h.entries.set h.next l h.next_lt) {age : Nat} (hage : age + 1 < historyCap)
    (hcount : age + 1 < h'.count) (hcount' : age < h.count) : h'.get (age + 1) = h.get age := by
  have hlt := h.next_lt
  have hidx : (h'.next + historyCap - 1 - (age + 1)) % historyCap = (h.next + historyCap - 1 - age) % historyCap := by
    rw [hnext]
    simp only [historyCap] at hlt hage ⊢
    omega
  have hne : h.next ≠ (h.next + historyCap - 1 - age) % historyCap := by
    simp only [historyCap] at hlt hage ⊢
    omega
  rw [History.get, History.get, if_neg (by omega), if_neg (by omega)]
  simp only [hidx, hentries, vector_get]
  rw [Vector.getElem_set_ne _ _ hne]

theorem History.Shows.push {h : History} {ks : List Bytes} (hs : h.Shows ks) {l : Bytes} (hl : l.length < lineMax) :
    (h.push l).Shows (note ks l) := by
  have hhead : h.get 0 = ks.head? := by rw [hs.get_eq 0, List.head?_eq_getElem?]
  unfold History.push note
  by_cases hnil : l = []
  · simpa [hnil] using hs
  · rw [if_neg hnil]
    by_cases hrep : ks.head? = some l
    · have hpos : 0 < h.count := by
        rw [hs.count_eq]
        exact List.length_pos_of_ne_nil (by rintro rfl; simp at hrep)
      rw [if_pos ⟨hpos, hhead.trans hrep⟩, if_pos (.inr hrep)]
      exact hs
    · have hnew : ¬(0 < h.count ∧ h.get 0 = some l) := fun hrec => hrep (hhead ▸ hrec.2)
      rw [if_neg hnew, if_neg (not_or.2 ⟨hnil, hrep⟩)]
      have hcap := hs.length_le
      have htake : l.take lineMax = l := List.take_of_length_le (Nat.le_of_lt hl)
      generalize hh' : History.mk _ _ _ _ = h'
      have hnext : h'.next = (h.next + 1) % historyCap := by rw [← hh']
      have hentries : h'.entries = h.entries.set h.next l h.next_lt := by rw [← hh', htake]
      have hcount : h'.count = min (ks.length + 1) historyCap := by
        rw [← hh', hs.count_eq]
        simp only
        split <;> omega
      have hlen : ((l :: ks).take historyCap).length = h'.count := by
        rw [List.length_take, List.length_cons, hcount, Nat.min_comm]
      have hpos : 0 < h'.count := by
        rw [hcount]
        simp only [historyCap]
        omega
      refine ⟨hlen.symm, hlen ▸ hcount ▸ Nat.min_le_right _ _, fun age => ?_⟩
      by_cases hage : h'.count ≤ age
      · rw [History.get, if_pos hage, List.getElem?_eq_none (hlen ▸ hage)]
      · rw [List.getElem?_take_of_lt (by omega)]
        cases age with
        | zero => exact get_stored hnext hentries hpos
        | succ age =>
          rw [get_older hnext hentries (by omega) (by omega) (by rw [hs.count_eq]; omega), hs.get_eq age,
            List.getElem?_cons_succ]

theorem Distinct.note {ks : List Bytes} (h : Distinct ks) (l : Bytes) : Distinct (note ks l) := by
  unfold Shell.note
  split
  · exact h
  · next hl =>
    rw [not_or] at hl
    have hcons : Distinct (l :: ks) := by
      refine ⟨?_, ?_⟩
      · rw [List.forall_mem_cons]
        exact ⟨hl.1, h.ne_nil⟩
      · rw [List.isChain_cons]
        refine ⟨fun k hk heq => hl.2 ?_, h.chain⟩
        rw [heq]
        exact hk
    exact ⟨fun k hk => hcons.ne_nil k (List.mem_of_mem_take hk), hcons.chain.take _⟩

/-- The history shows the lines that are kept. -/
theorem submitted_shows (ls : List Line) : (submitted ls).Shows (kept ls) ∧ Distinct (kept ls) := by
  unfold submitted kept
  induction ls using List.reverseRecOn with
  | nil => exact ⟨History.new_shows, ⟨by simp, List.isChain_nil⟩⟩
  | append_singleton ls l ih =>
    rw [List.foldl_append, List.foldl_append]
    exact ⟨ih.1.push l.2, ih.2.note _⟩

/-! ### References -/

/-- What can follow a `!`. -/
inductive Reference where
  /-- `!!` -/
  | last
  /-- `!-n` -/
  | back (n : Nat)
  /-- `!n` -/
  | number (n : Nat)
  /-- `!pre` -/
  | startsWith (pre : Bytes)
  deriving DecidableEq

/-- The reference after a `!`, and how many bytes it takes. -/
def reference? : Bytes → Option (Reference × Nat)
  | [] => none
  | c :: tail =>
    if c = bang then some (.last, 1)
    else if c = 0x2D then some (.back (parseUint (tail.takeWhile isDigit)), 1 + (tail.takeWhile isDigit).length)
    else if isDigit c then
      some (.number (parseUint ((c :: tail).takeWhile isDigit)), ((c :: tail).takeWhile isDigit).length)
    else
      some (.startsWith ((c :: tail).takeWhile fun b => b != space && b != 0x3B),
        ((c :: tail).takeWhile fun b => b != space && b != 0x3B).length)

inductive Piece where
  | byte (b : Byte)
  | ref (r : Reference)
  deriving DecidableEq

/-- A line as plain bytes and references; the first `skip` bytes belong to a reference that has been read. -/
def linePieces : Nat → Bytes → List Piece
  | _, [] => []
  | skip, b :: rest =>
    if 0 < skip then linePieces (skip - 1) rest
    else if b ≠ bang then .byte b :: linePieces 0 rest
    else
      match reference? rest with
      | none => .byte bang :: linePieces 0 rest
      | some (r, n) => .ref r :: linePieces n rest

/-- The line a reference names, among lines with the newest first. -/
def Reference.lookup (ks : List Bytes) : Reference → Option Bytes
  | .last => ks.head?
  | .back n => if 0 < n then ks[n - 1]? else none
  | .number n => if 0 < n ∧ n ≤ ks.length then ks[ks.length - n]? else none
  | .startsWith pre => ks.find? fun k => pre.isPrefixOf k

theorem Reference.mem_of_lookup {ks : List Bytes} {r : Reference} {k : Bytes} (h : r.lookup ks = some k) : k ∈ ks := by
  cases r with
  | last => exact List.mem_of_mem_head? h
  | back n =>
    rw [Reference.lookup, Option.ite_none_right_eq_some] at h
    exact List.mem_of_getElem? h.2
  | number n =>
    rw [Reference.lookup, Option.ite_none_right_eq_some] at h
    exact List.mem_of_getElem? h.2
  | startsWith pre => exact List.mem_of_find?_eq_some h

/-- What is put for a reference that names no line. -/
def Reference.literal : Reference → Bytes
  | .last => [bang, bang]
  | .startsWith pre => bang :: pre
  | _ => []

/-- What is put for a reference. -/
def Reference.text (ks : List Bytes) (r : Reference) : Bytes := (r.lookup ks).getD r.literal

def Piece.text (ks : List Bytes) : Piece → Bytes
  | .byte b => [b]
  | .ref r => r.text ks

def Piece.found (ks : List Bytes) : Piece → Bool
  | .byte _ => false
  | .ref r => (r.lookup ks).isSome

private theorem findSome_eq_find (ks : List Bytes) (p : Bytes → Bool) :
    ((List.range ks.length).findSome? fun age => ks[age]?.filter p) = ks.find? p := by
  induction ks with
  | nil => rfl
  | cons k ks ih =>
    rw [List.length_cons, List.range_succ_eq_map, List.findSome?_cons, List.findSome?_map, List.find?_cons]
    simp only [List.getElem?_cons_zero, Option.filter_some, Function.comp_def, List.getElem?_cons_succ, ih]
    cases p k <;> rfl

/-- What the loop makes of a `!`. -/
private theorem historyRef_eq {h : History} {ks : List Bytes} (hs : h.Shows ks) (rest : Bytes) : historyRef h rest =
    match reference? rest with
    | none => ([bang], false, 0)
    | some (r, n) => (r.text ks, (r.lookup ks).isSome, n) := by
  rcases rest with _ | ⟨c, tail⟩
  · rfl
  rw [historyRef, reference?]
  -- in every case the reference is looked up, and its literal stands where it names no line
  by_cases hbang : c = bang
  · rw [if_pos hbang, if_pos hbang, hs.get_eq, ← List.head?_eq_getElem?]
    simp only [Reference.text, Reference.lookup, Reference.literal]
    cases ks.head? <;> rfl
  rw [if_neg hbang, if_neg hbang]
  by_cases hminus : c = 0x2D
  · rw [if_pos hminus, if_pos hminus]
    simp only [hs.get_eq, Reference.text, Reference.lookup, Reference.literal]
    generalize (if 0 < parseUint (tail.takeWhile isDigit) then ks[parseUint (tail.takeWhile isDigit) - 1]? else none) = o
    cases o <;> rfl
  rw [if_neg hminus, if_neg hminus]
  by_cases hdigit : isDigit c = true
  · rw [if_pos hdigit, if_pos hdigit]
    simp only [hs.get_eq, hs.count_eq, Reference.text, Reference.lookup, Reference.literal]
    generalize parseUint ((c :: tail).takeWhile isDigit) = n
    generalize (if 0 < n ∧ n ≤ ks.length then ks[ks.length - n]? else none) = o
    cases o <;> rfl
  · rw [if_neg hdigit, if_neg hdigit]
    simp only [hs.get_eq, hs.count_eq, Reference.text, Reference.lookup, Reference.literal, findSome_eq_find]
    generalize (c :: tail).takeWhile (fun b => b != space && b != 0x3B) = pre
    generalize ks.find? (fun k => pre.isPrefixOf k) = o
    cases o <;> rfl

/-- What the loop makes of a line. -/
theorem historyLoop_eq {h : History} {ks : List Bytes} (hs : h.Shows ks) (skip : Nat) (x : Bytes) :
    historyLoop h skip x = ((linePieces skip x).flatMap (Piece.text ks), (linePieces skip x).any (Piece.found ks)) := by
  induction x generalizing skip with
  | nil => rfl
  | cons b rest ih =>
    rw [historyLoop, linePieces]
    by_cases hskip : 0 < skip
    · rw [if_pos hskip, if_pos hskip, ih]
    rw [if_neg hskip, if_neg hskip]
    by_cases hb : b ≠ bang
    · rw [if_pos hb, if_pos hb, ih]
      rfl
    · rw [if_neg hb, if_neg hb, historyRef_eq hs]
      cases reference? rest with
      | none =>
        simp only [ih]
        rfl
      | some r =>
        simp only [ih]
        rfl

/-- The references of a line. -/
def references (x : Bytes) : List Reference :=
  (linePieces 0 x).filterMap fun
    | .byte _ => none
    | .ref r => some r

/-- The line after its references have been replaced: if one of them names a line, the references are replaced and the
rest is copied, up to 255 bytes. -/
theorem expandHistory_eq {h : History} {ks : List Bytes} (hs : h.Shows ks) (hne : ∀ k ∈ ks, k ≠ []) (x : Bytes) :
    (expandHistory x h).getD x =
      if (references x).any (fun r => (r.lookup ks).isSome) then
        ((linePieces 0 x).flatMap (Piece.text ks)).take (lineMax - 1)
      else x := by
  have hany : (linePieces 0 x).any (Piece.found ks) = (references x).any fun r => (r.lookup ks).isSome := by
    rw [references, List.any_filterMap]
    congr 1
    funext p
    cases p <;> rfl
  rw [expandHistory, historyLoop_eq hs, ← hany]
  by_cases hfound : (linePieces 0 x).any (Piece.found ks) = true
  · -- the text of the line that has been found is not empty
    have hout : ((linePieces 0 x).flatMap (Piece.text ks)).take (lineMax - 1) ≠ [] := by
      obtain ⟨p, hp, hfound⟩ := List.any_eq_true.1 hfound
      have htext : p.text ks ≠ [] := by
        cases p with
        | byte b => simp [Piece.text]
        | ref r =>
          obtain ⟨k, hk⟩ := Option.isSome_iff_exists.1 hfound
          rw [Piece.text, Reference.text, hk]
          exact hne k (Reference.mem_of_lookup hk)
      rw [ne_eq, List.take_eq_nil_iff, not_or, List.flatMap_eq_nil_iff]
      exact ⟨by decide, fun h => htext (h p hp)⟩
    simp [hfound, hout]
  · simp [hfound]

/-! ### The line itself is in the history -/

/-- A reference that names line `k` still names it after line `x` has been submitted. -/
def Reference.Unshifted (ks : List Bytes) (x k : Bytes) : Reference → Prop
  | .last => False
  | .back _ => False
  | .number _ => ks.length < historyCap
  | .startsWith pre => if pre.isPrefixOf x then x = k else k ∈ ks.take (historyCap - 1)

private theorem chain_ne {L : List Bytes} (h : L.IsChain (· ≠ ·)) {i : Nat} {a b : Bytes} (ha : L[i]? = some a)
    (hb : L[i + 1]? = some b) : a ≠ b := by
  obtain ⟨hlt, rfl⟩ := List.getElem?_eq_some_iff.1 hb
  obtain ⟨hlt', rfl⟩ := List.getElem?_eq_some_iff.1 ha
  exact List.isChain_iff_getElem.1 h i hlt

/-- A prefix is never searched for that starts with `!`. -/
private theorem startsWith_head {pre : Bytes} {skip : Nat} {x : Bytes} (h : .ref (.startsWith pre) ∈ linePieces skip x) :
    pre.head? ≠ some bang := by
  induction x generalizing skip with
  | nil => simp [linePieces] at h
  | cons b rest ih =>
    rw [linePieces] at h
    by_cases hskip : 0 < skip
    · rw [if_pos hskip] at h
      exact ih h
    rw [if_neg hskip] at h
    by_cases hb : b ≠ bang
    · rw [if_pos hb] at h
      exact ih (by simpa using h)
    rw [if_neg hb] at h
    cases href : reference? rest with
    | none =>
      rw [href] at h
      exact ih (by simpa using h)
    | some r =>
      rw [href] at h
      rcases List.mem_cons.1 h with heq | h
      · rcases rest with _ | ⟨c, tail⟩
        · cases href
        · rw [reference?] at href
          split_ifs at href with hc hminus hdigit
          · cases href; cases heq
          · cases href; cases heq
          · cases href; cases heq
          · cases href
            cases heq
            rw [List.takeWhile_cons]
            split
            · simpa using hc
            · simp
      · exact ih h

private theorem text_of_lookup {ks : List Bytes} {r : Reference} {k : Bytes} (h : r.lookup ks = some k) : r.text ks = k := by
  rw [Reference.text, h]
  rfl

/-- After a new line has been submitted, a reference is replaced by the line it named before exactly if it has not
shifted. -/
private theorem text_iff {ks : List Bytes} (hd : Distinct ks) (hcap : ks.length ≤ historyCap) {x k : Bytes}
    (hnew : ks.head? ≠ some x) {r : Reference} (hr : .ref r ∈ linePieces 0 x) (hk : r.lookup ks = some k) :
    r.text ((x :: ks).take historyCap) = k ↔ r.Unshifted ks x k := by
  have hchain : (x :: ks).IsChain (· ≠ ·) := by
    rw [List.isChain_cons]
    exact ⟨fun y hy heq => hnew (heq ▸ hy), hd.chain⟩
  cases r with
  | last =>
    have hlook : Reference.last.lookup ((x :: ks).take historyCap) = some x := rfl
    rw [Reference.lookup] at hk
    rw [text_of_lookup hlook, Reference.Unshifted, iff_false]
    rintro rfl
    exact hnew hk
  | back n =>
    rw [Reference.lookup, Option.ite_none_right_eq_some] at hk
    obtain ⟨hn, hk⟩ := hk
    have hlt : n - 1 < ks.length := (List.getElem?_eq_some_iff.1 hk).1
    -- what is found is the line after the one that is named
    obtain ⟨v, hv⟩ : ∃ v, (x :: ks)[n - 1]? = some v := ⟨_, List.getElem?_eq_getElem (by rw [List.length_cons]; omega)⟩
    have hlook : (Reference.back n).lookup ((x :: ks).take historyCap) = some v := by
      rw [Reference.lookup, if_pos hn, List.getElem?_take_of_lt (by omega), hv]
    rw [text_of_lookup hlook, Reference.Unshifted, iff_false]
    exact chain_ne hchain hv (by rwa [List.getElem?_cons_succ])
  | number n =>
    rw [Reference.lookup, Option.ite_none_right_eq_some] at hk
    obtain ⟨⟨hn, hle⟩, hk⟩ := hk
    have hk' : (x :: ks)[ks.length - n + 1]? = some k := by rwa [List.getElem?_cons_succ]
    rw [Reference.Unshifted]
    by_cases hroom : ks.length < historyCap
    · have htake : (x :: ks).take historyCap = x :: ks := List.take_of_length_le (by rw [List.length_cons]; omega)
      have hlook : (Reference.number n).lookup ((x :: ks).take historyCap) = some k := by
        rw [htake, Reference.lookup, if_pos ⟨hn, by rw [List.length_cons]; omega⟩, List.length_cons, ← hk']
        congr 1
        omega
      simp [text_of_lookup hlook, hroom]
    · have hlen : ((x :: ks).take historyCap).length = ks.length := by
        rw [List.length_take, List.length_cons]
        omega
      obtain ⟨v, hv⟩ : ∃ v, (x :: ks)[ks.length - n]? = some v :=
        ⟨_, List.getElem?_eq_getElem (by rw [List.length_cons]; omega)⟩
      have hlook : (Reference.number n).lookup ((x :: ks).take historyCap) = some v := by
        rw [Reference.lookup, hlen, if_pos ⟨hn, hle⟩, List.getElem?_take_of_lt (by omega), hv]
      rw [text_of_lookup hlook]
      simpa [hroom] using chain_ne hchain hv hk'
  | startsWith pre =>
    rw [Reference.lookup] at hk
    have hpre : pre.isPrefixOf k = true := List.find?_some (p := fun l => pre.isPrefixOf l) hk
    rw [Reference.Unshifted, show historyCap = 31 + 1 from rfl, List.take_succ_cons, Nat.add_sub_cancel]
    by_cases hself : pre.isPrefixOf x = true
    · have hlook : (Reference.startsWith pre).lookup (x :: ks.take 31) = some x := by
        rw [Reference.lookup, List.find?_cons_of_pos hself]
      rw [text_of_lookup hlook, if_pos hself]
    · have hlook : (Reference.startsWith pre).lookup (x :: ks.take 31) = (ks.take 31).find? fun l => pre.isPrefixOf l := by
        rw [Reference.lookup, List.find?_cons_of_neg hself]
      rw [if_neg hself]
      have hsplit : ((ks.take 31).find? fun l => pre.isPrefixOf l).or ((ks.drop 31).find? fun l => pre.isPrefixOf l) =
          some k := by
        rw [← List.find?_append, List.take_append_drop, hk]
      cases hfind : (ks.take 31).find? fun l => pre.isPrefixOf l with
      | some v =>
        rw [hfind, Option.some_or] at hsplit
        cases hsplit
        rw [text_of_lookup (hlook.trans hfind)]
        exact iff_of_true rfl (List.mem_of_find?_eq_some hfind)
      | none =>
        -- the line has left the history, and the reference stands for itself
        have htext : (Reference.startsWith pre).text (x :: ks.take 31) = bang :: pre := by
          rw [Reference.text, hlook, hfind]
          rfl
        rw [htext]
        refine iff_of_false ?_ fun hmem => ?_
        · rintro rfl
          rcases pre with _ | ⟨c, pre⟩
          · simp at hself
          · rw [List.isPrefixOf_cons_cons, Bool.and_eq_true, beq_iff_eq] at hpre
            exact startsWith_head hr (by rw [hpre.1]; rfl)
        · exact absurd hpre (by simpa using List.find?_eq_none.1 hfind k hmem)

/-! ### Entering a line -/

/-- The line that is executed when `x` is entered, before variables are expanded. -/
def expanded (h : History) (x : Bytes) : Bytes := (expandHistory x (h.push x)).getD x

/-- After the lines `ls`, line `x` is entered.  Its references are replaced and the rest is copied up to 255 bytes, if one
of them names a line of the history, which then ends with `x`; and they are replaced by the lines that they name in the
history before `x` exactly if `x` repeats the last line or no reference that names a line has shifted. -/
theorem reference_iff (ls : List Line) (x : Line) :
    expanded (submitted ls) x.val =
        (if (references x.val).any (fun r => (r.lookup (note (kept ls) x.val)).isSome) then
          ((linePieces 0 x.val).flatMap (Piece.text (note (kept ls) x.val))).take (lineMax - 1)
        else x.val) ∧
      ((∀ r ∈ references x.val, ∀ k, r.lookup (kept ls) = some k → r.text (note (kept ls) x.val) = k) ↔
        (kept ls).head? = some x.val ∨
          ∀ r ∈ references x.val, ∀ k, r.lookup (kept ls) = some k → r.Unshifted (kept ls) x.val k) := by
  obtain ⟨hshows, hdistinct⟩ := submitted_shows ls
  have hpush := hshows.push x.2
  refine ⟨expandHistory_eq hpush (hdistinct.note _).ne_nil x.val, ?_⟩
  by_cases hrep : (kept ls).head? = some x.val
  · refine iff_of_true (fun r _ k hk => ?_) (.inl hrep)
    rw [note, if_pos (.inr hrep)]
    exact text_of_lookup hk
  by_cases hnil : x.val = []
  · rw [hnil]
    exact iff_of_true (by simp [references, linePieces]) (.inr (by simp [references, linePieces]))
  rw [or_iff_right hrep, note, if_neg (not_or.2 ⟨hnil, hrep⟩)]
  have hiff : ∀ r ∈ references x.val, ∀ k, r.lookup (kept ls) = some k →
      (r.text ((x.val :: kept ls).take historyCap) = k ↔ r.Unshifted (kept ls) x.val k) := by
    intro r hr k hk
    refine text_iff hdistinct hshows.length_le hrep ?_ hk
    obtain ⟨p, hp, hpr⟩ := List.mem_filterMap.1 hr
    cases p with
    | byte b => cases hpr
    | ref r' =>
      cases hpr
      exact hp
  exact forall_congr' fun r => forall_congr' fun hr => forall_congr' fun k => forall_congr' fun hk => hiff r hr k hk

/-- After `ls`, the line `!!` is replaced by itself. -/
theorem last_names_itself :
    expanded (submitted [⟨ascii "ls", by decide⟩]) (ascii "!!") = ascii "!!" ∧
      (kept [⟨ascii "ls", by decide⟩]).head? = some (ascii "ls") ∧ references (ascii "!!") = [.last] := by
  decide +kernel

end Rost.Shell
