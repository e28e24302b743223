import Rost.Shell.Escape
import Rost.Shell.LineEditor
import Rost.Shell.Typing

/-!
# The keys of the shell

The shell takes one key after the other: it edits the line, browses the history, searches it and submits lines.  What is
browsed is a line of the history, and the line that was being edited is kept until the browsing ends.  The search submits
its lines on a path of its own, which forgets to end the browsing, and only Ctrl+C leaves it with the line from before
(`search_transparent_iff`).
-/

namespace Rost.Shell

open Vfs (Bytes ascii)

/-! ### The shell -/

structure SearchState where
  active : Bool
  /-- At most 64 bytes. -/
  query : Bytes
  matchAge : Nat
  /-- The line before Ctrl+R. -/
  saved : LineEditor

namespace SearchState

def new : SearchState := ⟨false, [], 0, .new⟩

def reset (s : SearchState) : SearchState := { s with active := false, query := [], matchAge := 0 }

end SearchState

/-- `Shell`, apart from the decoder of its keys. -/
structure ShellState (ω : Type) where
  editor : LineEditor
  killRing : Bytes
  killLen : Nat
  /-- What commands work on: the history, the variables, the aliases, the directory and the last exit status. -/
  ctx : Ctx ω
  histIdx : Option Nat
  saved : LineEditor
  search : SearchState

/-- `contains` -/
def contains (haystack needle : Bytes) : Bool :=
  if needle = [] then true
  else if haystack.length < needle.length then false
  else (List.range (haystack.length - needle.length + 1)).any fun i => (haystack.drop i).take needle.length == needle

namespace ShellState

variable {ω : Type}

def start (pid : Nat) (world : ω) : ShellState ω :=
  ⟨.new, List.replicate lineMax 0, 0, Ctx.start pid world, none, .new, .new⟩

/-- A key that does one operation of the editor. -/
def edit (s : ShellState ω) (op : EditorOp) : Option (ShellState ω) :=
  (op.exec (s.editor, s.killRing)).map fun r => { s with editor := r.1.1, killRing := r.1.2 }

def kill (s : ShellState ω) (k : KillKey) : Option (ShellState ω) :=
  (k.handle s.editor s.killRing).map fun r => { s with editor := r.1, killRing := r.2.1, killLen := r.2.2 }

/-- The keys Up and Ctrl+P. -/
def historyUp (s : ShellState ω) : Option (ShellState ω) :=
  let next := (s.histIdx.map fun a => a + 1).getD 0
  match s.ctx.history.get next with
  | none => some s
  | some entry => do
    let saved ← if s.histIdx = none then s.saved.clear.load s.editor.asBytes else some s.saved
    let editor ← s.editor.load entry
    some { s with saved, editor, histIdx := some next }

/-- The keys Down and Ctrl+N. -/
def historyDown (s : ShellState ω) : Option (ShellState ω) :=
  match s.histIdx with
  | none => some s
  | some 0 => do
    let editor ← s.editor.load s.saved.asBytes
    some { s with editor, saved := s.saved.clear, histIdx := none }
  | some (age + 1) =>
    match s.ctx.history.get age with
    | none => some s
    | some entry => do
      let editor ← s.editor.load entry
      some { s with editor, histIdx := some age }

/-- `search_find`: the first line from `age` on that contains the query, if there is one. -/
def searchFind (s : ShellState ω) (age : Nat) : Option (ShellState ω) :=
  if s.search.query = [] then some s
  else
    let ages := (List.range s.ctx.history.count).filter fun a => decide (age ≤ a)
    match ages.find? fun a => (s.ctx.history.get a).any fun entry => contains entry s.search.query with
    | none => some s
    | some a => do
      let editor ← s.editor.load ((s.ctx.history.get a).getD [])
      some { s with editor, search := { s.search with matchAge := a } }

/-- `handle_search_key` -/
def handleSearchKey (d : Dispatcher ω) (s : ShellState ω) (key : Key) : Option (ShellState ω) :=
  match key with
  | .enter =>
    if s.editor.len = 0 then some { s with search := s.search.reset }
    else
      (enter d s.ctx s.editor.asBytes).map fun ctx =>
        { s with ctx, editor := s.editor.clear, search := s.search.reset }
  | .ctrlC => (s.editor.load s.search.saved.asBytes).map fun editor => { s with editor, search := s.search.reset }
  | .ctrlR => s.searchFind (s.search.matchAge + 1)
  | .backspace =>
    if s.search.query = [] then some s
    else searchFind { s with search := { s.search with query := s.search.query.dropLast, matchAge := 0 } } 0
  | .char b =>
    if 64 ≤ s.search.query.length then some s
    else searchFind { s with search := { s.search with query := s.search.query ++ [b], matchAge := 0 } } 0
  -- any other key ends the search without accepting
  | _ => some { s with search := s.search.reset }

/-- `handle_key`; `none` when the shell exits or a command does not return.  `complete` is what Tab inserts at the cursor,
from the world, the directory and the text before the cursor. -/
def handleKey (d : Dispatcher ω) (complete : ω → Bytes → Bytes → ω × Bytes) (s : ShellState ω) (key : Key) :
    Option (ShellState ω) :=
  if s.search.active then s.handleSearchKey d key
  else
    match key with
    | .enter =>
      if s.editor.len = 0 then some s
      else
        (enter d s.ctx s.editor.asBytes).map fun ctx =>
          { s with ctx, editor := s.editor.clear, saved := s.saved.clear, histIdx := none }
    | .ctrlC => some { s with editor := s.editor.clear, saved := s.saved.clear, histIdx := none }
    | .ctrlD => if s.editor.len = 0 then none else s.edit .deleteForward
    | .ctrlL => some s
    | .ctrlR =>
      (s.search.saved.load s.editor.asBytes).map fun saved =>
        { s with search := ⟨true, [], 0, saved⟩, editor := s.editor.clear }
    | .char b =>
      if s.histIdx.isSome then edit { s with histIdx := none, saved := s.saved.clear } (.insert b)
      else s.edit (.insert b)
    | .backspace => s.edit .backspace
    | .delete => s.edit .deleteForward
    | .ctrlA | .home => s.edit .home
    | .ctrlE | .endKey => s.edit .toEnd
    | .ctrlB | .arrowLeft => s.edit .moveLeft
    | .ctrlF | .arrowRight => s.edit .moveRight
    | .wordLeft => s.edit .wordLeft
    | .wordRight => s.edit .wordRight
    | .ctrlK => s.kill .ctrlK
    | .ctrlU => s.kill .ctrlU
    | .ctrlW => s.kill .ctrlW
    | .ctrlY => (handleCtrlY s.editor s.killRing s.killLen).map fun editor => { s with editor }
    | .arrowUp | .ctrlP => s.historyUp
    | .arrowDown | .ctrlN => s.historyDown
    | .tab =>
      let r := complete s.ctx.world s.ctx.cwd (s.editor.asBytes.take s.editor.cursor)
      r.2.foldlM (fun s b => s.edit (.insert b)) { s with ctx := { s.ctx with world := r.1 } }

/-- The shell after a sequence of keys. -/
def handleKeys (d : Dispatcher ω) (complete : ω → Bytes → Bytes → ω × Bytes) (s : ShellState ω) (keys : List Key) :
    Option (ShellState ω) := keys.foldlM (handleKey d complete) s

/-- A fresh prompt on the same shell. -/
def fresh (s : ShellState ω) : ShellState ω := { s with editor := .new, histIdx := none, saved := .new, search := .new }

/-- The shells agree in the editor, what the commands work on, the browsing and the saved line. -/
def Agree (s t : ShellState ω) : Prop :=
  s.editor.zipper = t.editor.zipper ∧ s.ctx = t.ctx ∧ s.histIdx = t.histIdx ∧ s.saved.asBytes = t.saved.asBytes

/-! ### What the keys are to do -/

/-- A shell with what a reader would note beside it: where in the history it browses, and which line was being edited when
the browsing began; and the line that was being edited when the search began. -/
structure Watched (ω : Type) where
  shell : ShellState ω
  browse : Option (Nat × Bytes)
  origin : Bytes

/-- A line is submitted. -/
def Submits (s : ShellState ω) (key : Key) : Prop := key = .enter ∧ s.editor.len ≠ 0

/-- Where the history is browsed after a key.  Browsing ends with the line: when it is submitted, given up, edited by a
character, or come back to. -/
def browseAfter (s : ShellState ω) (browse : Option (Nat × Bytes)) (key : Key) : Option (Nat × Bytes) :=
  if key = .enter ∧ s.editor.len ≠ 0 then none
  else if s.search.active then browse
  else
    match key with
    | .ctrlC => none
    | .char _ => none
    | .arrowUp | .ctrlP =>
      match browse with
      | none => if 0 < s.ctx.history.count then some (0, s.editor.asBytes) else none
      | some (a, draft) => if a + 1 < s.ctx.history.count then some (a + 1, draft) else some (a, draft)
    | .arrowDown | .ctrlN =>
      match browse with
      | none => none
      | some (0, _) => none
      | some (a + 1, draft) => some (a, draft)
    | _ => browse

def Watched.step (d : Dispatcher ω) (complete : ω → Bytes → Bytes → ω × Bytes) (w : Watched ω) (key : Key) :
    Option (Watched ω) :=
  (w.shell.handleKey d complete key).map fun s =>
    { shell := s
      browse := browseAfter w.shell w.browse key
      origin := if key = .ctrlR ∧ w.shell.search.active = false then w.shell.editor.asBytes else w.origin }

/-- The browsing is consistent: the line that is browsed is in the history, and Down leads from it to the line that was
being edited.  Where the search is active, the first Down leaves it. -/
def Consistent (d : Dispatcher ω) (complete : ω → Bytes → Bytes → ω × Bytes) (w : Watched ω) : Prop :=
  w.shell.histIdx = w.browse.map Prod.fst ∧
    ∀ a draft, w.browse = some (a, draft) → (w.shell.ctx.history.get a).isSome = true ∧
      ∃ s, w.shell.handleKeys d complete
          (List.replicate ((if w.shell.search.active then 1 else 0) + (a + 1)) .arrowDown) = some s ∧
        s.editor.asBytes = draft

/-- What is asked of a key that takes a shell to the next: a line submitted from the search does what it does on a fresh
prompt, leaving the search otherwise gives back the line from before, and the browsing is consistent. -/
def Good (d : Dispatcher ω) (complete : ω → Bytes → Bytes → ω × Bytes) (w : Watched ω) (key : Key) (w' : Watched ω) :
    Prop :=
  (w.shell.search.active = true → Submits w.shell key →
      ∃ t, w.shell.fresh.handleKeys d complete (w.shell.editor.asBytes.map .char ++ [.enter]) = some t ∧
        w'.shell.Agree t) ∧
    (w.shell.search.active = true → w'.shell.search.active = false → key ≠ .enter →
      w'.shell.editor.asBytes = w.origin) ∧
    Consistent d complete w'

/-- Every key of a sequence does what is asked of it. -/
def AllGood (d : Dispatcher ω) (complete : ω → Bytes → Bytes → ω × Bytes) (w : Watched ω) : List Key → Prop
  | [] => True
  | key :: keys => ∀ w', w.step d complete key = some w' → Good d complete w key w' ∧ AllGood d complete w' keys

/-- The keys with which the search goes on, or is accepted or cancelled. -/
def searchKey : Key → Bool
  | .enter | .ctrlC | .ctrlR | .backspace | .char _ => true
  | _ => false

/-- No line is submitted from the search while the history is browsed, and another key than Ctrl+C leaves the search only
where it shows the line from before. -/
def Meets (s : ShellState ω) (key : Key) : Prop :=
  s.search.active = true → (Submits s key → s.histIdx = none) ∧
    (searchKey key = false → s.editor.asBytes = s.search.saved.asBytes)

def AllMeet (d : Dispatcher ω) (complete : ω → Bytes → Bytes → ω × Bytes) (s : ShellState ω) : List Key → Prop
  | [] => True
  | key :: keys => ∀ s', s.handleKey d complete key = some s' → Meets s key ∧ AllMeet d complete s' keys

/-! ### Keys that leave the browsing as it is -/

/-- The buffers of the shell are in order. -/
structure Wf (s : ShellState ω) : Prop where
  editor : s.editor.Wf
  saved : s.saved.Wf
  searchSaved : s.search.saved.Wf
  ring : s.killRing.length = lineMax
  killLen_le : s.killLen ≤ lineMax

/-- The history, the place in it and the saved lines are the same, and no search has begun. -/
structure Frame (s s' : ShellState ω) : Prop where
  history : s'.ctx.history = s.ctx.history
  histIdx : s'.histIdx = s.histIdx
  saved : s'.saved = s.saved
  searchSaved : s'.search.saved = s.search.saved
  active : s'.search.active = true → s.search.active = true

theorem Frame.refl (s : ShellState ω) : Frame s s := ⟨rfl, rfl, rfl, rfl, id⟩

theorem Frame.trans {s t u : ShellState ω} (h : Frame s t) (h' : Frame t u) : Frame s u :=
  ⟨h'.history.trans h.history, h'.histIdx.trans h.histIdx, h'.saved.trans h.saved, h'.searchSaved.trans h.searchSaved,
    h.active ∘ h'.active⟩

theorem start_wf (pid : Nat) (world : ω) : (start pid world).Wf :=
  ⟨LineEditor.new_wf, LineEditor.new_wf, LineEditor.new_wf, List.length_replicate .., Nat.zero_le _⟩

/-- An operation of the editor always returns. -/
private theorem edit_eq {s : ShellState ω} (h : s.Wf) (op : EditorOp) :
    ∃ e ring, s.edit op = some { s with editor := e, killRing := ring } ∧ e.Wf ∧ ring.length = lineMax ∧
      e.zipper = (op.onZipper s.editor.zipper).1 := by
  obtain ⟨⟨e, ring⟩, hexec, hwf, hring, hz, -⟩ := EditorOp.exec_zipper (s := (s.editor, s.killRing)) h.editor h.ring op
  exact ⟨e, ring, by rw [edit, hexec]; rfl, hwf, hring, hz⟩

private theorem edit_frame {s s' : ShellState ω} (h : s.Wf) {op : EditorOp} (hs : s.edit op = some s') :
    s'.Wf ∧ Frame s s' := by
  obtain ⟨e, ring, hedit, hwf, hring, -⟩ := edit_eq h op
  cases hedit.symm.trans hs
  exact ⟨⟨hwf, h.saved, h.searchSaved, hring, h.killLen_le⟩, ⟨rfl, rfl, rfl, rfl, id⟩⟩

private theorem kill_frame {s s' : ShellState ω} (h : s.Wf) {k : KillKey} (hs : s.kill k = some s') :
    s'.Wf ∧ Frame s s' := by
  obtain ⟨e, ring, n, hkill, hwf, hring, hn⟩ := KillKey.handle_wf h.editor h.ring k
  rw [kill, hkill] at hs
  cases hs
  exact ⟨⟨hwf, h.saved, h.searchSaved, hring, hn⟩, ⟨rfl, rfl, rfl, rfl, id⟩⟩

private theorem inserts_frame {bytes : Bytes} {s s' : ShellState ω} (h : s.Wf)
    (hs : bytes.foldlM (fun t b => ShellState.edit t (.insert b)) s = some s') : s'.Wf ∧ Frame s s' := by
  induction bytes generalizing s with
  | nil =>
    cases hs
    exact ⟨h, Frame.refl _⟩
  | cons b bytes ih =>
    rw [List.foldlM_cons] at hs
    obtain ⟨t, hedit, hrest⟩ := Option.bind_eq_some_iff.1 hs
    obtain ⟨ht, hframe⟩ := edit_frame h hedit
    obtain ⟨hwf, hframe'⟩ := ih ht hrest
    exact ⟨hwf, hframe.trans hframe'⟩

/-- The keys that only edit the line, or do nothing. -/
def editKey : Key → Bool
  | .enter | .ctrlC | .ctrlR | .char _ | .arrowUp | .arrowDown | .ctrlP | .ctrlN => false
  | _ => true

private theorem editKey_frame {d : Dispatcher ω} {complete : ω → Bytes → Bytes → ω × Bytes} {s s' : ShellState ω} (h : s.Wf)
    (hactive : s.search.active = false) {key : Key} (hkey : editKey key = true)
    (hs : s.handleKey d complete key = some s') : s'.Wf ∧ Frame s s' := by
  have hoff : ¬s.search.active = true := by simp [hactive]
  unfold handleKey at hs
  rw [if_neg hoff] at hs
  cases key with
  | enter => cases hkey
  | ctrlC => cases hkey
  | ctrlR => cases hkey
  | char b => cases hkey
  | arrowUp => cases hkey
  | arrowDown => cases hkey
  | ctrlP => cases hkey
  | ctrlN => cases hkey
  | ctrlD =>
    simp only at hs
    split at hs
    · cases hs
    · exact edit_frame h hs
  | ctrlL =>
    cases hs
    exact ⟨h, Frame.refl _⟩
  | ctrlK => exact kill_frame h hs
  | ctrlU => exact kill_frame h hs
  | ctrlW => exact kill_frame h hs
  | ctrlY =>
    obtain ⟨e, hyank, hwf⟩ := handleCtrlY_wf h.editor (h.killLen_le.trans h.ring.ge)
    simp only [hyank] at hs
    cases hs
    exact ⟨⟨hwf, h.saved, h.searchSaved, h.ring, h.killLen_le⟩, ⟨rfl, rfl, rfl, rfl, id⟩⟩
  | tab =>
    have hmoved : Wf { s with ctx := { s.ctx with
        world := (complete s.ctx.world s.ctx.cwd (s.editor.asBytes.take s.editor.cursor)).1 } } :=
      ⟨h.editor, h.saved, h.searchSaved, h.ring, h.killLen_le⟩
    obtain ⟨hwf, hframe⟩ := inserts_frame hmoved hs
    exact ⟨hwf, ⟨hframe.history, hframe.histIdx, hframe.saved, hframe.searchSaved, hframe.active⟩⟩
  | _ => exact edit_frame h hs

/-! ### The search -/

private theorem Wf.load {s : ShellState ω} (h : s.Wf) (src : Bytes) :
    ∃ e, s.editor.load src = some e ∧ Wf { s with editor := e } ∧ e.zipper = ⟨src.take (lineMax - 1), []⟩ := by
  obtain ⟨e, hload, hwf, hz⟩ := h.editor.load_eq src
  exact ⟨e, hload, ⟨hwf, h.saved, h.searchSaved, h.ring, h.killLen_le⟩, hz⟩

private theorem searchFind_frame {s s' : ShellState ω} (h : s.Wf) {age : Nat} (hs : s.searchFind age = some s') :
    s'.Wf ∧ Frame s s' ∧ s'.search.active = s.search.active := by
  rw [searchFind] at hs
  split at hs
  · cases hs
    exact ⟨h, Frame.refl _, rfl⟩
  · dsimp only at hs
    split at hs
    · cases hs
      exact ⟨h, Frame.refl _, rfl⟩
    · obtain ⟨e, hload, hwf, -⟩ := h.load ((s.ctx.history.get ‹_›).getD [])
      rw [hload] at hs
      cases hs
      exact ⟨⟨hwf.editor, h.saved, h.searchSaved, h.ring, h.killLen_le⟩, ⟨rfl, rfl, rfl, rfl, id⟩, rfl⟩

/-- What a key of the search does that submits no line: the browsing stays as it is, and only Ctrl+C gives back the line
from before. -/
private structure SearchStep (s : ShellState ω) (key : Key) (s' : ShellState ω) : Prop where
  wf : s'.Wf
  frame : Frame s s'
  stays : searchKey key = true → key ≠ .enter → key ≠ .ctrlC → s'.search.active = s.search.active
  leaves : searchKey key = false → s'.search.active = false ∧ s'.editor = s.editor
  cancels : key = .ctrlC → s'.editor.asBytes = s.search.saved.asBytes

/-- A query that has been changed is looked for. -/
private theorem query_frame {s s' : ShellState ω} (h : s.Wf) {q : Bytes} {m age : Nat}
    (hs : searchFind { s with search := { s.search with query := q, matchAge := m } } age = some s') :
    s'.Wf ∧ Frame s s' ∧ s'.search.active = s.search.active := by
  obtain ⟨hwf, hframe, hactive⟩ := searchFind_frame (s := { s with search := { s.search with query := q, matchAge := m } })
    ⟨h.editor, h.saved, h.searchSaved, h.ring, h.killLen_le⟩ hs
  exact ⟨hwf, ⟨hframe.history, hframe.histIdx, hframe.saved, hframe.searchSaved, hframe.active⟩, hactive⟩

private theorem SearchStep.of_stays {s s' : ShellState ω} {key : Key} (hkey : searchKey key = true) (hne : key ≠ .ctrlC)
    (h : s'.Wf ∧ Frame s s' ∧ s'.search.active = s.search.active) : SearchStep s key s' := by
  obtain ⟨hwf, hframe, hactive⟩ := h
  refine ⟨hwf, hframe, fun _ _ _ => hactive, fun hno => ?_, fun heq => absurd heq hne⟩
  rw [hkey] at hno
  cases hno

private theorem handleSearchKey_step {d : Dispatcher ω} {s s' : ShellState ω} (h : s.Wf) {key : Key}
    (hkey : ¬Submits s key) (hs : s.handleSearchKey d key = some s') : SearchStep s key s' := by
  have hreset : Wf { s with search := s.search.reset } := ⟨h.editor, h.saved, h.searchSaved, h.ring, h.killLen_le⟩
  have hends : ∀ e, Frame s { s with editor := e, search := s.search.reset } :=
    fun e => ⟨rfl, rfl, rfl, rfl, by simp [SearchState.reset]⟩
  cases key with
  | enter =>
    have hempty : s.editor.len = 0 := by
      by_contra hne
      exact hkey ⟨rfl, hne⟩
    simp only [handleSearchKey, if_pos hempty] at hs
    cases hs
    exact ⟨hreset, hends _, fun _ hne => absurd rfl hne, by simp [searchKey], by simp⟩
  | ctrlC =>
    obtain ⟨e, hload, hwf, htext⟩ := h.editor.load_asBytes h.searchSaved
    simp only [handleSearchKey, hload] at hs
    cases hs
    exact ⟨⟨hwf, h.saved, h.searchSaved, h.ring, h.killLen_le⟩, hends e, fun _ _ hne => absurd rfl hne,
      by simp [searchKey], fun _ => htext⟩
  | ctrlR => exact .of_stays rfl (by decide) (searchFind_frame h hs)
  | backspace =>
    simp only [handleSearchKey] at hs
    split at hs
    · cases hs
      exact .of_stays rfl (by decide) ⟨h, Frame.refl _, rfl⟩
    · exact .of_stays rfl (by decide) (query_frame h hs)
  | char b =>
    simp only [handleSearchKey] at hs
    split at hs
    · cases hs
      exact .of_stays rfl (by simp) ⟨h, Frame.refl _, rfl⟩
    · exact .of_stays rfl (by simp) (query_frame h hs)
  | _ =>
    cases hs
    exact ⟨hreset, hends _, by simp [searchKey], fun _ => ⟨rfl, rfl⟩, by simp⟩

/-! ### The browsing -/

/-- The browsing is where the reader thinks it is, and the line that was being edited is kept. -/
structure Inv (w : Watched ω) : Prop where
  wf : w.shell.Wf
  histIdx : w.shell.histIdx = w.browse.map Prod.fst
  idle : w.browse = none → w.shell.saved.asBytes = []
  draft : ∀ a t, w.browse = some (a, t) → a < w.shell.ctx.history.count ∧ w.shell.saved.asBytes = t
  origin : w.shell.search.active = true → w.shell.search.saved.asBytes = w.origin

private theorem asBytes_clear (e : LineEditor) : e.clear.asBytes = [] := rfl

private theorem get_isSome {h : History} {a : Nat} : (h.get a).isSome = true ↔ a < h.count := by
  rw [History.get]
  split <;> simp <;> omega

theorem start_inv (pid : Nat) (world : ω) : Inv ⟨start pid world, none, []⟩ :=
  ⟨start_wf pid world, rfl, fun _ => rfl, fun _ _ h => by simp at h, fun h => by simp [start, SearchState.new] at h⟩

private theorem Inv.of_frame {w : Watched ω} (h : Inv w) {s : ShellState ω} (hwf : s.Wf) (hframe : Frame w.shell s)
    (origin : Bytes) (ho : w.shell.search.active = true → origin = w.origin) : Inv ⟨s, w.browse, origin⟩ := by
  refine ⟨hwf, hframe.histIdx.trans h.histIdx, fun hb => ?_, fun a t hb => ?_, fun hactive => ?_⟩
  · rw [hframe.saved]
    exact h.idle hb
  · rw [hframe.saved, hframe.history]
    exact h.draft a t hb
  · have hon := hframe.active hactive
    rw [hframe.searchSaved, h.origin hon, ho hon]

/-- Where nothing is browsed, nothing need be kept. -/
private theorem inv_of_idle {s : ShellState ω} (hwf : s.Wf) (hidx : s.histIdx = none) (hsaved : s.saved.asBytes = [])
    (hactive : s.search.active = false) (origin : Bytes) : Inv ⟨s, none, origin⟩ :=
  ⟨hwf, hidx, fun _ => hsaved, fun _ _ h => by simp at h, fun h => by simp [hactive] at h⟩

/-- The line is given up or submitted, and nothing is browsed. -/
private theorem Wf.cleared_inv {s : ShellState ω} (h : s.Wf) (hactive : s.search.active = false) {ctx : Ctx ω}
    (origin : Bytes) :
    Inv ⟨{ s with ctx, editor := s.editor.clear, saved := s.saved.clear, histIdx := none }, none, origin⟩ := by
  refine inv_of_idle ?_ rfl (asBytes_clear _) ?_ origin
  · exact ⟨h.editor.clear, h.saved.clear, h.searchSaved, h.ring, h.killLen_le⟩
  · exact hactive

private theorem Inv.histIdx_of_none {w : Watched ω} (h : Inv w) (hb : w.browse = none) : w.shell.histIdx = none := by
  rw [h.histIdx, hb]
  rfl

private theorem Inv.histIdx_of_some {w : Watched ω} (h : Inv w) {a : Nat} {t : Bytes} (hb : w.browse = some (a, t)) :
    w.shell.histIdx = some a := by
  rw [h.histIdx, hb]
  rfl

private theorem Inv.browse_of_none {w : Watched ω} (h : Inv w) (hidx : w.shell.histIdx = none) : w.browse = none := by
  have hmap := h.histIdx
  rw [hidx] at hmap
  exact Option.map_eq_none_iff.1 hmap.symm

/-- The keys Up and Down move the place in the history. -/
private theorem inv_historyUp {w : Watched ω} (h : Inv w) (hactive : w.shell.search.active = false) {s : ShellState ω}
    (hs : w.shell.historyUp = some s) (origin : Bytes) :
    Inv ⟨s, browseAfter w.shell w.browse .arrowUp, origin⟩ := by
  have hframe : ∀ hwf : s.Wf, Frame w.shell s → Inv ⟨s, w.browse, origin⟩ :=
    fun hwf hframe => h.of_frame hwf hframe origin (by simp [hactive])
  rw [historyUp] at hs
  cases hb : w.browse with
  | none =>
    have hidx := h.histIdx_of_none hb
    simp only [hidx, Option.map_none, Option.getD_none, if_true] at hs
    cases hentry : w.shell.ctx.history.get 0 with
    | none =>
      have hcount : ¬0 < w.shell.ctx.history.count := by
        rw [← get_isSome, hentry]
        simp
      rw [hentry] at hs
      cases hs
      simpa [browseAfter, hactive, hcount, hb] using hframe h.wf (Frame.refl _)
    | some entry =>
      have hcount : 0 < w.shell.ctx.history.count := get_isSome.1 (by rw [hentry]; rfl)
      obtain ⟨saved, hsave, hsavedwf, htext⟩ := h.wf.saved.clear.load_asBytes h.wf.editor
      obtain ⟨e, hload, hwf, -⟩ := h.wf.load entry
      rw [hentry] at hs
      simp only [hsave, hload] at hs
      cases hs
      have hbrowse : browseAfter w.shell none .arrowUp = some (0, w.shell.editor.asBytes) := by
        simp [browseAfter, hactive, hcount]
      rw [hbrowse]
      refine ⟨⟨hwf.editor, hsavedwf, h.wf.searchSaved, h.wf.ring, h.wf.killLen_le⟩, rfl, by simp, ?_, by simp [hactive]⟩
      rintro a t ⟨⟩
      exact ⟨hcount, htext⟩
  | some p =>
    obtain ⟨a, t⟩ := p
    have hidx := h.histIdx_of_some hb
    obtain ⟨-, ht⟩ := h.draft a t hb
    simp only [hidx, Option.map_some, Option.getD_some] at hs
    cases hentry : w.shell.ctx.history.get (a + 1) with
    | none =>
      have hcount : ¬a + 1 < w.shell.ctx.history.count := by
        rw [← get_isSome, hentry]
        simp
      rw [hentry] at hs
      cases hs
      simpa [browseAfter, hactive, hcount, hb] using hframe h.wf (Frame.refl _)
    | some entry =>
      have hcount : a + 1 < w.shell.ctx.history.count := get_isSome.1 (by rw [hentry]; rfl)
      obtain ⟨e, hload, hwf, -⟩ := h.wf.load entry
      rw [hentry] at hs
      simp only [hload] at hs
      cases hs
      have hbrowse : browseAfter w.shell (some (a, t)) .arrowUp = some (a + 1, t) := by
        simp [browseAfter, hactive, hcount]
      rw [hbrowse]
      refine ⟨⟨hwf.editor, h.wf.saved, h.wf.searchSaved, h.wf.ring, h.wf.killLen_le⟩, rfl, by simp, ?_, by simp [hactive]⟩
      rintro b u ⟨⟩
      exact ⟨hcount, ht⟩

private theorem inv_historyDown {w : Watched ω} (h : Inv w) (hactive : w.shell.search.active = false) {s : ShellState ω}
    (hs : w.shell.historyDown = some s) (origin : Bytes) :
    Inv ⟨s, browseAfter w.shell w.browse .arrowDown, origin⟩ := by
  rw [historyDown] at hs
  cases hb : w.browse with
  | none =>
    have hidx := h.histIdx_of_none hb
    rw [hidx] at hs
    cases hs
    simpa [browseAfter, hactive, hb] using h.of_frame h.wf (Frame.refl _) origin (by simp [hactive])
  | some p =>
    obtain ⟨a, t⟩ := p
    have hidx := h.histIdx_of_some hb
    obtain ⟨hlt, ht⟩ := h.draft a t hb
    rw [hidx] at hs
    cases a with
    | zero =>
      obtain ⟨e, hload, hwf, -⟩ := h.wf.editor.load_asBytes h.wf.saved
      simp only [hload] at hs
      cases hs
      have hbrowse : browseAfter w.shell (some (0, t)) .arrowDown = none := by simp [browseAfter, hactive]
      rw [hbrowse]
      refine inv_of_idle ?_ rfl (asBytes_clear _) ?_ origin
      · exact ⟨hwf, h.wf.saved.clear, h.wf.searchSaved, h.wf.ring, h.wf.killLen_le⟩
      · exact hactive
    | succ a =>
      obtain ⟨entry, hentry⟩ := Option.isSome_iff_exists.1 (get_isSome.2 (Nat.lt_of_succ_lt hlt))
      obtain ⟨e, hload, hwf, -⟩ := h.wf.load entry
      simp only [hentry, hload] at hs
      cases hs
      have hbrowse : browseAfter w.shell (some (a + 1, t)) .arrowDown = some (a, t) := by simp [browseAfter, hactive]
      rw [hbrowse]
      refine ⟨⟨hwf.editor, h.wf.saved, h.wf.searchSaved, h.wf.ring, h.wf.killLen_le⟩, rfl, by simp, ?_, by simp [hactive]⟩
      rintro b u ⟨⟩
      exact ⟨Nat.lt_of_succ_lt hlt, ht⟩

/-- A key of the editor, when the search is not active. -/
private theorem inv_key {d : Dispatcher ω} {complete : ω → Bytes → Bytes → ω × Bytes} {w : Watched ω} (h : Inv w)
    (hactive : w.shell.search.active = false) {key : Key} {s : ShellState ω}
    (hs : w.shell.handleKey d complete key = some s) (origin : Bytes)
    (ho : key = .ctrlR → origin = w.shell.editor.asBytes) : Inv ⟨s, browseAfter w.shell w.browse key, origin⟩ := by
  have hoff : ¬w.shell.search.active = true := by simp [hactive]
  by_cases hkey : editKey key = true
  · obtain ⟨hwf, hframe⟩ := editKey_frame h.wf hactive hkey hs
    have hbrowse : browseAfter w.shell w.browse key = w.browse := by
      cases key <;> simp_all [browseAfter, editKey]
    rw [hbrowse]
    exact h.of_frame hwf hframe origin (by simp [hactive])
  unfold handleKey at hs
  rw [if_neg hoff] at hs
  cases key with
  | enter =>
    simp only at hs
    by_cases hempty : w.shell.editor.len = 0
    · rw [if_pos hempty] at hs
      cases hs
      have hbrowse : browseAfter w.shell w.browse .enter = w.browse := by simp [browseAfter, hempty, hactive]
      rw [hbrowse]
      exact h.of_frame h.wf (Frame.refl _) origin (by simp [hactive])
    · rw [if_neg hempty] at hs
      obtain ⟨ctx, -, rfl⟩ := Option.map_eq_some_iff.1 hs
      have hbrowse : browseAfter w.shell w.browse .enter = none := by simp [browseAfter, hempty]
      rw [hbrowse]
      exact h.wf.cleared_inv hactive origin
  | ctrlC =>
    cases hs
    have hbrowse : browseAfter w.shell w.browse .ctrlC = none := by simp [browseAfter, hactive]
    rw [hbrowse]
    exact h.wf.cleared_inv hactive origin
  | ctrlR =>
    obtain ⟨e, hload, hwf, htext⟩ := h.wf.searchSaved.load_asBytes h.wf.editor
    simp only [hload] at hs
    cases hs
    have hbrowse : browseAfter w.shell w.browse .ctrlR = w.browse := by simp [browseAfter, hactive]
    rw [hbrowse]
    exact ⟨⟨h.wf.editor.clear, h.wf.saved, hwf, h.wf.ring, h.wf.killLen_le⟩, h.histIdx, h.idle, h.draft,
      fun _ => htext.trans (ho rfl).symm⟩
  | char b =>
    have hbrowse : browseAfter w.shell w.browse (.char b) = none := by simp [browseAfter, hactive]
    rw [hbrowse]
    simp only at hs
    by_cases hidx : w.shell.histIdx.isSome = true
    · -- the line of the history becomes the line that is edited
      rw [if_pos hidx] at hs
      have hwf : Wf { w.shell with histIdx := none, saved := w.shell.saved.clear } :=
        ⟨h.wf.editor, h.wf.saved.clear, h.wf.searchSaved, h.wf.ring, h.wf.killLen_le⟩
      obtain ⟨hswf, hframe⟩ := edit_frame hwf hs
      have hoff' : s.search.active = false := by
        rw [← Bool.not_eq_true]
        exact fun hon => hoff (hframe.active hon)
      exact inv_of_idle hswf hframe.histIdx (by rw [hframe.saved]; exact asBytes_clear _) hoff' origin
    · rw [if_neg hidx] at hs
      obtain ⟨hswf, hframe⟩ := edit_frame h.wf hs
      have hnone : w.shell.histIdx = none := by simpa using hidx
      have hinv := h.of_frame hswf hframe origin (by simp [hactive])
      rwa [h.browse_of_none hnone] at hinv
  | arrowUp => exact inv_historyUp h hactive hs origin
  | ctrlP => exact inv_historyUp h hactive hs origin
  | arrowDown => exact inv_historyDown h hactive hs origin
  | ctrlN => exact inv_historyDown h hactive hs origin
  | _ => exact absurd rfl hkey

/-- A key keeps the browsing in order, unless it submits a line from the search while the history is browsed. -/
theorem Inv.step {d : Dispatcher ω} {complete : ω → Bytes → Bytes → ω × Bytes} {w w' : Watched ω} (h : Inv w) {key : Key}
    (hkey : w.shell.search.active = true → Submits w.shell key → w.shell.histIdx = none)
    (hs : w.step d complete key = some w') : Inv w' := by
  obtain ⟨s, hstep, rfl⟩ := Option.map_eq_some_iff.1 hs
  by_cases hactive : w.shell.search.active = true
  · have horigin : (if key = .ctrlR ∧ w.shell.search.active = false then w.shell.editor.asBytes else w.origin) = w.origin := by
      simp [hactive]
    rw [horigin]
    unfold handleKey at hstep
    rw [if_pos hactive] at hstep
    by_cases hsub : Submits w.shell key
    · have hidx := hkey hactive hsub
      have hb := h.browse_of_none hidx
      have hbrowse : browseAfter w.shell w.browse key = none := by
        unfold browseAfter
        rw [if_pos (show key = .enter ∧ w.shell.editor.len ≠ 0 from hsub)]
      obtain ⟨rfl, hne⟩ := hsub
      simp only [handleSearchKey, if_neg hne] at hstep
      obtain ⟨ctx, -, rfl⟩ := Option.map_eq_some_iff.1 hstep
      rw [hbrowse]
      refine inv_of_idle ?_ ?_ ?_ ?_ w.origin
      · exact ⟨h.wf.editor.clear, h.wf.saved, h.wf.searchSaved, h.wf.ring, h.wf.killLen_le⟩
      · exact hidx
      · exact h.idle hb
      · rfl
    · have hbrowse : browseAfter w.shell w.browse key = w.browse := by
        unfold browseAfter
        rw [if_neg (show ¬(key = .enter ∧ w.shell.editor.len ≠ 0) from hsub), if_pos hactive]
      have hkeyStep := handleSearchKey_step h.wf hsub hstep
      rw [hbrowse]
      exact h.of_frame hkeyStep.wf hkeyStep.frame w.origin fun _ => rfl
  · rw [Bool.not_eq_true] at hactive
    exact inv_key h hactive hstep _ fun heq => by simp [heq, hactive]

/-- Down leads from a line of the history to the line that was kept. -/
private theorem downs_eq (d : Dispatcher ω) (complete : ω → Bytes → Bytes → ω × Bytes) {a : Nat} {s : ShellState ω}
    (h : s.Wf) (hactive : s.search.active = false) (hidx : s.histIdx = some a) (hlt : a < s.ctx.history.count) :
    ∃ t, s.handleKeys d complete (List.replicate (a + 1) .arrowDown) = some t ∧ t.editor.asBytes = s.saved.asBytes := by
  have hdown : s.handleKey d complete .arrowDown = s.historyDown := by
    unfold handleKey
    rw [if_neg (by simp [hactive])]
  induction a generalizing s with
  | zero =>
    obtain ⟨e, hload, hwf, htext⟩ := h.editor.load_asBytes h.saved
    refine ⟨{ s with editor := e, saved := s.saved.clear, histIdx := none }, ?_, htext⟩
    simp [handleKeys, hdown, historyDown, hidx, hload]
  | succ a ih =>
    obtain ⟨entry, hentry⟩ := Option.isSome_iff_exists.1 (get_isSome.2 (Nat.lt_of_succ_lt hlt))
    obtain ⟨e, hload, hwf, -⟩ := h.load entry
    obtain ⟨t, hrest, htext⟩ := ih (s := { s with editor := e, histIdx := some a })
      ⟨hwf.editor, h.saved, h.searchSaved, h.ring, h.killLen_le⟩ hactive rfl (Nat.lt_of_succ_lt hlt) (by
        unfold handleKey
        rw [if_neg (by simp [hactive])])
    refine ⟨t, ?_, htext⟩
    rw [handleKeys, List.replicate_succ, List.foldlM_cons, hdown, historyDown, hidx]
    simp only [hentry, hload]
    exact hrest

theorem Inv.consistent {d : Dispatcher ω} {complete : ω → Bytes → Bytes → ω × Bytes} {w : Watched ω} (h : Inv w) :
    Consistent d complete w := by
  refine ⟨h.histIdx, fun a t hb => ?_⟩
  obtain ⟨hlt, ht⟩ := h.draft a t hb
  have hidx := h.histIdx_of_some hb
  refine ⟨get_isSome.2 hlt, ?_⟩
  cases hactive : w.shell.search.active with
  | false =>
    obtain ⟨s, hs, htext⟩ := downs_eq d complete h.wf hactive hidx hlt
    exact ⟨s, by simpa using hs, htext.trans ht⟩
  | true =>
    -- the first Down leaves the search
    have hleave : w.shell.handleKey d complete .arrowDown = some { w.shell with search := w.shell.search.reset } := by
      unfold handleKey
      rw [if_pos hactive]
      rfl
    obtain ⟨s, hs, htext⟩ := downs_eq d complete (s := { w.shell with search := w.shell.search.reset })
      ⟨h.wf.editor, h.wf.saved, h.wf.searchSaved, h.wf.ring, h.wf.killLen_le⟩ rfl hidx hlt
    refine ⟨s, ?_, htext.trans ht⟩
    rw [if_pos rfl, Nat.add_comm, List.replicate_succ, handleKeys, List.foldlM_cons, hleave]
    exact hs

/-! ### Submitting a line from the search -/

/-- Characters typed on a fresh prompt. -/
private theorem type_chars (d : Dispatcher ω) (complete : ω → Bytes → Bytes → ω × Bytes) (line : Bytes) {s : ShellState ω}
    (h : s.Wf) (hactive : s.search.active = false) (hidx : s.histIdx = none) (typed : Bytes)
    (hz : s.editor.zipper = ⟨typed, []⟩) (hlen : typed.length + line.length ≤ lineMax - 1) :
    ∃ e ring, s.handleKeys d complete (line.map .char) = some { s with editor := e, killRing := ring } ∧ e.Wf ∧
      e.zipper = ⟨typed ++ line, []⟩ := by
  induction line generalizing s typed with
  | nil => exact ⟨s.editor, s.killRing, rfl, h.editor, by rw [hz, List.append_nil]⟩
  | cons b line ih =>
    rw [List.length_cons] at hlen
    obtain ⟨e, ring, hedit, hwf, hring, hz'⟩ := edit_eq h (.insert b)
    have hroom : s.editor.zipper.text.length < lineMax - 1 := by
      rw [hz, Zipper.text, List.append_nil]
      simp only
      omega
    have hkey : s.handleKey d complete (.char b) = some { s with editor := e, killRing := ring } := by
      unfold handleKey
      have hnot : ¬s.histIdx.isSome = true := by simp [hidx]
      rw [if_neg (by simp [hactive])]
      simp only [if_neg hnot]
      exact hedit
    have hz'' : e.zipper = ⟨typed ++ [b], []⟩ := by
      rw [hz', EditorOp.onZipper, if_pos hroom, hz]
    obtain ⟨e', ring', hrest, hwf', hzrest⟩ := ih (s := { s with editor := e, killRing := ring })
      ⟨hwf, h.saved, h.searchSaved, hring, h.killLen_le⟩ hactive hidx (typed ++ [b]) hz'' (by
        rw [List.length_append, List.length_singleton]
        omega)
    refine ⟨e', ring', ?_, hwf', by rw [hzrest, List.append_assoc]; rfl⟩
    rw [handleKeys, List.map_cons, List.foldlM_cons, hkey]
    exact hrest

/-- Typing a line on a fresh prompt and pressing Enter. -/
private theorem fresh_enter {d : Dispatcher ω} (complete : ω → Bytes → Bytes → ω × Bytes) {s : ShellState ω} (h : s.Wf)
    {line : Bytes} (hne : line ≠ []) (hlen : line.length ≤ lineMax - 1) {ctx : Ctx ω}
    (henter : enter d s.ctx line = some ctx) :
    ∃ t, s.fresh.handleKeys d complete (line.map .char ++ [.enter]) = some t ∧ t.editor.zipper = ⟨[], []⟩ ∧
      t.ctx = ctx ∧ t.histIdx = none ∧ t.saved.asBytes = [] := by
  obtain ⟨e, ring, hkeys, hwf, hz⟩ := type_chars d complete line (s := s.fresh)
    ⟨LineEditor.new_wf, LineEditor.new_wf, LineEditor.new_wf, h.ring, h.killLen_le⟩ rfl rfl [] rfl (by simpa using hlen)
  have htext : e.asBytes = line := by
    rw [hwf.asBytes_eq, hz, Zipper.text, List.nil_append, List.append_nil]
  have hlen' : e.len ≠ 0 := by
    rw [← hwf.length_asBytes, htext]
    exact fun h0 => hne (List.length_eq_zero_iff.1 h0)
  refine ⟨{ s.fresh with
      editor := e.clear, killRing := ring, ctx := ctx, saved := LineEditor.new.clear, histIdx := none }, ?_, rfl, rfl, rfl,
    rfl⟩
  rw [handleKeys] at hkeys ⊢
  rw [List.foldlM_append, hkeys]
  simp only [Option.bind_eq_bind, Option.bind_some, List.foldlM_cons, List.foldlM_nil]
  unfold handleKey
  rw [if_neg (by simp [fresh, SearchState.new])]
  simp only [if_neg hlen', htext, fresh, henter]
  rfl

/-- Submitting a line from the search does what it does on a fresh prompt exactly if the history is not browsed. -/
private theorem submit_iff {d : Dispatcher ω} {complete : ω → Bytes → Bytes → ω × Bytes} {w w' : Watched ω} (h : Inv w)
    (hactive : w.shell.search.active = true) {key : Key} (hsub : Submits w.shell key)
    (hs : w.step d complete key = some w') :
    (∃ t, w.shell.fresh.handleKeys d complete (w.shell.editor.asBytes.map .char ++ [.enter]) = some t ∧
      w'.shell.Agree t) ↔ w.shell.histIdx = none := by
  obtain ⟨s, hstep, rfl⟩ := Option.map_eq_some_iff.1 hs
  obtain ⟨rfl, hne⟩ := hsub
  unfold handleKey at hstep
  rw [if_pos hactive] at hstep
  simp only [handleSearchKey, if_neg hne] at hstep
  obtain ⟨ctx, henter, rfl⟩ := Option.map_eq_some_iff.1 hstep
  have hlen := h.wf.editor.length_asBytes
  obtain ⟨t, hkeys, hz, hctx, hidx, hsaved⟩ := fresh_enter complete h.wf
    (fun hnil => hne (by rw [← hlen, hnil]; rfl)) (hlen ▸ h.wf.editor.len_le) henter
  constructor
  · rintro ⟨t', hkeys', -, -, hidx', -⟩
    rw [hkeys] at hkeys'
    cases hkeys'
    exact hidx'.trans hidx
  · intro hnone
    have hidle := h.idle (h.browse_of_none hnone)
    exact ⟨t, hkeys, by rw [hz]; rfl, hctx.symm, hnone.trans hidx.symm, hidle.trans hsaved.symm⟩

/-! ### Every key -/

private theorem good_iff {d : Dispatcher ω} {complete : ω → Bytes → Bytes → ω × Bytes} {w w' : Watched ω} (h : Inv w)
    {key : Key} (hs : w.step d complete key = some w') : Good d complete w key w' ↔ Meets w.shell key := by
  have hstep : w.shell.search.active = true → ¬Submits w.shell key → SearchStep w.shell key w'.shell := by
    intro hactive hsub
    obtain ⟨s, hkey, rfl⟩ := Option.map_eq_some_iff.1 hs
    unfold handleKey at hkey
    rw [if_pos hactive] at hkey
    exact handleSearchKey_step h.wf hsub hkey
  constructor
  · rintro ⟨hsubmit, hleave, -⟩ hactive
    refine ⟨fun hsub => (submit_iff h hactive hsub hs).1 (hsubmit hactive hsub), fun hkey => ?_⟩
    have hne : key ≠ .enter := by
      rintro rfl
      cases hkey
    obtain ⟨hoff, heditor⟩ := (hstep hactive fun hsub => hne hsub.1).leaves hkey
    rw [h.origin hactive, ← hleave hactive hoff hne, heditor]
  · intro hmeets
    refine ⟨fun hactive hsub => (submit_iff h hactive hsub hs).2 ((hmeets hactive).1 hsub), fun hactive hoff hne => ?_,
      (h.step (fun hactive => (hmeets hactive).1) hs).consistent⟩
    have hkey := hstep hactive fun hsub => hne hsub.1
    by_cases hsearch : searchKey key = false
    · rw [(hkey.leaves hsearch).2, (hmeets hactive).2 hsearch, h.origin hactive]
    · by_cases hcancel : key = .ctrlC
      · rw [hkey.cancels hcancel, h.origin hactive]
      · have hon := hkey.stays (by simpa using hsearch) hne hcancel
        rw [hoff, hactive] at hon
        cases hon

/-- In every sequence of keys typed on a shell that has just started, the search is transparent and the browsing consistent
exactly if no line is submitted from the search while the history is browsed, and the search is left by another key than
Enter and Ctrl+C only where it shows the line from before. -/
theorem search_transparent_iff (d : Dispatcher ω) (complete : ω → Bytes → Bytes → ω × Bytes) (pid : Nat) (world : ω)
    (keys : List Key) :
    AllGood d complete ⟨start pid world, none, []⟩ keys ↔ AllMeet d complete (start pid world) keys := by
  have hall : ∀ (keys : List Key) (w : Watched ω), Inv w → (AllGood d complete w keys ↔ AllMeet d complete w.shell keys) := by
    intro keys
    induction keys with
    | nil => exact fun _ _ => Iff.rfl
    | cons key keys ih =>
      intro w h
      constructor
      · intro hgood s hs
        have hstep : w.step d complete key = some _ := congrArg (Option.map _) hs
        obtain ⟨hkey, hrest⟩ := hgood _ hstep
        have hmeets := (good_iff h hstep).1 hkey
        exact ⟨hmeets, (ih _ (h.step (fun hactive => (hmeets hactive).1) hstep)).1 hrest⟩
      · intro hmeet w' hstep
        obtain ⟨s, hs, rfl⟩ := Option.map_eq_some_iff.1 hstep
        obtain ⟨hmeets, hrest⟩ := hmeet s hs
        exact ⟨(good_iff h hstep).2 hmeets, (ih _ (h.step (fun hactive => (hmeets hactive).1) hstep)).2 hrest⟩
  exact hall keys _ (start_inv pid world)

/-- A shell on which every command returns 0 and Tab inserts nothing, after a sequence of keys. -/
private def typedOn (keys : List Key) : Option (Watched Unit) :=
  keys.foldlM (fun w key => w.step (fun ctx _ => some (ctx, .cont, 0)) (fun world _ _ => (world, [])) key)
    ⟨start 1 (), none, []⟩

/-- A line is submitted from the search after Up, and the shell still browses the history; and a line of which `x` has been
typed is gone when the search is left with an arrow key. -/
theorem search_not_transparent :
    ((typedOn [.char 0x6C, .enter, .arrowUp, .ctrlR, .char 0x6C, .enter]).map fun w => (w.shell.histIdx, w.browse)) =
        some (some 0, none) ∧
      ((typedOn [.char 0x78, .ctrlR, .arrowLeft]).map fun w => (w.shell.editor.asBytes, w.origin)) =
        some ([], [0x78]) := by
  decide +kernel

end ShellState

end Rost.Shell
