import Mathlib.Algebra.Order.Ring.Nat
import Mathlib.Tactic.Common
import Mathlib.Data.ENat.Basic
import Mathlib.Logic.Relation

/-!
# Calls

A computation that calls a procedure either returns, or makes a call and goes on with what the call returns; the body of
the procedure is such a computation again.  With at most `n` calls open it is a function (`within`), and a machine that
keeps what is left to do after each open call takes it step by step (`Step`).  A computation returns exactly if no more
calls are ever open than it is allowed (`returns_iff_height`), and exactly if the calls have levels that go down from each
call to those its body makes (`returns_iff_level`).
-/

namespace Rost.Lib

open Relation (ReflTransGen)

/-- A computation that makes calls with an argument in `α`, which return a value in `β`, and returns such a value. -/
inductive Calling (α β : Type) where
  | ret (b : β)
  | call (a : α) (k : β → Calling α β)

namespace Calling

variable {α β : Type}

def bind : Calling α β → (β → Calling α β) → Calling α β
  | ret b, f => f b
  | call a k, f => call a fun b => (k b).bind f

/-- The computation with its calls answered, where `none` is a call that does not return. -/
def run (answer : α → Option β) : Calling α β → Option β
  | ret b => some b
  | call a k => (answer a).bind fun b => (k b).run answer

theorem run_call (answer : α → Option β) (a : α) (k : β → Calling α β) :
    (call a k).run answer = (answer a).bind fun b => (k b).run answer := rfl

theorem run_bind (answer : α → Option β) (t : Calling α β) (f : β → Calling α β) :
    (t.bind f).run answer = (t.run answer).bind fun b => (f b).run answer := by
  induction t with
  | ret b => rfl
  | call a k ih =>
    unfold bind
    rw [run_call, run_call, Option.bind_assoc]
    exact congrArg _ (funext ih)

/-- The procedure, when at most `n` calls may be open, this one among them. -/
def within (body : α → Calling α β) : Nat → α → Option β
  | 0, _ => none
  | n + 1, a => (body a).run (within body n)

/-- What is being computed, and what is left to do after each open call. -/
abbrev State (α β : Type) := Calling α β × List (β → Calling α β)

inductive Step (body : α → Calling α β) : State α β → State α β → Prop
  | enter (a : α) (k : β → Calling α β) (ks : List (β → Calling α β)) : Step body (call a k, ks) (body a, k :: ks)
  | leave (b : β) (k : β → Calling α β) (ks : List (β → Calling α β)) : Step body (ret b, k :: ks) (k b, ks)

/-- The computation comes to call `a` itself, with no other call open. -/
def Meets (body : α → Calling α β) (t : Calling α β) (a : α) : Prop :=
  ∃ k, ReflTransGen (Step body) (t, []) (call a k, [])

variable {body : α → Calling α β} {t u : Calling α β} {k : β → Calling α β} {ks us : List (β → Calling α β)} {a a' : α}
  {b : β} {s : State α β}

/-! ### Steps -/

theorem reaches_call (h : ReflTransGen (Step body) (call a k, ks) s) :
    s = (call a k, ks) ∨ ReflTransGen (Step body) (body a, k :: ks) s := by
  rcases ReflTransGen.cases_head h with heq | ⟨mid, hstep, hrest⟩
  · exact Or.inl heq.symm
  · cases hstep
    exact Or.inr hrest

theorem reaches_leave (h : ReflTransGen (Step body) (ret b, k :: ks) s) :
    s = (ret b, k :: ks) ∨ ReflTransGen (Step body) (k b, ks) s := by
  rcases ReflTransGen.cases_head h with heq | ⟨mid, hstep, hrest⟩
  · exact Or.inl heq.symm
  · cases hstep
    exact Or.inr hrest

theorem reaches_ret (h : ReflTransGen (Step body) (ret b, []) s) : s = (ret b, []) := by
  rcases ReflTransGen.cases_head h with heq | ⟨mid, hstep, -⟩
  · exact heq.symm
  · cases hstep

/-- The machine comes to what a computation returns. -/
theorem reaches_of_run {n : Nat} (h : t.run (within body n) = some b) (ks : List (β → Calling α β)) :
    ReflTransGen (Step body) (t, ks) (ret b, ks) := by
  induction n generalizing t ks b with
  | zero =>
    cases t with
    | ret c =>
      cases h
      exact .refl
    | call a k => cases h
  | succ n ih =>
    induction t generalizing ks b with
    | ret c =>
      cases h
      exact .refl
    | call a k iht =>
      obtain ⟨c, hc, hrest⟩ := Option.bind_eq_some_iff.1 h
      have henter := ReflTransGen.head (Step.enter a k ks) (ih hc (k :: ks))
      exact (henter.tail (Step.leave c k ks)).trans (iht c hrest ks)

/-- Up to what a computation returns, the calls open before it stay open, and at most `n` more are. -/
theorem reaches_cases {n : Nat} (h : t.run (within body n) = some b)
    (hreach : ReflTransGen (Step body) (t, ks) s) :
    (ks.length ≤ s.2.length ∧ s.2.length ≤ ks.length + n) ∨ ReflTransGen (Step body) (ret b, ks) s := by
  induction n generalizing t ks b with
  | zero =>
    cases t with
    | ret c =>
      cases h
      exact Or.inr hreach
    | call a k => cases h
  | succ n ih =>
    induction t generalizing ks b with
    | ret c =>
      cases h
      exact Or.inr hreach
    | call a k iht =>
      obtain ⟨c, hc, hrest⟩ := Option.bind_eq_some_iff.1 h
      rcases reaches_call hreach with rfl | hreach
      · exact Or.inl ⟨Nat.le_refl _, Nat.le_add_right _ _⟩
      -- the body runs above the stack that the call has pushed
      rcases ih hc hreach with ⟨hlow, hhigh⟩ | hreach
      · rw [List.length_cons] at hlow hhigh
        exact Or.inl ⟨by omega, by omega⟩
      rcases reaches_leave hreach with rfl | hreach
      · dsimp only
        rw [List.length_cons]
        exact Or.inl ⟨by omega, by omega⟩
      exact iht c hrest hreach

/-- A computation that does not return comes to have too many calls open. -/
theorem exists_reaches_of_run_none {n : Nat} (h : t.run (within body n) = none) (ks : List (β → Calling α β)) :
    ∃ s, ReflTransGen (Step body) (t, ks) s ∧ ks.length + n < s.2.length := by
  induction n generalizing t ks with
  | zero =>
    cases t with
    | ret b => cases h
    | call a k => exact ⟨_, .single (Step.enter a k ks), by simp⟩
  | succ n ih =>
    induction t generalizing ks with
    | ret b => cases h
    | call a k iht =>
      rw [run_call] at h
      cases hcall : within body (n + 1) a with
      | none =>
        -- the body starts with one call more open, and one fewer allowed
        obtain ⟨s, hs, hlong⟩ := ih hcall (k :: ks)
        rw [List.length_cons] at hlong
        exact ⟨s, .head (Step.enter a k ks) hs, by omega⟩
      | some c =>
        rw [hcall] at h
        obtain ⟨s, hs, hlong⟩ := iht c h ks
        have hback := ReflTransGen.head (Step.enter a k ks) (reaches_of_run (n := n) hcall (k :: ks))
        exact ⟨s, (hback.tail (Step.leave c k ks)).trans hs, hlong⟩

/-- A computation returns exactly if at most `n` calls are ever open. -/
theorem returns_iff_height (t : Calling α β) (n : Nat) :
    (∃ b, t.run (within body n) = some b) ↔ ∀ s, ReflTransGen (Step body) (t, []) s → s.2.length ≤ n := by
  constructor
  · rintro ⟨b, hb⟩ s hs
    rcases reaches_cases hb hs with ⟨-, hhigh⟩ | hend
    · rwa [List.length_nil, Nat.zero_add] at hhigh
    · rw [reaches_ret hend]
      exact Nat.zero_le n
  · intro h
    cases hrun : t.run (within body n) with
    | some b => exact ⟨b, rfl⟩
    | none =>
      obtain ⟨s, hs, hlong⟩ := exists_reaches_of_run_none hrun []
      rw [List.length_nil, Nat.zero_add] at hlong
      exact absurd (h s hs) (Nat.not_le.2 hlong)

/-! ### The calls that a computation makes -/

theorem not_meets_ret : ¬ Meets body (ret b) a := by
  rintro ⟨k, hk⟩
  cases reaches_ret hk

theorem meets_call (k : β → Calling α β) : Meets body (call a k) a := ⟨k, .refl⟩

/-- After a call that returns come those that are made with what it returns. -/
theorem meets_call_iff {n : Nat} (h : within body n a = some b) :
    Meets body (call a k) a' ↔ a' = a ∨ Meets body (k b) a' := by
  cases n with
  | zero => cases h
  | succ n =>
    constructor
    · rintro ⟨k', hk'⟩
      rcases reaches_call hk' with heq | hreach
      · cases heq
        exact Or.inl rfl
      -- while the call is open, it is no call of the computation itself
      rcases reaches_cases (n := n) h hreach with ⟨hlow, -⟩ | hreach
      · exact absurd hlow (Nat.not_succ_le_zero _)
      rcases reaches_leave hreach with heq | hreach
      · cases heq
      exact Or.inr ⟨k', hreach⟩
    · rintro (rfl | ⟨k', hk'⟩)
      · exact meets_call k
      · have henter := ReflTransGen.head (Step.enter a k []) (reaches_of_run (n := n) h [k])
        exact ⟨k', (henter.tail (Step.leave b k [])).trans hk'⟩

/-- A computation returns exactly if each call that it comes to does. -/
theorem returns_iff_calls (t : Calling α β) (n : Nat) :
    (∃ b, t.run (within body n) = some b) ↔ ∀ a, Meets body t a → ∃ b, within body n a = some b := by
  induction t with
  | ret b => exact ⟨fun _ a ha => absurd ha not_meets_ret, fun _ => ⟨b, rfl⟩⟩
  | call a k ih =>
    rw [run_call]
    constructor
    · rintro ⟨b, hb⟩ a' ha'
      obtain ⟨c, hc, hrest⟩ := Option.bind_eq_some_iff.1 hb
      rcases (meets_call_iff hc).1 ha' with rfl | hlater
      · exact ⟨c, hc⟩
      · exact (ih c).1 ⟨b, hrest⟩ a' hlater
    · intro h
      obtain ⟨c, hc⟩ := h a (meets_call k)
      obtain ⟨b, hb⟩ := (ih c).2 fun a' ha' => h a' ((meets_call_iff hc).2 (Or.inr ha'))
      exact ⟨b, Option.bind_eq_some_iff.2 ⟨c, hc, hb⟩⟩

/-! ### Levels -/

/-- The level of a call goes down to those that its body makes; at level `⊤` it need not. -/
def Descends (body : α → Calling α β) (level : α → ℕ∞) : Prop :=
  ∀ a a', Meets body (body a) a' → level a' + 1 ≤ level a

theorem within_of_descends {level : α → ℕ∞} (hlevel : Descends body level) {n : Nat} (h : level a + 1 ≤ n) :
    ∃ b, within body n a = some b := by
  induction n generalizing a with
  | zero => simp at h
  | succ n ih =>
    have hle : level a ≤ n := by
      rw [Nat.cast_succ] at h
      exact (ENat.add_le_add_iff_right ENat.one_ne_top).1 h
    exact (returns_iff_calls (body a) n).2 fun a' ha' => ih ((hlevel a a' ha').trans hle)

open Classical in
/-- The least level that a call can have. -/
noncomputable def leastLevel (body : α → Calling α β) (a : α) : ℕ∞ :=
  if h : ∃ n, ∃ b, within body (n + 1) a = some b then (Nat.find h : ℕ∞) else ⊤

theorem leastLevel_of_within {n : Nat} (h : within body n a = some b) : leastLevel body a + 1 ≤ n := by
  cases n with
  | zero => cases h
  | succ n =>
    have hex : ∃ n, ∃ b, within body (n + 1) a = some b := ⟨n, b, h⟩
    unfold leastLevel
    rw [dif_pos hex, Nat.cast_succ]
    classical
    exact add_le_add_left (Nat.cast_le.2 (Nat.find_min' hex ⟨b, h⟩)) 1

theorem descends_leastLevel (body : α → Calling α β) : Descends body (leastLevel body) := by
  classical
  intro a a' ha'
  by_cases hex : ∃ n, ∃ b, within body (n + 1) a = some b
  · -- the body returns at its level, and so do the calls that it comes to
    have hlevel : leastLevel body a = (Nat.find hex : ℕ∞) := dif_pos hex
    obtain ⟨c, hc⟩ := (returns_iff_calls (body a) _).1 (Nat.find_spec hex) a' ha'
    rw [hlevel]
    exact leastLevel_of_within hc
  · have hlevel : leastLevel body a = ⊤ := dif_neg hex
    rw [hlevel]
    exact le_top

/-- A computation returns with calls nested at most `n` deep exactly if the calls have levels, which go down, and its own
are at levels below `n`. -/
theorem returns_iff_level (t : Calling α β) (n : Nat) :
    (∃ b, t.run (within body n) = some b) ↔
      ∃ level, Descends body level ∧ ∀ a, Meets body t a → level a + 1 ≤ n := by
  rw [returns_iff_calls]
  constructor
  · intro h
    refine ⟨leastLevel body, descends_leastLevel body, fun a ha => ?_⟩
    obtain ⟨b, hb⟩ := h a ha
    exact leastLevel_of_within hb
  · rintro ⟨level, hlevel, htop⟩ a ha
    exact within_of_descends hlevel (htop a ha)

/-- A call whose body comes to the same call never returns. -/
theorem within_eq_none_of_meets_self (h : Meets body (body a) a) (n : Nat) : within body n a = none := by
  induction n with
  | zero => rfl
  | succ n ih =>
    cases hrun : within body (n + 1) a with
    | none => rfl
    | some b =>
      obtain ⟨c, hc⟩ := (returns_iff_calls (body a) n).1 ⟨b, hrun⟩ a h
      rw [ih] at hc
      cases hc

end Calling

end Rost.Lib
