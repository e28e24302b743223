import Mathlib.Algebra.Order.Ring.Nat
import Mathlib.Tactic.Common
import Mathlib.Data.List.Basic
import Mathlib.Logic.Relation

/-!
# Parties that exchange messages

An abstract message-passing system: each party has an inbox of bounded length, may be blocked until a deadline, and
remembers the party it last sent to (`waitingFor`).  A message, a notification or the deadline wakes a blocked party.
Parties join under increasing names.

Three facts hold in every reachable state.  A blocked party has an empty inbox (`BlockedEmpty`); when nobody blocks
until a deadline that has passed, no blocked party has one (`Punctual`); and the wait-for links are ordered by the time of the last send (`WaitOrdered`): when `p` waits for `q`, and `q` has not sent since, the
message of `p` is still in the inbox of `q`.  The first and the last make the wait-for graph of the blocked parties
acyclic.
And along every history a party has read and still holds exactly the messages sent to it, in order (`Delivered`).
-/

namespace Rost.Lib

/-- One party of the system. -/
structure Party (M : Type) where
  inbox : List M
  waitingFor : Option Nat
  blocked : Bool
  deadline : Nat

/-- The state of the system: the parties, the next free name, and the clock. -/
structure Mailroom (M : Type) where
  party : Nat → Option (Party M)
  next : Nat
  clock : Nat

/-- What can happen. -/
inductive Action (M : Type) where
  | idle
  | tick (now : Nat)
  | join
  | leave (p : Nat)
  | refuse (p q : Nat)
  | send (p q : Nat) (m : M)
  | receive (p : Nat) (m : M)
  | block (p deadline : Nat)
  | notify (p : Nat)

namespace Party

variable {M : Type}

/-- A party that has just joined; `never` is the deadline that does not come. -/
def fresh (M : Type) (never : Nat) : Party M := ⟨[], none, false, never⟩

/-- Wake a blocked party. -/
def wake (never : Nat) (x : Party M) : Party M :=
  if x.blocked then { x with blocked := false, waitingFor := none, deadline := never } else x

/-- Wake a party whose deadline has come. -/
def expire (never now : Nat) (x : Party M) : Party M := if x.deadline ≤ now then x.wake never else x

/-- A message arrives. -/
def accept (never : Nat) (m : M) (x : Party M) : Party M := ({ x with inbox := x.inbox ++ [m] } : Party M).wake never

@[simp] theorem wake_inbox (never : Nat) (x : Party M) : (x.wake never).inbox = x.inbox := by
  unfold wake; split <;> rfl

@[simp] theorem expire_inbox (never now : Nat) (x : Party M) : (x.expire never now).inbox = x.inbox := by
  unfold expire; split <;> simp

@[simp] theorem accept_inbox (never : Nat) (m : M) (x : Party M) : (x.accept never m).inbox = x.inbox ++ [m] :=
  wake_inbox never _

@[simp] theorem wake_blocked (never : Nat) (x : Party M) : (x.wake never).blocked = false := by
  unfold wake
  split
  · rfl
  · rename_i h; simpa using h

/-- A party that is blocked has a deadline to come; the deadline `never` has not come even when the clock reads
`never`.  A party that is not blocked has no deadline. -/
def Due (never clock : Nat) (x : Party M) : Prop :=
  if x.blocked = true then clock < x.deadline ∨ (clock = never ∧ x.deadline = never) else x.deadline = never

theorem due_wake {never clock : Nat} {x : Party M} (h : x.Due never clock) : (x.wake never).Due never clock := by
  unfold wake
  split
  · exact rfl
  · exact h

theorem due_expire {never clock : Nat} {x : Party M} (h : x.Due never clock) (now : Nat) :
    (x.expire never now).Due never now := by
  unfold expire wake
  by_cases hb : x.blocked = true
  · rw [if_pos hb]
    split
    · exact rfl
    · rename_i hlater
      unfold Due
      rw [if_pos hb]
      exact Or.inl (by omega)
  · rw [if_neg hb, ite_self]
    unfold Due at h ⊢
    rw [if_neg hb] at h ⊢
    exact h

end Party

namespace Mailroom

variable {M : Type}

/-- Change the party `p`, if there is one. -/
def modify (w : Mailroom M) (p : Nat) (f : Party M → Party M) : Mailroom M :=
  { w with party := fun q => if q = p then (w.party q).map f else w.party q }

/-- When an action may happen; `cap` is the capacity of an inbox. -/
def Enabled (cap : Nat) (w : Mailroom M) : Action M → Prop
  | .idle | .tick _ | .leave _ | .notify _ => True
  | .join => w.party w.next = none
  | .refuse _ q => ∃ x, w.party q = some x ∧ x.inbox.length = cap
  | .send _ q _ => ∃ x, w.party q = some x ∧ x.inbox.length < cap
  | .receive p m => ∃ x rest, w.party p = some x ∧ x.inbox = m :: rest
  | .block p _ => ∃ x, w.party p = some x ∧ x.inbox = []

/-- The effect of an action. -/
def act (never : Nat) (w : Mailroom M) : Action M → Mailroom M
  | .idle => w
  | .tick now => { w with party := fun q => (w.party q).map (Party.expire never now), clock := now }
  | .join =>
    { w with party := fun q => if q = w.next then some (Party.fresh M never) else w.party q, next := w.next + 1 }
  | .leave p => { w with party := fun q => if q = p then none else w.party q }
  | .refuse p q => w.modify p fun x => { x with waitingFor := some q }
  | .send p q m => (w.modify p fun x => { x with waitingFor := some q }).modify q (Party.accept never m)
  | .receive p _ => w.modify p fun x => { x with inbox := x.inbox.tail, waitingFor := none }
  | .block p deadline => w.modify p fun x => { x with blocked := true, deadline := deadline }
  | .notify p => w.modify p (Party.wake never)

theorem party_modify (w : Mailroom M) (p : Nat) (f : Party M → Party M) (q : Nat) :
    (w.modify p f).party q = if q = p then (w.party q).map f else w.party q := rfl

/-- Names are not used again. -/
theorem next_le_act (never : Nat) (w : Mailroom M) (a : Action M) : w.next ≤ (w.act never a).next := by
  cases a with
  | join => exact Nat.le_succ _
  | _ => exact Nat.le_refl _

/-- A party stays until it leaves. -/
theorem party_act_ne_none (never : Nat) {w : Mailroom M} {a : Action M} {q : Nat} (hq : w.party q ≠ none)
    (ha : a ≠ .leave q) : (w.act never a).party q ≠ none := by
  have hmodify : ∀ {v : Mailroom M} (p : Nat) (f : Party M → Party M), v.party q ≠ none →
      (v.modify p f).party q ≠ none := by
    intro v p f hv
    rw [party_modify]
    split
    · exact fun h => hv (Option.map_eq_none_iff.1 h)
    · exact hv
  cases a with
  | idle => exact hq
  | tick now => exact fun h => hq (Option.map_eq_none_iff.1 h)
  | join =>
    simp only [act]
    split
    · exact Option.some_ne_none _
    · exact hq
  | leave p =>
    simp only [act]
    rw [if_neg fun e => ha (by rw [e])]
    exact hq
  | refuse p _ => exact hmodify p _ hq
  | send p r m => exact hmodify r _ (hmodify p _ hq)
  | receive p _ => exact hmodify p _ hq
  | block p _ => exact hmodify p _ hq
  | notify p => exact hmodify p _ hq

/-- Only a tick sets the clock. -/
theorem clock_act (never : Nat) (w : Mailroom M) {a : Action M} (h : ∀ now, a ≠ .tick now) :
    (w.act never a).clock = w.clock := by
  cases a with
  | tick now => exact absurd rfl (h now)
  | _ => rfl

/-- Only a block makes a party blocked. -/
theorem blocked_act {never : Nat} {w : Mailroom M} {a : Action M} {q : Nat} {y : Party M}
    (hy : (w.act never a).party q = some y) (hb : y.blocked = true) :
    (∃ x, w.party q = some x ∧ x.blocked = true) ∨ ∃ d, a = .block q d := by
  have hmodify : ∀ {v : Mailroom M} {p : Nat} {f : Party M → Party M} {z : Party M},
      (v.modify p f).party q = some z → z.blocked = true → (∀ x : Party M, (f x).blocked = true → x.blocked = true) →
        ∃ x, v.party q = some x ∧ x.blocked = true := by
    intro v p f z hz hzb hf
    rw [party_modify] at hz
    split at hz
    · obtain ⟨x, hx, rfl⟩ := Option.map_eq_some_iff.1 hz
      exact ⟨x, hx, hf x hzb⟩
    · exact ⟨z, hz, hzb⟩
  have hwake : ∀ x : Party M, (x.wake never).blocked = true → x.blocked = true := by
    intro x hx
    rw [Party.wake_blocked] at hx
    cases hx
  cases a with
  | idle => exact Or.inl ⟨y, hy, hb⟩
  | tick now =>
    obtain ⟨x, hx, rfl⟩ := Option.map_eq_some_iff.1 hy
    unfold Party.expire at hb
    split at hb
    · exact Or.inl ⟨x, hx, hwake x hb⟩
    · exact Or.inl ⟨x, hx, hb⟩
  | join =>
    simp only [act] at hy
    split at hy
    · rw [← Option.some.inj hy] at hb; cases hb
    · exact Or.inl ⟨y, hy, hb⟩
  | leave p =>
    simp only [act] at hy
    split at hy
    · cases hy
    · exact Or.inl ⟨y, hy, hb⟩
  | refuse p r => exact Or.inl (hmodify hy hb fun _ h => h)
  | send p r m =>
    obtain ⟨x, hx, hxb⟩ := hmodify hy hb fun x h => by rw [Party.accept, Party.wake_blocked] at h; cases h
    exact Or.inl (hmodify hx hxb fun _ h => h)
  | receive p m => exact Or.inl (hmodify hy hb fun _ h => h)
  | block p deadline =>
    simp only [act, party_modify] at hy
    split at hy
    · rename_i hq
      exact Or.inr ⟨deadline, by rw [hq]⟩
    · exact Or.inl ⟨y, hy, hb⟩
  | notify p => exact Or.inl (hmodify hy hb hwake)

/-! ### Blocked parties have nothing to read -/

/-- A blocked party has an empty inbox. -/
def BlockedEmpty (w : Mailroom M) : Prop := ∀ q x, w.party q = some x → x.blocked = true → x.inbox = []

private theorem blockedEmpty_modify {w : Mailroom M} (h : w.BlockedEmpty) (p : Nat) {f : Party M → Party M}
    (hf : ∀ x, w.party p = some x → (x.blocked = true → x.inbox = []) → (f x).blocked = true → (f x).inbox = []) :
    (w.modify p f).BlockedEmpty := by
  intro q y hy hb
  rw [party_modify] at hy
  split at hy
  · rename_i hq
    obtain ⟨x, hx, rfl⟩ := Option.map_eq_some_iff.1 hy
    rw [hq] at hx
    exact hf x hx (h p x hx) hb
  · exact h q y hy hb

theorem blockedEmpty_act {cap never : Nat} {w : Mailroom M} {a : Action M} (h : w.BlockedEmpty)
    (hen : w.Enabled cap a) : (w.act never a).BlockedEmpty := by
  cases a with
  | idle => exact h
  | tick now =>
    intro q y hy hb
    obtain ⟨x, hx, rfl⟩ := Option.map_eq_some_iff.1 hy
    rw [Party.expire_inbox]
    unfold Party.expire at hb
    split at hb
    · rw [Party.wake_blocked] at hb; cases hb
    · exact h q x hx hb
  | join =>
    intro q y hy hb
    simp only [act] at hy
    split at hy
    · rw [← Option.some.inj hy] at hb; cases hb
    · exact h q y hy hb
  | leave p =>
    intro q y hy hb
    simp only [act] at hy
    split at hy
    · cases hy
    · exact h q y hy hb
  | refuse p r => exact blockedEmpty_modify h p (fun x _ hx => hx)
  | send p r m =>
    have hp : (w.modify p fun x => { x with waitingFor := some r }).BlockedEmpty :=
      blockedEmpty_modify h p (fun x _ hx => hx)
    refine blockedEmpty_modify hp r (fun x _ _ hb => ?_)
    unfold Party.accept at hb
    rw [Party.wake_blocked] at hb; cases hb
  | receive p m =>
    refine blockedEmpty_modify h p (fun x _ hx hb => ?_)
    show x.inbox.tail = []
    rw [hx hb]; rfl
  | block p deadline =>
    obtain ⟨y, hy, hempty⟩ := hen
    refine blockedEmpty_modify h p (fun x hx _ _ => ?_)
    rw [hy] at hx
    rw [← Option.some.inj hx]; exact hempty
  | notify p =>
    refine blockedEmpty_modify h p (fun x _ _ hb => ?_)
    rw [Party.wake_blocked] at hb; cases hb

/-! ### Deadlines -/

/-- Every party is due at the current time. -/
def Punctual (never : Nat) (w : Mailroom M) : Prop := ∀ q x, w.party q = some x → x.Due never w.clock

/-- A block is for a deadline to come. -/
def Timely (never : Nat) (w : Mailroom M) : Action M → Prop
  | .block _ deadline => w.clock < deadline ∨ (w.clock = never ∧ deadline = never)
  | _ => True

private theorem punctual_modify {never : Nat} {w : Mailroom M} (h : w.Punctual never) (p : Nat)
    {f : Party M → Party M} (hf : ∀ x, x.Due never w.clock → (f x).Due never w.clock) :
    (w.modify p f).Punctual never := by
  intro q y hy
  rw [party_modify] at hy
  split at hy
  · obtain ⟨x, hx, rfl⟩ := Option.map_eq_some_iff.1 hy
    exact hf x (h q x hx)
  · exact h q y hy

theorem punctual_act {never : Nat} {w : Mailroom M} {a : Action M} (h : w.Punctual never) (ha : w.Timely never a) :
    (w.act never a).Punctual never := by
  cases a with
  | idle => exact h
  | tick now =>
    intro q y hy
    obtain ⟨x, hx, rfl⟩ := Option.map_eq_some_iff.1 hy
    exact Party.due_expire (h q x hx) now
  | join =>
    intro q y hy
    simp only [act] at hy
    split at hy
    · rw [← Option.some.inj hy]
      exact rfl
    · exact h q y hy
  | leave p =>
    intro q y hy
    simp only [act] at hy
    split at hy
    · cases hy
    · exact h q y hy
  | refuse p r => exact punctual_modify h p fun x hx => hx
  | send p r m =>
    have hp : (w.modify p fun x => { x with waitingFor := some r }).Punctual never := punctual_modify h p fun x hx => hx
    exact punctual_modify hp r fun x hx => Party.due_wake hx
  | receive p m => exact punctual_modify h p fun x hx => hx
  | block p deadline =>
    refine punctual_modify h p fun x _ => ?_
    exact ha
  | notify p => exact punctual_modify h p fun x hx => Party.due_wake hx

/-! ### Links are ordered by the time of the last send -/

/-- With `stamp p` the time of the last send of `p`: when `p` waits for `q`, and `q` waits for somebody but has not sent
after `p`, then `q` has something to read. -/
def WaitOrdered (w : Mailroom M) : Prop :=
  ∃ (stamp : Nat → Nat) (now : Nat), (∀ p, stamp p ≤ now) ∧
    ∀ p q x y, w.party p = some x → x.waitingFor = some q → w.party q = some y → y.waitingFor ≠ none →
      stamp q ≤ stamp p → y.inbox ≠ []

/-- The party `y` waits for nobody, or for the same party as `x` and with as much to read. -/
private def Relaxes (x y : Party M) : Prop :=
  y.waitingFor = none ∨ (y.waitingFor = x.waitingFor ∧ (x.inbox ≠ [] → y.inbox ≠ []))

private theorem relaxes_refl (x : Party M) : Relaxes x x := Or.inr ⟨rfl, id⟩

private theorem relaxes_wake (never : Nat) (x : Party M) : Relaxes x (x.wake never) := by
  unfold Party.wake
  split
  · exact Or.inl rfl
  · exact relaxes_refl x

private theorem relaxes_expire (never now : Nat) (x : Party M) : Relaxes x (x.expire never now) := by
  unfold Party.expire
  split
  · exact relaxes_wake never x
  · exact relaxes_refl x

private theorem relaxes_accept (never : Nat) (m : M) (x : Party M) : Relaxes x (x.accept never m) := by
  rcases relaxes_wake never ({ x with inbox := x.inbox ++ [m] } : Party M) with h | ⟨h, -⟩
  · exact Or.inl h
  · exact Or.inr ⟨h, fun _ => by simp⟩

/-- An action without a send keeps the links ordered, with the same stamps. -/
private theorem waitOrdered_of_relaxes {w w' : Mailroom M} (h : w.WaitOrdered)
    (hrel : ∀ q y, w'.party q = some y → y.waitingFor = none ∨ ∃ x, w.party q = some x ∧ Relaxes x y) :
    w'.WaitOrdered := by
  obtain ⟨stamp, now, hnow, hord⟩ := h
  refine ⟨stamp, now, hnow, ?_⟩
  intro p q x' y' hx' hpq hy' hne hle
  rcases hrel p x' hx' with hnone | ⟨x, hx, hnone | ⟨hxw, -⟩⟩
  · rw [hnone] at hpq; cases hpq
  · rw [hnone] at hpq; cases hpq
  rcases hrel q y' hy' with hnone | ⟨y, hy, hnone | ⟨hyw, hin⟩⟩
  · exact absurd hnone hne
  · exact absurd hnone hne
  rw [hxw] at hpq
  rw [hyw] at hne
  exact hin (hord p q x y hx hpq hy hne hle)

/-- A send of `p` to `q` gets the newest stamp: no party has sent after `p`, and `q` has something to read. -/
private theorem waitOrdered_of_send {w w' : Mailroom M} (h : w.WaitOrdered) {p q : Nat}
    (hsrc : ∀ x, w'.party p = some x → x.waitingFor = none ∨ x.waitingFor = some q)
    (hdst : ∀ y, w'.party q = some y → y.inbox ≠ [])
    (hrel : ∀ r, r ≠ p → ∀ y, w'.party r = some y → ∃ x, w.party r = some x ∧ Relaxes x y) :
    w'.WaitOrdered := by
  obtain ⟨stamp, now, hnow, hord⟩ := h
  refine ⟨fun r => if r = p then now + 1 else stamp r, now + 1, ?_, ?_⟩
  · intro r
    by_cases hr : r = p
    · simp [hr]
    · simp only [hr, if_false]
      have := hnow r; omega
  · intro a b x' y' hx' hab hy' hne hle
    by_cases ha : a = p
    · subst ha
      rcases hsrc x' hx' with hnone | hq
      · rw [hnone] at hab; cases hab
      · rw [hq] at hab
        rw [← Option.some.inj hab] at hy'
        exact hdst y' hy'
    · simp only [ha, if_false] at hle
      by_cases hb : b = p
      · -- `p` has just sent, so nobody has sent after it
        simp only [hb, if_true] at hle
        have := hnow a; omega
      · simp only [hb, if_false] at hle
        obtain ⟨x, hx, hnone | ⟨hxw, -⟩⟩ := hrel a ha x' hx'
        · rw [hnone] at hab; cases hab
        obtain ⟨y, hy, hnone | ⟨hyw, hin⟩⟩ := hrel b hb y' hy'
        · exact absurd hnone hne
        rw [hxw] at hab
        rw [hyw] at hne
        exact hin (hord a b x y hx hab hy hne hle)

private theorem waitOrdered_modify {w : Mailroom M} (h : w.WaitOrdered) (p : Nat) {f : Party M → Party M}
    (hf : ∀ x, Relaxes x (f x)) : (w.modify p f).WaitOrdered := by
  apply waitOrdered_of_relaxes h
  intro q y hy
  rw [party_modify] at hy
  split at hy
  · obtain ⟨x, hx, rfl⟩ := Option.map_eq_some_iff.1 hy
    exact Or.inr ⟨x, hx, hf x⟩
  · exact Or.inr ⟨y, hy, relaxes_refl y⟩

private theorem waitOrdered_refuse {w : Mailroom M} (h : w.WaitOrdered) (p q : Nat)
    (hfull : ∀ y, w.party q = some y → y.inbox ≠ []) :
    (w.modify p fun x => { x with waitingFor := some q }).WaitOrdered := by
  apply waitOrdered_of_send (p := p) (q := q) h
  · intro x hx
    rw [party_modify, if_pos rfl] at hx
    obtain ⟨x₀, -, rfl⟩ := Option.map_eq_some_iff.1 hx
    exact Or.inr rfl
  · intro y hy
    rw [party_modify] at hy
    split at hy
    · obtain ⟨y₀, hy₀, rfl⟩ := Option.map_eq_some_iff.1 hy
      exact hfull y₀ hy₀
    · exact hfull y hy
  · intro r hr y hy
    rw [party_modify, if_neg hr] at hy
    exact ⟨y, hy, relaxes_refl y⟩

private theorem waitOrdered_send {never : Nat} {w : Mailroom M} (h : w.WaitOrdered) (p q : Nat) (m : M) :
    ((w.modify p fun x => { x with waitingFor := some q }).modify q (Party.accept never m)).WaitOrdered := by
  apply waitOrdered_of_send (p := p) (q := q) h
  · intro x hx
    rw [party_modify] at hx
    split at hx
    · obtain ⟨x₁, hx₁, rfl⟩ := Option.map_eq_some_iff.1 hx
      rw [party_modify, if_pos rfl] at hx₁
      obtain ⟨x₀, -, rfl⟩ := Option.map_eq_some_iff.1 hx₁
      rcases relaxes_accept never m ({ x₀ with waitingFor := some q } : Party M) with hnone | ⟨hw, -⟩
      · exact Or.inl hnone
      · exact Or.inr hw
    · rw [party_modify, if_pos rfl] at hx
      obtain ⟨x₀, -, rfl⟩ := Option.map_eq_some_iff.1 hx
      exact Or.inr rfl
  · intro y hy
    rw [party_modify, if_pos rfl] at hy
    obtain ⟨y₀, -, rfl⟩ := Option.map_eq_some_iff.1 hy
    simp
  · intro r hr y hy
    rw [party_modify] at hy
    split at hy
    · obtain ⟨y₁, hy₁, rfl⟩ := Option.map_eq_some_iff.1 hy
      rw [party_modify, if_neg hr] at hy₁
      exact ⟨y₁, hy₁, relaxes_accept never m y₁⟩
    · rw [party_modify, if_neg hr] at hy
      exact ⟨y, hy, relaxes_refl y⟩

theorem waitOrdered_act {cap never : Nat} {w : Mailroom M} {a : Action M} (hcap : 0 < cap) (h : w.WaitOrdered)
    (hen : w.Enabled cap a) : (w.act never a).WaitOrdered := by
  cases a with
  | idle => exact h
  | tick now =>
    apply waitOrdered_of_relaxes h
    intro q y hy
    obtain ⟨x, hx, rfl⟩ := Option.map_eq_some_iff.1 hy
    exact Or.inr ⟨x, hx, relaxes_expire never now x⟩
  | join =>
    apply waitOrdered_of_relaxes h
    intro q y hy
    simp only [act] at hy
    split at hy
    · rw [← Option.some.inj hy]; exact Or.inl rfl
    · exact Or.inr ⟨y, hy, relaxes_refl y⟩
  | leave p =>
    apply waitOrdered_of_relaxes h
    intro q y hy
    simp only [act] at hy
    split at hy
    · cases hy
    · exact Or.inr ⟨y, hy, relaxes_refl y⟩
  | refuse p q =>
    obtain ⟨x, hx, hlen⟩ := hen
    refine waitOrdered_refuse h p q ?_
    intro y hy hnil
    rw [hx] at hy
    rw [Option.some.inj hy, hnil, List.length_nil] at hlen
    omega
  | send p q m => exact waitOrdered_send h p q m
  | receive p m => exact waitOrdered_modify h p (fun x => Or.inl rfl)
  | block p deadline => exact waitOrdered_modify h p (fun x => Or.inr ⟨rfl, id⟩)
  | notify p => exact waitOrdered_modify h p (relaxes_wake never)

/-! ### The wait-for graph -/

/-- A blocked party waits for a blocked party. -/
def WaitsFor (w : Mailroom M) (p q : Nat) : Prop :=
  ∃ x y, w.party p = some x ∧ x.blocked = true ∧ x.waitingFor = some q ∧ w.party q = some y ∧ y.blocked = true

/-- Along a path of blocked parties the stamps increase, so it does not come back. -/
theorem waitsFor_acyclic {w : Mailroom M} (hb : w.BlockedEmpty) (ho : w.WaitOrdered) (p : Nat) :
    ¬ Relation.TransGen w.WaitsFor p p := by
  obtain ⟨stamp, now, -, hord⟩ := ho
  -- the last party of a path may wait for nobody, so the order is proved for paths followed by one more link
  have hstep : ∀ {a b c}, w.WaitsFor a b → w.WaitsFor b c → stamp a < stamp b := by
    rintro a b c ⟨x, y, hx, -, hab, hy, hyb⟩ ⟨y', -, hy', -, hbc, -, -⟩
    rw [hy] at hy'
    rw [← Option.some.inj hy'] at hbc
    by_contra hle
    exact hord a b x y hx hab hy (by rw [hbc]; exact Option.some_ne_none c) (by omega) (hb b y hy hyb)
  have hpath : ∀ {a b c}, Relation.TransGen w.WaitsFor a b → w.WaitsFor b c → stamp a < stamp b := by
    intro a b c h
    induction h generalizing c with
    | single hab => exact hstep hab
    | tail _ hbc ih =>
      intro hcd
      exact Nat.lt_trans (ih hbc) (hstep hbc hcd)
  intro hcycle
  obtain ⟨q, hpq, -⟩ := Relation.TransGen.head'_iff.1 hcycle
  exact Nat.lt_irrefl _ (hpath hcycle hpq)

/-! ### Delivery -/

/-- The messages that arrived at `p`, in order. -/
def sentTo (p : Nat) (as : List (Action M)) : List M :=
  as.filterMap fun a => match a with | .send _ q m => if q = p then some m else none | _ => none

/-- The messages that `p` has read, in order. -/
def readBy (p : Nat) (as : List (Action M)) : List M :=
  as.filterMap fun a => match a with | .receive q m => if q = p then some m else none | _ => none

/-- After the history `as`, every party has read and holds the messages sent to it; nothing was sent to names that are
still free. -/
structure Delivered (as : List (Action M)) (w : Mailroom M) : Prop where
  held : ∀ p x, w.party p = some x → readBy p as ++ x.inbox = sentTo p as
  free : ∀ p, w.next ≤ p → w.party p = none ∧ readBy p as = [] ∧ sentTo p as = []

/-- An action that moves no message. -/
private theorem delivered_of_silent {as : List (Action M)} {w w' : Mailroom M} {a : Action M}
    (h : Delivered as w) (hs : ∀ p, sentTo p [a] = []) (hr : ∀ p, readBy p [a] = [])
    (hnext : w.next ≤ w'.next) (hfree : ∀ p, w'.next ≤ p → w.party p = none → w'.party p = none)
    (hparty : ∀ p y, w'.party p = some y →
      (w.next ≤ p ∧ y.inbox = []) ∨ ∃ x, w.party p = some x ∧ y.inbox = x.inbox) :
    Delivered (as ++ [a]) w' := by
  have hsent : ∀ p, sentTo p (as ++ [a]) = sentTo p as := by
    intro p
    have := hs p
    unfold sentTo at this ⊢
    rw [List.filterMap_append, this, List.append_nil]
  have hread : ∀ p, readBy p (as ++ [a]) = readBy p as := by
    intro p
    have := hr p
    unfold readBy at this ⊢
    rw [List.filterMap_append, this, List.append_nil]
  constructor
  · intro p y hy
    rw [hsent, hread]
    rcases hparty p y hy with ⟨hp, hempty⟩ | ⟨x, hx, hin⟩
    · obtain ⟨-, hr0, hs0⟩ := h.free p hp
      rw [hr0, hs0, hempty]; rfl
    · rw [hin]; exact h.held p x hx
  · intro p hp
    obtain ⟨hnone, hr0, hs0⟩ := h.free p (Nat.le_trans hnext hp)
    exact ⟨hfree p hp hnone, (hread p).trans hr0, (hsent p).trans hs0⟩

private theorem delivered_modify {as : List (Action M)} {w : Mailroom M} {a : Action M} (h : Delivered as w)
    (hs : ∀ p, sentTo p [a] = []) (hr : ∀ p, readBy p [a] = []) (p : Nat) {f : Party M → Party M}
    (hf : ∀ x, (f x).inbox = x.inbox) : Delivered (as ++ [a]) (w.modify p f) := by
  refine delivered_of_silent h hs hr (Nat.le_refl _) ?_ ?_
  · intro q _ hq
    rw [party_modify, hq]
    split <;> rfl
  · intro q y hy
    rw [party_modify] at hy
    split at hy
    · obtain ⟨x, hx, rfl⟩ := Option.map_eq_some_iff.1 hy
      exact Or.inr ⟨x, hx, hf x⟩
    · exact Or.inr ⟨y, hy, rfl⟩

private theorem delivered_send {never : Nat} {as : List (Action M)} {w : Mailroom M} {p q : Nat} {m : M}
    (h : Delivered as w) (hq : ∃ x, w.party q = some x) : Delivered (as ++ [.send p q m])
      ((w.modify p fun x => { x with waitingFor := some q }).modify q (Party.accept never m)) := by
  have hsent : ∀ r, sentTo r (as ++ [.send p q m]) = sentTo r as ++ if q = r then [m] else [] := by
    intro r
    unfold sentTo
    rw [List.filterMap_append]
    by_cases hr : q = r <;> simp [hr]
  have hread : ∀ r, readBy r (as ++ [.send p q m]) = readBy r as := by
    intro r
    unfold readBy
    rw [List.filterMap_append]
    exact List.append_nil _
  have hmid : ∀ r y, (w.modify p fun x => { x with waitingFor := some q }).party r = some y →
      ∃ x, w.party r = some x ∧ y.inbox = x.inbox := by
    intro r y hy
    rw [party_modify] at hy
    split at hy
    · obtain ⟨x, hx, rfl⟩ := Option.map_eq_some_iff.1 hy
      exact ⟨x, hx, rfl⟩
    · exact ⟨y, hy, rfl⟩
  constructor
  · intro r y hy
    rw [hread, hsent]
    rw [party_modify] at hy
    split at hy
    · rename_i hr
      obtain ⟨x₁, hx₁, rfl⟩ := Option.map_eq_some_iff.1 hy
      obtain ⟨x, hx, hin⟩ := hmid r x₁ hx₁
      rw [if_pos hr.symm, Party.accept_inbox, hin, ← List.append_assoc, h.held r x hx]
    · rename_i hr
      obtain ⟨x, hx, hin⟩ := hmid r y hy
      rw [if_neg (fun e => hr e.symm), List.append_nil, hin]
      exact h.held r x hx
  · intro r hr
    obtain ⟨hnone, hr0, hs0⟩ := h.free r hr
    have hne : q ≠ r := by
      rintro rfl
      obtain ⟨x, hx⟩ := hq
      rw [hx] at hnone; cases hnone
    refine ⟨?_, (hread r).trans hr0, ?_⟩
    · rw [party_modify, if_neg (fun e => hne e.symm), party_modify, hnone]
      split <;> rfl
    · rw [hsent, hs0, if_neg hne]; rfl

private theorem delivered_receive {as : List (Action M)} {w : Mailroom M} {p : Nat} {m : M} {x : Party M}
    {rest : List M} (h : Delivered as w) (hx : w.party p = some x) (hin : x.inbox = m :: rest) :
    Delivered (as ++ [.receive p m]) (w.modify p fun x => { x with inbox := x.inbox.tail, waitingFor := none }) := by
  have hsent : ∀ r, sentTo r (as ++ [.receive p m]) = sentTo r as := by
    intro r
    unfold sentTo
    rw [List.filterMap_append]
    exact List.append_nil _
  have hread : ∀ r, readBy r (as ++ [.receive p m]) = readBy r as ++ if p = r then [m] else [] := by
    intro r
    unfold readBy
    rw [List.filterMap_append]
    by_cases hr : p = r <;> simp [hr]
  constructor
  · intro r y hy
    rw [hread, hsent]
    rw [party_modify] at hy
    split at hy
    · rename_i hr
      subst hr
      rw [hx, Option.map_some, Option.some.injEq] at hy
      subst hy
      have hheld := h.held r x hx
      rw [hin] at hheld
      rw [if_pos rfl, List.append_assoc, ← hheld, hin]
      rfl
    · rename_i hr
      rw [if_neg (fun e => hr e.symm), List.append_nil]
      exact h.held r y hy
  · intro r hr
    obtain ⟨hnone, hr0, hs0⟩ := h.free r hr
    have hne : p ≠ r := by
      rintro rfl
      rw [hx] at hnone; cases hnone
    refine ⟨?_, ?_, (hsent r).trans hs0⟩
    · rw [party_modify, if_neg (fun e => hne e.symm)]; exact hnone
    · rw [hread, hr0, if_neg hne]; rfl

/-- One action keeps the account of the messages. -/
theorem delivered_act {cap never : Nat} {as : List (Action M)} {w : Mailroom M} {a : Action M} (h : Delivered as w)
    (hen : w.Enabled cap a) : Delivered (as ++ [a]) (w.act never a) := by
  cases a with
  | idle =>
    exact delivered_of_silent h (fun _ => rfl) (fun _ => rfl) (Nat.le_refl _) (fun _ _ hp => hp)
      (fun p y hy => Or.inr ⟨y, hy, rfl⟩)
  | tick now =>
    refine delivered_of_silent h (fun _ => rfl) (fun _ => rfl) (Nat.le_refl _) ?_ ?_
    · intro p _ hp
      simp [act, hp]
    · intro p y hy
      obtain ⟨x, hx, rfl⟩ := Option.map_eq_some_iff.1 hy
      exact Or.inr ⟨x, hx, Party.expire_inbox never now x⟩
  | join =>
    refine delivered_of_silent h (fun _ => rfl) (fun _ => rfl) (Nat.le_succ _) ?_ ?_
    · intro p hp hnone
      simp only [act] at hp ⊢
      rw [if_neg (by omega)]; exact hnone
    · intro p y hy
      simp only [act] at hy
      split at hy
      · rename_i hp
        rw [← Option.some.inj hy]
        exact Or.inl ⟨Nat.le_of_eq hp.symm, rfl⟩
      · exact Or.inr ⟨y, hy, rfl⟩
  | leave p =>
    refine delivered_of_silent h (fun _ => rfl) (fun _ => rfl) (Nat.le_refl _) ?_ ?_
    · intro q _ hq
      simp [act, hq]
    · intro q y hy
      simp only [act] at hy
      split at hy
      · cases hy
      · exact Or.inr ⟨y, hy, rfl⟩
  | refuse p q => exact delivered_modify h (fun _ => rfl) (fun _ => rfl) p (fun _ => rfl)
  | send p q m =>
    obtain ⟨x, hx, -⟩ := hen
    exact delivered_send h ⟨x, hx⟩
  | receive p m =>
    obtain ⟨x, rest, hx, hin⟩ := hen
    exact delivered_receive h hx hin
  | block p deadline => exact delivered_modify h (fun _ => rfl) (fun _ => rfl) p (fun _ => rfl)
  | notify p => exact delivered_modify h (fun _ => rfl) (fun _ => rfl) p (Party.wake_inbox never)

/-- What anyone has read, also one who has left, is the beginning of what was sent to him. -/
theorem readBy_prefix_act {cap : Nat} (never : Nat) {as : List (Action M)} {w : Mailroom M} {a : Action M}
    (h : Delivered as w) (hfront : ∀ p, readBy p as <+: sentTo p as) (hen : w.Enabled cap a) (p : Nat) :
    readBy p (as ++ [a]) <+: sentTo p (as ++ [a]) := by
  cases hx : (w.act never a).party p with
  | some x =>
    have hheld := (delivered_act h hen).held p x hx
    exact ⟨x.inbox, hheld⟩
  | none =>
    -- who takes part in an action is there after it
    have hread : readBy p [a] = [] := by
      cases a with
      | receive q m =>
        obtain ⟨y, rest, hy, -⟩ := hen
        have hne : q ≠ p := by
          rintro rfl
          simp [act, party_modify, hy] at hx
        simp [readBy, hne]
      | _ => rfl
    have hmore : sentTo p as <+: sentTo p (as ++ [a]) := by
      unfold sentTo
      rw [List.filterMap_append]
      exact List.prefix_append _ _
    have hsame : readBy p (as ++ [a]) = readBy p as := by
      unfold readBy at hread ⊢
      rw [List.filterMap_append, hread, List.append_nil]
    rw [hsame]
    exact (hfront p).trans hmore

end Mailroom

end Rost.Lib
