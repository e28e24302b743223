import Rost.Scheduler.Refinement
import Rost.Scheduler.Records

/-!
# Mailboxes in a running system

When the kernel takes a message (`sendMessage_snd_iff`), and which operations leave a mailbox as it is
(`mail_step_of_spares`), or at least what waits in it from one sender (`mailFrom_step`).
-/

namespace Rost

namespace Scheduler

/-- The kernel takes a message: the receiver is there, its mailbox has a free place, and the sender has not used up its
messages. -/
def Takes (s : Scheduler) (fromPid toPid : Nat) : Prop :=
  s.getProcess toPid ≠ none ∧ (s.mail toPid).length < queueCapacity ∧ (s.getProcess fromPid).any rateLimited = false

theorem sendMessage_snd_iff (s : Scheduler) (fromPid toPid : Nat) (msg : Message) :
    (s.sendMessage fromPid toPid msg).2 = true ↔ s.Takes fromPid toPid := by
  unfold Takes
  rcases s.sendMessage_cases fromPid toPid msg with ⟨hno, heq⟩ | ⟨p, hp, hlimit, ⟨hfull, heq⟩ | ⟨hroom, heq⟩⟩
  · rw [heq]
    constructor
    · intro h
      cases h
    · rintro ⟨hlive, -, hlimit⟩
      rcases hno with hnone | hlimited
      · exact absurd hnone hlive
      · rw [hlimit] at hlimited
        cases hlimited
  · rw [heq, mail_eq hp, hfull]
    constructor
    · intro h
      cases h
    · rintro ⟨-, hlt, -⟩
      exact absurd hlt (Nat.lt_irrefl _)
  · rw [heq, mail_eq hp, hp]
    exact ⟨fun _ => ⟨by simp, hroom, hlimit⟩, fun _ => rfl⟩

/-- The operation neither sends to `q` nor receives for it nor ends it. -/
def Op.Spares (q : Nat) : Op → Prop
  | .sendMessage _ toPid _ => toPid ≠ q
  | .blockingReceive pid _ => pid ≠ q
  | .terminateProcess pid => pid ≠ q
  | _ => True

instance (q : Nat) (op : Op) : Decidable (op.Spares q) := by
  unfold Op.Spares
  split <;> infer_instance

theorem mail_step_of_spares {s s' : Scheduler} {op : Op} {r : Ret} {q : Nat} (hstep : s.step op = some (s', r))
    (hspares : op.Spares q) : s'.mail q = s.mail q := by
  have hnosend : ∀ fromPid msg, op ≠ .sendMessage fromPid q msg := by
    rintro fromPid msg rfl
    exact hspares rfl
  have hnorecv : ∀ t, op ≠ .blockingReceive q t := by
    rintro t rfl
    exact hspares rfl
  have hnoend : op ≠ .terminateProcess q := by
    rintro rfl
    exact hspares rfl
  cases hx : s.getProcess q with
  | none =>
    have hsuffix := mail_step hstep hnosend
    rw [mail_of_none hx, List.suffix_nil] at hsuffix
    rw [hsuffix, mail_of_none hx]
  | some p =>
    obtain ⟨p', hp'⟩ := Option.ne_none_iff_exists'.1
      (live_step hstep hnoend (by rw [hx]; exact Option.some_ne_none p))
    rw [mail_eq hx, mail_eq hp', contents_step hstep hnosend hnorecv hx hp']

/-! ### The messages of one sender -/

/-- The messages of `p` that wait for `q`. -/
def mailFrom (s : Scheduler) (p q : Nat) : List Message := (s.mail q).filter fun m => m.sender == p

/-- The operation neither sends from `p` to `q` nor receives for `q` nor ends it. -/
def Op.SparesFrom (p q : Nat) : Op → Prop
  | .sendMessage fromPid toPid _ => ¬ (fromPid = p ∧ toPid = q)
  | .blockingReceive pid _ => pid ≠ q
  | .terminateProcess pid => pid ≠ q
  | _ => True

instance (p q : Nat) (op : Op) : Decidable (op.SparesFrom p q) := by
  unfold Op.SparesFrom
  split <;> infer_instance

/-- A message that is taken comes last among those of its sender. -/
theorem mailFrom_sendMessage {s s' : Scheduler} {p q : Nat} {msg : Message} (h : s.sendMessage p q msg = (s', true)) :
    s'.mailFrom p q = s.mailFrom p q ++ [{ msg with sender := p }] := by
  unfold mailFrom
  rw [mail_sendMessage h, if_pos rfl, List.filter_append]
  simp

theorem mailFrom_sendMessage_of_ne {s : Scheduler} {p q fromPid toPid : Nat} (msg : Message)
    (hne : ¬ (fromPid = p ∧ toPid = q)) : (s.sendMessage fromPid toPid msg).1.mailFrom p q = s.mailFrom p q := by
  unfold mailFrom
  cases hout : s.sendMessage fromPid toPid msg with
  | mk s' ok =>
    cases ok with
    | false => rw [mail_sendMessage_refused hout]
    | true =>
      rw [mail_sendMessage hout]
      by_cases hq : q = toPid
      · have hfrom : fromPid ≠ p := fun h => hne ⟨h, hq.symm⟩
        rw [if_pos hq, List.filter_append]
        simp [hfrom]
      · rw [if_neg hq, List.append_nil]

theorem mailFrom_sendMessage_refused {s s' : Scheduler} {fromPid toPid : Nat} {msg : Message}
    (h : s.sendMessage fromPid toPid msg = (s', false)) (p q : Nat) : s'.mailFrom p q = s.mailFrom p q := by
  unfold mailFrom
  rw [mail_sendMessage_refused h]

/-- A receive takes the first message of its sender. -/
theorem mailFrom_blockingReceive {s s' : Scheduler} {q t : Nat} {msg : Message}
    (h : s.blockingReceive q t = (s', some msg)) (p : Nat) :
    s.mailFrom p q = if msg.sender = p then msg :: s'.mailFrom p q else s'.mailFrom p q := by
  unfold mailFrom
  rw [mail_blockingReceive h, List.filter_cons]
  simp

theorem mailFrom_blockingReceive_none {s s' : Scheduler} {pid t : Nat} (h : s.blockingReceive pid t = (s', none))
    (p q : Nat) : s'.mailFrom p q = s.mailFrom p q := by
  unfold mailFrom
  rw [(mail_blockingReceive_none h).2]

theorem mailFrom_blockingReceive_of_ne {s : Scheduler} {pid q : Nat} (t p : Nat) (hne : pid ≠ q) :
    (s.blockingReceive pid t).1.mailFrom p q = s.mailFrom p q := by
  unfold mailFrom
  rw [@mail_step_of_spares s _ (.blockingReceive pid t) _ q rfl hne]

theorem mailFrom_step {s s' : Scheduler} {op : Op} {r : Ret} {p q : Nat} (hstep : s.step op = some (s', r))
    (hspares : op.SparesFrom p q) : s'.mailFrom p q = s.mailFrom p q := by
  by_cases hsend : ∃ fromPid msg, op = .sendMessage fromPid q msg
  · obtain ⟨fromPid, msg, rfl⟩ := hsend
    have hs' : s' = (s.sendMessage fromPid q msg).1 := by
      simp only [step, Option.some.injEq, Prod.mk.injEq] at hstep
      exact hstep.1.symm
    rw [hs']
    exact mailFrom_sendMessage_of_ne msg hspares
  · have hmail : s'.mail q = s.mail q := by
      refine mail_step_of_spares hstep ?_
      cases op with
      | sendMessage fromPid toPid msg =>
        rintro rfl
        exact hsend ⟨fromPid, msg, rfl⟩
      | blockingReceive | terminateProcess => exact hspares
      | _ => trivial
    unfold mailFrom
    rw [hmail]

end Scheduler

end Rost
