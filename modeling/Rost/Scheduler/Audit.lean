import Rost.Lib.Circular
import Rost.Scheduler.Refinement

/-!
# The audit log of a run

What an operation has to be recorded as is read off its arguments, its result and the state it leaves (`event`).  The
log holds the last 64 of these events (`Holds`), since every operation pushes exactly its own (`audit_step`).  In the
whole history the receives of a process are the beginning of the sends to it, so that the k-th receive is preceded by
the k-th send and names the same sender (`Paired`).
-/

namespace Rost

open Lib (Run exec run_of_exec)
open Lib.Circular (Recent window slots update_slots)

/-! ### The ring -/

namespace AuditLog

theorem auditCapacity_pos : 0 < auditCapacity := by decide

/-- The entries by slot number. -/
def slot (l : AuditLog) : Nat → AuditEntry := slots auditCapacity_pos l.entries

theorem iter_eq (l : AuditLog) : l.iter = window auditCapacity l.slot l.head l.count := by
  unfold iter window slot slots
  simp only [Nat.mod_mod]

/-- The log is what is left of the events `evs`. -/
def Holds (l : AuditLog) (evs : List AuditEntry) : Prop := Recent auditCapacity l.slot l.head l.count evs

theorem holds_new : new.Holds [] := Recent.nil auditCapacity new.slot 0

theorem Holds.iter_eq {l : AuditLog} {evs : List AuditEntry} (h : l.Holds evs) :
    l.iter = evs.rtake auditCapacity := by
  rw [l.iter_eq]
  exact h.window

theorem Holds.push {l : AuditLog} {evs : List AuditEntry} (h : l.Holds evs) (e : AuditEntry) :
    (l.push e).Holds (evs ++ [e]) := by
  have hle : l.count ≤ auditCapacity := by
    have := h.count
    omega
  unfold AuditLog.push
  simp only
  split
  · rename_i hroom
    exact (Recent.push h hroom e).congr auditCapacity_pos fun i hi => update_slots _ l.entries (Nat.mod_lt _ auditCapacity_pos) e hi
  · rename_i hfull
    have hcount : l.count = auditCapacity := by omega
    have hslot : (l.head + l.count) % auditCapacity = l.head % auditCapacity := by
      rw [hcount, Nat.add_mod_right]
    refine ((Recent.push_full h auditCapacity_pos hcount e).mod).congr auditCapacity_pos fun i hi => ?_
    rw [← hslot]
    exact update_slots _ l.entries (Nat.mod_lt _ auditCapacity_pos) e hi

end AuditLog

namespace Scheduler

/-! ### The events of a run -/

/-- The event of the operation `op`, which was given in the state `s`, returned `r` and left the state `s'`. -/
def event (s : Scheduler) (op : Op) (r : Ret) (s' : Scheduler) : Option AuditEntry :=
  match op, r with
  | .sendMessage fromPid toPid _, .sent true => some ⟨s.tick, .send, fromPid, toPid⟩
  | .blockingReceive pid _, .received (some msg) => some ⟨s.tick, .receive, msg.sender, pid⟩
  | .blockingReceive pid timeoutTicks, .received none =>
    if timeoutTicks ≠ 0 ∧ (s'.getProcess pid).any (fun p => decide (p.state = .blocked)) = true then
      some ⟨s.tick, .block, 0, pid⟩
    else none
  | .notifyProcess toPid _, .sent true => some ⟨s.tick, .unblock, 0, toPid⟩
  | .terminateProcess pid, _ => some ⟨s.tick, .terminate, 0, pid⟩
  | _, _ => none

/-- The events of the operations `ops` from `s` on, up to a panic. -/
def events (s : Scheduler) : List Op → List AuditEntry
  | [] => []
  | op :: ops =>
    match s.step op with
    | none => []
    | some (s', r) => (s.event op r s').toList ++ events s' ops

/-- The audit log, most recent entry last. -/
def auditEntries (s : Scheduler) : List AuditEntry := s.audit.iter

/-- The operations of a history. -/
def ops (es : List (Op × Ret)) : List Op := es.map Prod.fst

theorem events_run {G : Scheduler → Op → Prop} {s t : Scheduler} {es : List (Op × Ret)} (h : Run step G s es t)
    (more : List Op) : s.events (ops es ++ more) = s.events (ops es) ++ t.events more := by
  induction es generalizing s with
  | nil =>
    cases h.eq_of_nil
    rfl
  | cons e es ih =>
    obtain ⟨op, r⟩ := e
    obtain ⟨u, -, hstep, hrest⟩ := h.head
    show s.events (op :: (ops es ++ more)) = s.events (op :: ops es) ++ t.events more
    simp only [events, hstep]
    rw [ih hrest, List.append_assoc]

theorem events_snoc {G : Scheduler → Op → Prop} {s t u : Scheduler} {es : List (Op × Ret)} {op : Op} {r : Ret}
    (h : Run step G s es t) (hstep : t.step op = some (u, r)) :
    s.events (ops (es ++ [(op, r)])) = s.events (ops es) ++ (t.event op r u).toList := by
  have hops : ops (es ++ [(op, r)]) = ops es ++ [op] := List.map_append
  rw [hops, events_run h]
  simp only [events, hstep, List.append_nil]

/-! ### One operation -/

private theorem audit_switches {s s' : Scheduler} (h : Switches s s') : s'.audit = s.audit := by
  cases h <;> rfl

private theorem audit_chargeCurrent (s : Scheduler) : s.chargeCurrent.1.audit = s.audit := by
  rcases s.chargeCurrent_cases with ⟨-, heq⟩ | ⟨cpid, p, -, -, ⟨-, heq⟩ | ⟨-, heq⟩⟩ <;> rw [heq] <;> rfl

private theorem audit_timerTick (s : Scheduler) : s.timerTick.1.audit = s.audit := by
  have hcharge : s.advanceTick.chargeCurrent.1.audit = s.audit := audit_chargeCurrent s.advanceTick
  rcases s.timerTick_cases with ⟨-, heq⟩ | ⟨-, ⟨-, i, heq⟩ | ⟨i, old, next, -, heq⟩⟩
  · rw [heq, hcharge]
  · rw [heq]; exact hcharge
  · rw [heq]; exact hcharge

private theorem audit_rescheduleIsr (s : Scheduler) : s.rescheduleIsr.1.audit = s.audit := by
  rcases s.rescheduleIsr_cases with ⟨i, heq⟩ | ⟨i, next, -, -, heq⟩ | ⟨cpid, next, i, -, -, -, heq⟩ <;> rw [heq]
  rfl

private theorem audit_yieldSwitch (s : Scheduler) : s.yieldSwitch.1.audit = s.audit := by
  rcases s.yieldSwitch_cases with ⟨-, heq⟩ | ⟨cpid, -, hsw⟩
  · rw [heq]
  · have hsame := audit_switches hsw
    exact hsame

private theorem audit_schedule (s : Scheduler) : s.schedule.1.audit = s.audit := by
  obtain ⟨i, hi⟩ := s.pickNextPriority_fst
  unfold schedule
  rw [hi]

private theorem audit_yieldCurrent (s : Scheduler) : s.yieldCurrent.audit = s.audit := by
  unfold yieldCurrent
  split <;> rfl

/-- The log after an operation whose event is `e`. -/
def logged (s : Scheduler) (e : Option AuditEntry) : AuditLog := e.elim s.audit s.audit.push

private theorem audit_sendMessage (s : Scheduler) (fromPid toPid : Nat) (msg : Message) :
    (s.sendMessage fromPid toPid msg).1.audit = s.logged (s.event (.sendMessage fromPid toPid msg)
      (.sent (s.sendMessage fromPid toPid msg).2) (s.sendMessage fromPid toPid msg).1) := by
  rcases s.sendMessage_cases fromPid toPid msg with ⟨-, heq⟩ | ⟨p, -, -, ⟨-, heq⟩ | ⟨-, heq⟩⟩ <;> rw [heq] <;> rfl

private theorem audit_blockingReceive (s : Scheduler) (pid t : Nat) :
    (s.blockingReceive pid t).1.audit = s.logged (s.event (.blockingReceive pid t)
      (.received (s.blockingReceive pid t).2) (s.blockingReceive pid t).1) := by
  rcases s.blockingReceive_cases pid t with
    ⟨hnone, heq⟩ | ⟨p, hp, ⟨msg, rest, -, heq⟩ | ⟨-, ht, heq⟩ | ⟨-, ht, heq⟩⟩
  · rw [heq]
    simp [event, hnone, logged]
  · rw [heq]
    rfl
  · rw [heq]
    simp [event, ht, logged]
  · rw [heq]
    simp only [event, getProcess_log, getProcess_update, hp, if_true, Option.map_some, Option.any_some,
      decide_true, and_true, if_pos ht]
    rfl

private theorem audit_notifyProcess (s : Scheduler) (toPid : Nat) (word : Word) :
    (s.notifyProcess toPid word).1.audit = s.logged (s.event (.notifyProcess toPid word)
      (.sent (s.notifyProcess toPid word).2) (s.notifyProcess toPid word).1) := by
  rcases s.notifyProcess_cases toPid word with ⟨-, heq⟩ | ⟨p, -, heq⟩ <;> rw [heq] <;> rfl

/-- Every operation records its own event, and nothing else. -/
theorem audit_step {s s' : Scheduler} {op : Op} {r : Ret} (h : s.step op = some (s', r)) :
    s'.audit = s.logged (s.event op r s') := by
  cases op
  case addProcess base =>
    obtain ⟨⟨t, r'⟩, hadd, heq⟩ := Option.map_eq_some_iff.1 h
    obtain ⟨⟨t', r''⟩, -, hinner⟩ := Option.map_eq_some_iff.1 hadd
    obtain ⟨rfl, rfl⟩ := Prod.mk.inj heq
    obtain ⟨rfl, rfl⟩ := Prod.mk.inj hinner
    rfl
  case addRing3Process base =>
    obtain ⟨⟨t, r'⟩, hadd, heq⟩ := Option.map_eq_some_iff.1 h
    obtain ⟨⟨t', r''⟩, -, hinner⟩ := Option.map_eq_some_iff.1 hadd
    obtain ⟨rfl, rfl⟩ := Prod.mk.inj heq
    obtain ⟨rfl, rfl⟩ := Prod.mk.inj hinner
    rfl
  all_goals
    simp only [step, Option.some.injEq, Prod.mk.injEq] at h
    obtain ⟨rfl, rfl⟩ := h
  case schedule => exact s.audit_schedule
  case timerTick => exact s.audit_timerTick
  case forceScheduleNext => exact audit_switches s.forceScheduleNext_switches
  case prepareBlockSwitch pid => exact audit_switches (s.prepareBlockSwitch_switches pid)
  case rescheduleIsr => exact s.audit_rescheduleIsr
  case yieldCurrent => exact s.audit_yieldCurrent
  case yieldSwitch => exact s.audit_yieldSwitch
  case sendMessage fromPid toPid msg => exact s.audit_sendMessage fromPid toPid msg
  case blockingReceive pid t => exact s.audit_blockingReceive pid t
  case notifyProcess toPid word => exact s.audit_notifyProcess toPid word
  all_goals rfl

theorem holds_run {base : Nat} {es : List (Op × Ret)} {s : Scheduler}
    (h : Run step (fun _ _ => True) (new base) es s) : s.audit.Holds ((new base).events (ops es)) := by
  induction h with
  | nil => exact AuditLog.holds_new
  | @snoc t u es op r hrun _ hstep ih =>
    rw [events_snoc hrun hstep, audit_step hstep]
    cases t.event op r u with
    | none =>
      show t.audit.Holds _
      rw [Option.toList_none, List.append_nil]
      exact ih
    | some e => exact ih.push e

/-! ### Sends and receives -/

/-- The senders of the recorded sends to `q`, or of its recorded receives. -/
def senders (kind : AuditKind) (q : Nat) (evs : List AuditEntry) : List Nat :=
  (evs.filter fun e => decide (e.kind = kind ∧ e.target = q)).map AuditEntry.sender

theorem senders_append (kind : AuditKind) (q : Nat) (evs fs : List AuditEntry) :
    senders kind q (evs ++ fs) = senders kind q evs ++ senders kind q fs := by
  unfold senders
  rw [List.filter_append, List.map_append]

theorem senders_cons (kind : AuditKind) (q : Nat) (e : AuditEntry) (evs : List AuditEntry) :
    senders kind q (e :: evs) =
      (if e.kind = kind ∧ e.target = q then [e.sender] else []) ++ senders kind q evs := by
  unfold senders
  rw [List.filter_cons]
  by_cases h : e.kind = kind ∧ e.target = q
  · simp [h]
  · simp only [h, decide_false, if_false]
    rfl

/-- What comes `k`-th among the senders is the sender of the entry that has `k` entries of its kind before it. -/
theorem exists_of_senders {kind : AuditKind} {q : Nat} {evs : List AuditEntry} {k x : Nat}
    (h : (senders kind q evs)[k]? = some x) :
    ∃ i e, evs[i]? = some e ∧ e.kind = kind ∧ e.target = q ∧ e.sender = x ∧
      (senders kind q (evs.take i)).length = k := by
  induction evs generalizing k with
  | nil => cases h
  | cons a evs ih =>
    rw [senders_cons] at h
    by_cases ha : a.kind = kind ∧ a.target = q
    · rw [if_pos ha] at h
      cases k with
      | zero => exact ⟨0, a, rfl, ha.1, ha.2, Option.some.inj h, rfl⟩
      | succ k =>
        obtain ⟨i, e, hi, hkind, htarget, hx, hk⟩ := ih (k := k) h
        refine ⟨i + 1, e, hi, hkind, htarget, hx, ?_⟩
        rw [List.take_succ_cons, senders_cons, if_pos ha, List.length_append, hk, List.length_singleton, Nat.add_comm]
    · rw [if_neg ha] at h
      obtain ⟨i, e, hi, hkind, htarget, hx, hk⟩ := ih h
      refine ⟨i + 1, e, hi, hkind, htarget, hx, ?_⟩
      rw [List.take_succ_cons, senders_cons, if_neg ha, List.nil_append, hk]

private theorem senders_event (s : Scheduler) (op : Op) (r : Ret) (s' : Scheduler) (q : Nat) :
    senders .send q (s.event op r s').toList = (accepted q [(op, r)]).map Message.sender ∧
    senders .receive q (s.event op r s').toList = (received q [(op, r)]).map Message.sender := by
  cases op with
  | sendMessage fromPid toPid msg =>
    cases r with
    | sent accepted =>
      cases accepted with
      | false => exact ⟨rfl, rfl⟩
      | true => by_cases hq : toPid = q <;> simp [event, senders, Scheduler.accepted, received, hq]
    | _ => exact ⟨rfl, rfl⟩
  | blockingReceive pid timeoutTicks =>
    cases r with
    | received result =>
      cases result with
      | some msg => by_cases hq : pid = q <;> simp [event, senders, accepted, Scheduler.received, hq]
      | none =>
        simp only [event]
        split <;> exact ⟨rfl, rfl⟩
    | _ => exact ⟨rfl, rfl⟩
  | notifyProcess toPid word =>
    cases r with
    | sent accepted => cases accepted <;> exact ⟨rfl, rfl⟩
    | _ => exact ⟨rfl, rfl⟩
  | _ => exact ⟨rfl, rfl⟩

theorem senders_run {base : Nat} {es : List (Op × Ret)} {s : Scheduler}
    (h : Run step (fun _ _ => True) (new base) es s) (q : Nat) :
    senders .send q ((new base).events (ops es)) = (accepted q es).map Message.sender ∧
    senders .receive q ((new base).events (ops es)) = (received q es).map Message.sender := by
  induction h with
  | nil => exact ⟨rfl, rfl⟩
  | @snoc t u es op r hrun _ hstep ih =>
    obtain ⟨hsend, hreceive⟩ := t.senders_event op r u q
    rw [events_snoc hrun hstep, senders_append, senders_append, ih.1, ih.2, hsend, hreceive]
    unfold accepted received
    rw [List.filterMap_append, List.filterMap_append, List.map_append, List.map_append]
    exact ⟨rfl, rfl⟩

/-- Every recorded receive of `q` has before it the send that has as many sends to `q` before it as the receive has
receives of `q`, and the two name the same sender. -/
def Paired (evs : List AuditEntry) : Prop :=
  ∀ q j e, evs[j]? = some e → e.kind = .receive → e.target = q →
    ∃ i e', i < j ∧ evs[i]? = some e' ∧ e'.kind = .send ∧ e'.target = q ∧ e'.sender = e.sender ∧
      (senders .send q (evs.take i)).length = (senders .receive q (evs.take j)).length

private theorem Paired.snoc {evs : List AuditEntry} {e : AuditEntry} (h : Paired evs)
    (hfront : ∀ q, senders .receive q (evs ++ [e]) <+: senders .send q (evs ++ [e])) : Paired (evs ++ [e]) := by
  intro q j e₁ hj hkind htarget
  have hlen : j < evs.length ∨ j = evs.length := by
    have := (List.getElem?_eq_some_iff.1 hj).1
    rw [List.length_append, List.length_singleton] at this
    omega
  rcases hlen with hlt | rfl
  · rw [List.getElem?_append_left hlt] at hj
    obtain ⟨i, e', hij, hi, hrest⟩ := h q j e₁ hj hkind htarget
    refine ⟨i, e', hij, ?_, ?_⟩
    · rw [List.getElem?_append_left (by omega)]
      exact hi
    · rw [List.take_append_of_le_length (by omega), List.take_append_of_le_length (by omega)]
      exact hrest
  · have he : e₁ = e := by
      rw [List.getElem?_append_right (Nat.le_refl _), Nat.sub_self] at hj
      exact (Option.some.inj hj).symm
    subst he
    -- the receive is the next one, so the send it answers is among the earlier events
    have hsend : senders .send q (evs ++ [e₁]) = senders .send q evs := by
      rw [senders_append, senders_cons, if_neg (by rw [hkind]; rintro ⟨hne, -⟩; cases hne)]
      exact List.append_nil _
    have hreceive : senders .receive q (evs ++ [e₁]) = senders .receive q evs ++ [e₁.sender] := by
      rw [senders_append, senders_cons, if_pos ⟨hkind, htarget⟩]
      rfl
    have hp := hfront q
    rw [hsend, hreceive] at hp
    have hget : (senders .send q evs)[(senders .receive q evs).length]? = some e₁.sender := by
      obtain ⟨rest, hrest⟩ := hp
      rw [← hrest, List.append_assoc, List.getElem?_append_right (Nat.le_refl _), Nat.sub_self]
      rfl
    obtain ⟨i, e', hi, hk, ht, hs, hcount⟩ := exists_of_senders hget
    have hlt : i < evs.length := (List.getElem?_eq_some_iff.1 hi).1
    refine ⟨i, e', hlt, ?_, hk, ht, hs, ?_⟩
    · rw [List.getElem?_append_left hlt]
      exact hi
    · rw [List.take_append_of_le_length (Nat.le_of_lt hlt), hcount, List.take_left']
      rfl

theorem paired_run {base : Nat} {es : List (Op × Ret)} {s : Scheduler}
    (h : Run step (fun _ _ => True) (new base) es s) : Paired ((new base).events (ops es)) := by
  induction h with
  | nil =>
    intro q j e hj
    cases hj
  | @snoc t u es op r hrun hguard hstep ih =>
    have hsenders := fun q => senders_run (hrun.snoc hguard hstep) q
    have hfront := fun q => (received_starts (hrun.snoc hguard hstep) q).map Message.sender
    rw [events_snoc hrun hstep] at hsenders ⊢
    cases hev : t.event op r u with
    | none =>
      rw [Option.toList_none, List.append_nil]
      exact ih
    | some e =>
      rw [hev] at hsenders
      refine ih.snoc fun q => ?_
      have hq := hfront q
      rw [← (hsenders q).1, ← (hsenders q).2] at hq
      exact hq

/-- An entry stays in the log until 64 events have come after it. -/
private theorem rtake_getElem? (evs : List AuditEntry) {i : Nat} (h : evs.length ≤ i + auditCapacity) :
    (evs.rtake auditCapacity)[i - (evs.length - auditCapacity)]? = evs[i]? := by
  rw [List.rtake, List.getElem?_drop]
  congr 1
  omega

/-- The audit log consists of the last 64 events of the run.  Every receive of a process is preceded by the send to it
with the same number among the sends as the receive has among the receives, and the sender is the same; and as long as
fewer than 64 events have followed the send, both stand in the log. -/
theorem audit_faithful {base : Nat} {es : List (Op × Ret)} {s : Scheduler}
    (h : Run step (fun _ _ => True) (new base) es s) :
    s.auditEntries = ((new base).events (ops es)).rtake 64 ∧
    ∀ q j e, ((new base).events (ops es))[j]? = some e → e.kind = .receive → e.target = q →
      ∃ i e', i < j ∧ ((new base).events (ops es))[i]? = some e' ∧ e'.kind = .send ∧ e'.target = q ∧
        e'.sender = e.sender ∧
        (senders .send q (((new base).events (ops es)).take i)).length =
          (senders .receive q (((new base).events (ops es)).take j)).length ∧
        (((new base).events (ops es)).length ≤ i + 64 →
          s.auditEntries[i - (((new base).events (ops es)).length - 64)]? = some e' ∧
          s.auditEntries[j - (((new base).events (ops es)).length - 64)]? = some e) := by
  have hlog : s.auditEntries = ((new base).events (ops es)).rtake 64 := (holds_run h).iter_eq
  refine ⟨hlog, fun q j e hj hkind htarget => ?_⟩
  obtain ⟨i, e', hij, hi, hk, ht, hs, hcount⟩ := paired_run h q j e hj hkind htarget
  refine ⟨i, e', hij, hi, hk, ht, hs, hcount, fun hroom => ?_⟩
  have hsend := rtake_getElem? ((new base).events (ops es)) hroom
  have hreceive := rtake_getElem? ((new base).events (ops es)) (Nat.le_trans hroom (by omega : i + 64 ≤ j + 64))
  rw [hlog]
  exact ⟨hsend.trans hi, hreceive.trans hj⟩

/-- A refused send and an empty poll leave no trace; the receive of process 2 pairs with the first send to it. -/
theorem audit_faithful_two :
    ∃ es s, Run step (fun _ _ => True) (new 0) es s ∧
      s.auditEntries = [⟨0, .send, 1, 2⟩, ⟨0, .receive, 1, 2⟩, ⟨0, .block, 0, 2⟩, ⟨0, .unblock, 0, 2⟩,
        ⟨0, .terminate, 0, 1⟩] ∧
      s.auditEntries = ((new 0).events (ops es)).rtake 64 := by
  have h : (exec step (fun _ _ => True) (new 0)
      [.addProcess 0, .addProcess 0, .sendMessage 1 9 (Message.new 1), .sendMessage 1 2 (Message.new 7),
        .blockingReceive 2 0, .blockingReceive 2 0, .blockingReceive 2 5, .notifyProcess 2 1, .terminateProcess 1]).any
      (fun o => decide (o.1.auditEntries = [⟨0, .send, 1, 2⟩, ⟨0, .receive, 1, 2⟩, ⟨0, .block, 0, 2⟩,
        ⟨0, .unblock, 0, 2⟩, ⟨0, .terminate, 0, 1⟩])) = true := by decide
  obtain ⟨⟨s, es⟩, hexec, hlog⟩ := (Option.any_eq_true _ _).1 h
  exact ⟨es, s, run_of_exec hexec, of_decide_eq_true hlog, (audit_faithful (run_of_exec hexec)).1⟩

end Scheduler

end Rost
