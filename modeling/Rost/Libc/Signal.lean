import Rost.Scheduler.RoundRobin
import Rost.Lib.Run

/-!
# Signals

`kill` posts a bit to the notification word of the target, and `signal_dispatch` polls with `SYS_RECV(0)` and acts on the
bits of the word that comes back.  The loop over the bits is right (`runBits_acts`).  But `SYS_RECV` takes the first word
of the oldest message and never looks at the notification word: a signal that was posted is not acted on, and a message
that waits is taken for a set of signals (`signals_dispatched`).
-/

namespace Rost.Libc

open Lib (Run exec run_of_exec)

def sigkill : Int := 9
def nsig : Nat := 32

/-- The default action. -/
def sigDfl : Nat := 0

/-- The signal is ignored. -/
def sigIgn : Nat := 1

def sigToBit (sig : Int) : Option Nat :=
  match sig with
  | 1 => some 0
  | 2 => some 1
  | 3 => some 2
  | 15 => some 3
  | 10 => some 4
  | 12 => some 5
  | 17 => some 6
  | 14 => some 7
  | 9 => some 8
  | _ => none

def bitToSig (bit : Nat) : Int :=
  match bit with
  | 0 => 1
  | 1 => 2
  | 2 => 3
  | 3 => 15
  | 4 => 10
  | 5 => 12
  | 6 => 17
  | 7 => 14
  | 8 => 9
  | _ => -1

/-- `HANDLERS`, a function pointer for each signal. -/
abbrev Handlers := Vector Nat nsig

namespace Handlers

def new : Handlers := Vector.replicate nsig sigDfl

/-- The handler of a signal that is in range. -/
def handler (t : Handlers) (sig : Int) : Nat := t.toArray.getD sig.toNat sigDfl

/-- Register a handler; the previous one is returned. -/
def signal (t : Handlers) (signum : Int) (handler : Nat) : Handlers × Nat :=
  if h : 0 < signum ∧ signum.toNat < nsig then (t.set signum.toNat handler h.2, t.handler signum) else (t, u64Max)

end Handlers

/-- What `signal_dispatch` does about a signal. -/
inductive Action where
  | call (handler : Nat) (sig : Int)
  | exit (code : Int)
deriving DecidableEq

namespace Handlers

/-- What the table says about a signal; nothing is done about one that is ignored. -/
def action (t : Handlers) (sig : Int) : Option Action :=
  if sig = sigkill then some (.exit (128 + sigkill))
  else if t.handler sig = sigIgn then none
  else if t.handler sig = sigDfl then some (.exit (128 + sig))
  else some (.call (t.handler sig) sig)

/-- The loop over the bits of the word, which an exit leaves. -/
def runBits (t : Handlers) (word : Word) : List Nat → List Action
  | [] => []
  | bit :: bits =>
    if word.getLsbD bit = false then t.runBits word bits
    else if bitToSig bit ≤ 0 then t.runBits word bits
    else
      match t.action (bitToSig bit) with
      | none => t.runBits word bits
      | some (.exit code) => [.exit code]
      | some (.call handler sig) => .call handler sig :: t.runBits word bits

end Handlers

/-- `kill`: whether the signal was posted, and the scheduler afterwards. -/
def kill (s : Scheduler) (pid : Nat) (sig : Int) : Scheduler × Bool :=
  match sigToBit sig with
  | none => (s, false)
  | some bit => s.notifyProcess pid (1 <<< bit)

/-- What comes of a dispatch: the message that the poll has removed from the mailbox, and the actions. -/
structure Dispatched where
  taken : Option Message
  actions : List Action

/-- `SYS_RECV(0)` by `pid`, and the actions on the bits of its result.  An exit removes the process. -/
def signalDispatch (s : Scheduler) (t : Handlers) (pid : Nat) : Scheduler × Dispatched :=
  let polled := s.blockingReceive pid 0
  let word : Word := match polled.2 with
    | some msg => msg.getData 0
    | none => BitVec.allOnes 64
  let actions := if word = BitVec.allOnes 64 ∨ word = 0 then [] else t.runBits word (List.range 9)
  let left := if actions.any (fun a => a matches .exit _) then (polled.1.terminateProcess pid).1 else polled.1
  (left, ⟨polled.2, actions⟩)

/-- Every posted signal is acted on once, unless the process is gone, and nothing else is acted on. -/
structure Acts (t : Handlers) (posted : List Int) (actions : List Action) : Prop where
  each : ∀ sig ∈ posted, ∀ a, t.action sig = some a → actions.count a = 1 ∨ ∃ code, .exit code ∈ actions
  only : ∀ a ∈ actions, ∃ sig ∈ posted, t.action sig = some a

/-! ### The loop over the bits -/

variable {t : Handlers} {word : Word}

theorem sigToBit_bitToSig {bit : Nat} (h : bit < 9) : sigToBit (bitToSig bit) = some bit := by
  revert bit
  decide

theorem bitToSig_pos {bit : Nat} (h : bit < 9) : 0 < bitToSig bit := by
  revert bit
  decide

theorem sig_of_call {sig sig' : Int} {handler : Nat} (h : t.action sig = some (.call handler sig')) : sig' = sig := by
  unfold Handlers.action at h
  split at h
  · cases h
  · split at h
    · cases h
    · split at h
      · cases h
      · cases h
        rfl

/-- The loop acts on the signals whose bits are set. -/
theorem runBits_acts {bits : List Nat} (hbits : ∀ b ∈ bits, b < 9) (hnodup : bits.Nodup) :
    Acts t ((bits.filter word.getLsbD).map bitToSig) (t.runBits word bits) := by
  induction bits with
  | nil => exact ⟨fun sig hsig => absurd hsig (List.not_mem_nil), fun a ha => absurd ha (List.not_mem_nil)⟩
  | cons bit bits ih =>
    have hlt := hbits bit List.mem_cons_self
    obtain ⟨hnew, hnodup⟩ := List.nodup_cons.1 hnodup
    have hrest := ih (fun b hb => hbits b (List.mem_cons_of_mem bit hb)) hnodup
    have hpos := bitToSig_pos hlt
    unfold Handlers.runBits
    by_cases hset : word.getLsbD bit = true
    · have hfilter : (bit :: bits).filter word.getLsbD = bit :: bits.filter word.getLsbD := List.filter_cons_of_pos hset
      rw [hfilter, if_neg (by simp [hset]), if_neg (by omega), List.map_cons]
      split
      · rename_i hnone
        refine ⟨fun sig hsig a ha => ?_, fun a ha => ?_⟩
        · rcases List.mem_cons.1 hsig with rfl | hsig
          · rw [hnone] at ha
            cases ha
          · exact hrest.each sig hsig a ha
        · obtain ⟨sig, hsig, haction⟩ := hrest.only a ha
          exact ⟨sig, List.mem_cons_of_mem _ hsig, haction⟩
      · rename_i code hexit
        refine ⟨fun sig hsig a ha => .inr ⟨code, List.mem_singleton_self _⟩, fun a ha => ?_⟩
        rw [List.mem_singleton.1 ha]
        exact ⟨_, List.mem_cons_self, hexit⟩
      · rename_i handler sig' hcall
        cases sig_of_call hcall
        -- a call of this signal's handler is no action of a later bit
        have hfresh : Action.call handler (bitToSig bit) ∉ t.runBits word bits := by
          intro hmem
          obtain ⟨sig, hsig, haction⟩ := hrest.only _ hmem
          obtain ⟨b, hb, rfl⟩ := List.mem_map.1 hsig
          have hbmem := (List.mem_filter.1 hb).1
          have hsame := sig_of_call haction
          have heq := sigToBit_bitToSig hlt
          rw [hsame, sigToBit_bitToSig (hbits b (List.mem_cons_of_mem bit hbmem)), Option.some.injEq] at heq
          exact hnew (heq ▸ hbmem)
        refine ⟨fun sig hsig a ha => ?_, fun a ha => ?_⟩
        · rcases List.mem_cons.1 hsig with rfl | hsig
          · rw [hcall, Option.some.injEq] at ha
            subst ha
            left
            rw [List.count_cons_self, List.count_eq_zero.2 hfresh]
          · rcases hrest.each sig hsig a ha with hone | ⟨code, hcode⟩
            · left
              have hmem : a ∈ t.runBits word bits := List.count_pos_iff.1 (by omega)
              have hne : Action.call handler (bitToSig bit) ≠ a := fun heq => hfresh (heq ▸ hmem)
              rw [List.count_cons_of_ne hne, hone]
            · exact .inr ⟨code, List.mem_cons_of_mem _ hcode⟩
        · rcases List.mem_cons.1 ha with rfl | ha
          · exact ⟨_, List.mem_cons_self, hcall⟩
          · obtain ⟨sig, hsig, haction⟩ := hrest.only a ha
            exact ⟨sig, List.mem_cons_of_mem _ hsig, haction⟩
    · have hfilter : (bit :: bits).filter word.getLsbD = bits.filter word.getLsbD := List.filter_cons_of_neg hset
      rw [hfilter, if_pos (by simpa using hset)]
      exact hrest

/-! ### A process and its signals -/

/-- The scheduler and the handlers of one process, with the signals posted to it since its last dispatch. -/
structure Signalled where
  sched : Scheduler
  handlers : Handlers
  posted : List Int

/-- What happens to the process: any process posts a signal or sends a message to any process, and the process itself
registers a handler or dispatches. -/
inductive SignalOp where
  | kill (pid : Nat) (sig : Int)
  | send (fromPid toPid : Nat) (msg : Message)
  | signal (signum : Int) (handler : Nat)
  | dispatch

namespace Signalled

/-- A step of the system, as the process `pid` sees it. -/
def step (pid : Nat) (x : Signalled) : SignalOp → Option (Signalled × Option Dispatched)
  | .kill target sig =>
    let out := kill x.sched target sig
    some ({ x with sched := out.1, posted := if out.2 && target == pid then x.posted ++ [sig] else x.posted }, none)
  | .send fromPid toPid msg => some ({ x with sched := (x.sched.sendMessage fromPid toPid msg).1 }, none)
  | .signal signum handler => some ({ x with handlers := (x.handlers.signal signum handler).1 }, none)
  | .dispatch =>
    match x.sched.getProcess pid with
    | none => none
    | some _ =>
      let out := signalDispatch x.sched x.handlers pid
      some ({ x with sched := out.1, posted := [] }, some out.2)

/-- A dispatch acts on the posted signals, and leaves the messages in the mailbox. -/
def Meets (pid : Nat) (x : Signalled) (op : SignalOp) : Prop :=
  ∀ y d, x.step pid op = some (y, some d) → Acts x.handlers x.posted d.actions ∧ d.taken = none

/-- At a dispatch no message waits, and the posted signals are ignored ones. -/
def Quiet (pid : Nat) (x : Signalled) (op : SignalOp) : Prop :=
  match op, x.sched.getProcess pid with
  | .dispatch, some p => p.mailbox.contents = [] ∧ ∀ sig ∈ x.posted, x.handlers.action sig = none
  | _, _ => True

end Signalled

/-! ### The poll -/

variable {s : Scheduler} {pid : Nat} {p : Pcb}

/-- The poll takes the oldest message. -/
theorem taken_signalDispatch (h : s.getProcess pid = some p) : (signalDispatch s t pid).2.taken = p.mailbox.contents.head? := by
  have hpoll : (signalDispatch s t pid).2.taken = (s.blockingReceive pid 0).2 := rfl
  rw [hpoll, ← p.mailbox.receive_eq.1]
  unfold Scheduler.blockingReceive
  rw [h]
  dsimp only
  cases hreceive : p.mailbox.receive with
  | mk q msg =>
    cases msg with
    | none => rfl
    | some m => rfl

/-- Without a message there is no action. -/
theorem actions_signalDispatch (h : (signalDispatch s t pid).2.taken = none) : (signalDispatch s t pid).2.actions = [] := by
  have hpoll : (s.blockingReceive pid 0).2 = none := h
  unfold signalDispatch
  simp only [hpoll, true_or, if_true]

namespace Signalled

/-- A dispatch does what it should exactly when there is nothing to do. -/
theorem meets_iff (pid : Nat) (x : Signalled) (op : SignalOp) : x.Meets pid op ↔ x.Quiet pid op := by
  cases op with
  | kill target sig => exact ⟨fun _ => trivial, fun _ y d h => by cases h⟩
  | send fromPid toPid msg => exact ⟨fun _ => trivial, fun _ y d h => by cases h⟩
  | signal signum handler => exact ⟨fun _ => trivial, fun _ y d h => by cases h⟩
  | dispatch =>
    unfold Meets Quiet step
    cases hp : x.sched.getProcess pid with
    | none => exact ⟨fun _ => trivial, fun _ y d h => by cases h⟩
    | some p =>
      have htaken := taken_signalDispatch (t := x.handlers) hp
      dsimp only
      constructor
      · intro h
        obtain ⟨hacts, hnone⟩ := h _ _ rfl
        have hempty : p.mailbox.contents = [] := by
          rw [htaken] at hnone
          exact List.head?_eq_none_iff.1 hnone
        refine ⟨hempty, fun sig hsig => ?_⟩
        rw [actions_signalDispatch hnone] at hacts
        cases haction : x.handlers.action sig with
        | none => rfl
        | some a =>
          rcases hacts.each sig hsig a haction with hone | ⟨code, hcode⟩
          · cases hone
          · cases hcode
      · rintro ⟨hempty, hignored⟩ y d h
        have hnone : (signalDispatch x.sched x.handlers pid).2.taken = none := by
          rw [htaken, hempty]
          rfl
        simp only [Option.some.injEq, Prod.mk.injEq] at h
        rw [← h.2, actions_signalDispatch hnone]
        refine ⟨⟨fun sig hsig a ha => ?_, fun a ha => absurd ha List.not_mem_nil⟩, hnone⟩
        rw [hignored sig hsig] at ha
        cases ha

/-- Every dispatch of a run does what it should exactly when every dispatch finds nothing to do. -/
theorem signals_dispatched (pid : Nat) {x y : Signalled} {es : List (SignalOp × Option Dispatched)} :
    Run (step pid) (Meets pid) x es y ↔ Run (step pid) (Quiet pid) x es y :=
  ⟨fun h => h.mono fun t op => (meets_iff pid t op).1, fun h => h.mono fun t op => (meets_iff pid t op).2⟩

/-- Process 1 runs with no handlers. -/
def boot : Option Signalled :=
  ((Scheduler.new 0).addProcess 0).map fun out => ⟨out.1, .new, []⟩

/-- Process 1 registers a handler for `SIGUSR1`, which is then posted to it; the next dispatch does not call the
handler. -/
theorem signal_lost : ∃ x₀ es x, boot = some x₀ ∧ Run (step 1) (fun _ _ => True) x₀ es x ∧ ¬ x.Meets 1 .dispatch := by
  have hexec : (boot.bind fun x₀ => exec (step 1) (fun _ _ => True) x₀ [.signal 10 0x4000, .kill 1 10]).any (fun out =>
      (out.1.sched.getProcess 1).isSome && decide (out.1.posted = [10] ∧
        out.1.handlers.action 10 = some (.call 0x4000 10))) = true := by decide
  obtain ⟨⟨x, es⟩, hrun, hout⟩ := (Option.any_eq_true _ _).1 hexec
  obtain ⟨x₀, hboot, hrun⟩ := Option.bind_eq_some_iff.1 hrun
  obtain ⟨hproc, hpart⟩ := Bool.and_eq_true_iff.1 hout
  obtain ⟨p, hp⟩ := Option.isSome_iff_exists.1 hproc
  obtain ⟨hposted, haction⟩ := of_decide_eq_true hpart
  refine ⟨x₀, es, x, hboot, run_of_exec hrun, fun hmeets => ?_⟩
  have hquiet := (meets_iff 1 x .dispatch).1 hmeets
  simp only [Quiet, hp] at hquiet
  have hnone := hquiet.2 10 (by rw [hposted]; exact List.mem_singleton_self _)
  rw [haction] at hnone
  cases hnone

end Signalled

end Rost.Libc
