import Rost.Shell.Requests

/-!
# The shell and the file server

The shell sends a request and takes the next message of the file server for its answer; the messages carry nothing that
says which request they answer.  When a command gives up before its answer is there, the answer comes later, and the next
command takes it for its own.  Here the requests of the shell are numbered, and each reply travels with the number of the
request it answers.  The shell gets the answers to its own requests in every run in which it begins a command only when
nothing is left of the ones before (`answers_own`), as it does when it never gives up too early (`settled_of_patient`).
-/

namespace Rost.Shell

open Lib (Run exec run_of_exec)
open Vfs (Env Server Reply ascii)

/-- `VFS_TIMEOUT` -/
def vfsTimeout : Nat := 100

/-- The shell is in no exchange, or in `recv_vfs_msg`, which is draining the mailbox after a receive that returned nothing. -/
inductive Stage where
  | idle
  | waiting (w : Wait) (draining : Bool)

/-- The kernel's scheduler, the server with the messages it has still to send to `client`, and what the shell is at.  The
numbers are those of the request the shell sent last, of its requests that wait for the server, of the one the server
answers, and of those that the messages waiting for the shell answer. -/
structure Dialogue where
  sched : Scheduler
  server : Server
  pending : List Message
  client : Nat
  stage : Stage
  asked : Nat
  queued : List Nat
  answering : Nat
  arriving : List Nat

/-- The shell begins a command, receives in `recv_vfs_msg`, or receives something between two commands; the server takes its
next request, drops a message while it waits for the disk, or sends; or anything else happens. -/
inductive DialogueOp where
  | command (c : Command)
  | recvMsg
  | take (timeoutTicks : Nat)
  | serve (timeoutTicks : Nat)
  | discard (timeoutTicks : Nat)
  | emit
  | other (op : Scheduler.Op)

namespace Dialogue

/-- The shell sends a request; if it is not taken, the command ends. -/
def ask (vfs shell : Nat) (x : Dialogue) (req : Message) (w : Wait) : Dialogue :=
  let out := x.sched.sendMessage shell vfs req
  if out.2 then
    { x with
      sched := out.1
      stage := .waiting w false
      asked := x.asked + 1
      queued := x.queued ++ [x.asked + 1] }
  else { x with sched := out.1, stage := .idle }

/-- The shell has received `msg`. -/
def got (vfs : Nat) (x : Dialogue) (s : Scheduler) (msg : Message) : Dialogue :=
  { x with sched := s, arriving := if msg.sender = vfs then x.arriving.tail else x.arriving }

/-- The server has received `msg`. -/
def heard (shell : Nat) (x : Dialogue) (s : Scheduler) (msg : Message) : Dialogue :=
  { x with sched := s, queued := if msg.sender = shell then x.queued.tail else x.queued }

/-- The command goes on with the message that `recv_vfs_msg` returned. -/
def goOn (vfs shell : Nat) (x : Dialogue) (w : Wait) (msg : Message) : Dialogue :=
  match w.reply msg with
  | .finish => { x with stage := .idle }
  | .again => { x with stage := .waiting w false }
  | .send req w => x.ask vfs shell req w

/-- The server answers a request. -/
def answer (env : Env) (vfs shell : Nat) (x : Dialogue) (req : Message) (number : Nat) : Option Dialogue :=
  (x.server.dispatch env req).map fun out =>
    { x with
      server := out.1
      pending := out.2.map (Reply.message vfs)
      client := req.sender
      answering := if req.sender = shell then number else x.answering }

/-- A step.  When `recv_vfs_msg` returns a message, the result is the number of the request that it answers, and of the one
that the shell sent last. -/
def step (env : Env) (vfs shell : Nat) (x : Dialogue) : DialogueOp → Option (Dialogue × Option (Nat × Nat))
  | .command c =>
    match x.stage with
    | .idle => some (x.ask vfs shell c.start.1 c.start.2, none)
    | .waiting _ _ => none
  | .recvMsg =>
    match x.stage with
    | .idle => none
    | .waiting w draining =>
      match x.sched.blockingReceive shell (if draining then 0 else vfsTimeout) with
      | (s, none) => some ({ x with sched := s, stage := if draining then .idle else .waiting w true }, none)
      | (s, some msg) =>
        if msg.sender = vfs then
          some ((x.got vfs s msg).goOn vfs shell w msg, some (x.arriving.headD 0, x.asked))
        else some (x.got vfs s msg, none)
  | .take timeoutTicks =>
    match x.stage with
    | .waiting _ _ => none
    | .idle =>
      match x.sched.blockingReceive shell timeoutTicks with
      | (s, none) => some ({ x with sched := s }, none)
      | (s, some msg) => some (x.got vfs s msg, none)
  | .serve timeoutTicks =>
    if x.pending ≠ [] then none
    else
      match x.sched.blockingReceive vfs timeoutTicks with
      | (s, none) => some ({ x with sched := s }, none)
      | (s, some req) => ((x.heard shell s req).answer env vfs shell req (x.queued.headD 0)).map fun y => (y, none)
  | .discard timeoutTicks =>
    match x.sched.blockingReceive vfs timeoutTicks with
    | (s, none) => some ({ x with sched := s }, none)
    | (s, some msg) => some (x.heard shell s msg, none)
  | .emit =>
    match x.pending with
    | [] => none
    | m :: rest =>
      let out := x.sched.sendMessage vfs x.client m
      some ({ x with
        sched := out.1
        pending := rest
        arriving := if out.2 ∧ x.client = shell then x.arriving ++ [x.answering] else x.arriving }, none)
  | .other op => (x.sched.step op).map fun out => ({ x with sched := out.1 }, none)

/-- The rest of the system sends nothing between the shell and the server, receives for neither and ends neither. -/
def Foreign (vfs shell : Nat) : DialogueOp → Prop
  | .other op => op.SparesFrom vfs shell ∧ op.SparesFrom shell vfs
  | _ => True

/-- Nothing is on its way between the shell and the server: no request, and no answer. -/
def Settled (vfs shell : Nat) (x : Dialogue) : Prop :=
  x.sched.mailFrom vfs shell = [] ∧ x.sched.mailFrom shell vfs = [] ∧ (x.client = shell → x.pending = [])

/-- A command begins only when everything before it is settled. -/
def Orderly (vfs shell : Nat) (x : Dialogue) : DialogueOp → Prop
  | .command _ => x.Settled vfs shell
  | _ => True

/-- `recv_vfs_msg` gives up only when the server has taken the shell's requests and has nothing more to send to it. -/
def Patient (vfs shell : Nat) (x : Dialogue) : DialogueOp → Prop
  | .recvMsg => ∀ w, x.stage = .waiting w true → x.sched.mail shell = [] →
      x.sched.mailFrom shell vfs = [] ∧ (x.client = shell → x.pending = [])
  | _ => True

/-! ### The exchange -/

variable {env : Env} {vfs shell : Nat} {x y : Dialogue} {op : DialogueOp} {r : Option (Nat × Nat)}

/-- The ways a step can go. -/
inductive StepsTo (env : Env) (vfs shell : Nat) (x : Dialogue) : DialogueOp → Dialogue → Option (Nat × Nat) → Prop where
  | begun {c : Command} (hstage : x.stage = .idle) :
    StepsTo env vfs shell x (.command c) (x.ask vfs shell c.start.1 c.start.2) none
  | waited {w : Wait} {draining : Bool} {s : Scheduler} (hstage : x.stage = .waiting w draining)
      (hout : x.sched.blockingReceive shell (if draining then 0 else vfsTimeout) = (s, none)) :
    StepsTo env vfs shell x .recvMsg { x with sched := s, stage := if draining then .idle else .waiting w true } none
  | replied {w : Wait} {draining : Bool} {s : Scheduler} {msg : Message} (hstage : x.stage = .waiting w draining)
      (hout : x.sched.blockingReceive shell (if draining then 0 else vfsTimeout) = (s, some msg))
      (hsender : msg.sender = vfs) :
    StepsTo env vfs shell x .recvMsg ((x.got vfs s msg).goOn vfs shell w msg) (some (x.arriving.headD 0, x.asked))
  | passedOver {w : Wait} {draining : Bool} {s : Scheduler} {msg : Message} (hstage : x.stage = .waiting w draining)
      (hout : x.sched.blockingReceive shell (if draining then 0 else vfsTimeout) = (s, some msg))
      (hsender : msg.sender ≠ vfs) : StepsTo env vfs shell x .recvMsg (x.got vfs s msg) none
  | tookNone {t : Nat} {s : Scheduler} (hstage : x.stage = .idle) (hout : x.sched.blockingReceive shell t = (s, none)) :
    StepsTo env vfs shell x (.take t) { x with sched := s } none
  | took {t : Nat} {s : Scheduler} {msg : Message} (hstage : x.stage = .idle)
      (hout : x.sched.blockingReceive shell t = (s, some msg)) :
    StepsTo env vfs shell x (.take t) (x.got vfs s msg) none
  | servedNone {t : Nat} {s : Scheduler} (hfree : x.pending = []) (hout : x.sched.blockingReceive vfs t = (s, none)) :
    StepsTo env vfs shell x (.serve t) { x with sched := s } none
  | served {t : Nat} {s : Scheduler} {req : Message} {y : Dialogue} (hfree : x.pending = [])
      (hout : x.sched.blockingReceive vfs t = (s, some req))
      (hanswer : (x.heard shell s req).answer env vfs shell req (x.queued.headD 0) = some y) :
    StepsTo env vfs shell x (.serve t) y none
  | discardedNone {t : Nat} {s : Scheduler} (hout : x.sched.blockingReceive vfs t = (s, none)) :
    StepsTo env vfs shell x (.discard t) { x with sched := s } none
  | discarded {t : Nat} {s : Scheduler} {msg : Message} (hout : x.sched.blockingReceive vfs t = (s, some msg)) :
    StepsTo env vfs shell x (.discard t) (x.heard shell s msg) none
  | emitted {m : Message} {rest : List Message} (hpending : x.pending = m :: rest) :
    StepsTo env vfs shell x .emit { x with
      sched := (x.sched.sendMessage vfs x.client m).1
      pending := rest
      arriving := if (x.sched.sendMessage vfs x.client m).2 ∧ x.client = shell then x.arriving ++ [x.answering]
        else x.arriving } none
  | foreign {op : Scheduler.Op} {s : Scheduler} {ret : Scheduler.Ret} (hother : x.sched.step op = some (s, ret)) :
    StepsTo env vfs shell x (.other op) { x with sched := s } none

theorem stepsTo (hstep : x.step env vfs shell op = some (y, r)) : StepsTo env vfs shell x op y r := by
  cases op with
  | command c =>
    unfold step at hstep
    dsimp only at hstep
    split at hstep
    · rename_i hstage
      cases hstep
      exact .begun hstage
    · cases hstep
  | recvMsg =>
    unfold step at hstep
    dsimp only at hstep
    split at hstep
    · cases hstep
    · rename_i w draining hstage
      split at hstep
      · rename_i s hout
        cases hstep
        exact .waited hstage hout
      · rename_i s msg hout
        split at hstep
        · rename_i hsender
          cases hstep
          exact .replied hstage hout hsender
        · rename_i hsender
          cases hstep
          exact .passedOver hstage hout hsender
  | take t =>
    unfold step at hstep
    dsimp only at hstep
    split at hstep
    · cases hstep
    · rename_i hstage
      split at hstep
      · rename_i s hout
        cases hstep
        exact .tookNone hstage hout
      · rename_i s msg hout
        cases hstep
        exact .took hstage hout
  | serve t =>
    unfold step at hstep
    dsimp only at hstep
    split at hstep
    · cases hstep
    · rename_i hfree
      split at hstep
      · rename_i s hout
        cases hstep
        exact .servedNone (not_not.1 hfree) hout
      · rename_i s req hout
        obtain ⟨z, hanswer, heq⟩ := Option.map_eq_some_iff.1 hstep
        cases heq
        exact .served (not_not.1 hfree) hout hanswer
  | discard t =>
    unfold step at hstep
    dsimp only at hstep
    split at hstep
    · rename_i s hout
      cases hstep
      exact .discardedNone hout
    · rename_i s msg hout
      cases hstep
      exact .discarded hout
  | emit =>
    unfold step at hstep
    dsimp only at hstep
    split at hstep
    · cases hstep
    · rename_i m rest hpending
      cases hstep
      exact .emitted hpending
  | other op =>
    obtain ⟨⟨s, ret⟩, hother, heq⟩ := Option.map_eq_some_iff.1 hstep
    cases heq
    exact .foreign hother

/-- What the server has still to send to the shell. -/
def owed (shell : Nat) (x : Dialogue) : List Message := if x.client = shell then x.pending else []

/-- There is a number for every message between the shell and the server. -/
structure Numbered (vfs shell : Nat) (x : Dialogue) : Prop where
  arriving : x.arriving.length = (x.sched.mailFrom vfs shell).length
  queued : x.queued.length = (x.sched.mailFrom shell vfs).length

/-- While the shell waits for `w`: everything between it and the server belongs to its last request, which the server has
taken before it answers, and the shell receives again after every answer but the last. -/
structure Waits (vfs shell : Nat) (x : Dialogue) (w : Wait) : Prop where
  arriving : ∀ n ∈ x.arriving, n = x.asked
  answering : x.owed shell ≠ [] → x.answering = x.asked
  queued : ∀ n ∈ x.queued, n = x.asked
  one : x.queued.length ≤ 1
  first : x.queued ≠ [] → x.arriving = [] ∧ x.owed shell = []
  again : ∀ m ∈ (x.sched.mailFrom vfs shell ++ x.owed shell).dropLast, w.reply m = .again
  fits : ∀ req ∈ x.sched.mailFrom shell vfs, w.Fits req

structure Invariant (vfs shell : Nat) (x : Dialogue) : Prop where
  numbered : x.Numbered vfs shell
  waits : ∀ w draining, x.stage = .waiting w draining → x.Waits vfs shell w

theorem owed_eq_nil (h : x.Settled vfs shell) : x.owed shell = [] := by
  unfold owed
  by_cases hclient : x.client = shell
  · rw [if_pos hclient, h.2.2 hclient]
  · rw [if_neg hclient]

/-- The shell sends a request when everything is settled. -/
theorem invariant_ask {req : Message} {w : Wait} (hne : vfs ≠ shell) (hnum : x.Numbered vfs shell)
    (hsettled : x.Settled vfs shell) (hfits : w.Fits req) : (x.ask vfs shell req w).Invariant vfs shell := by
  have hback : ∀ s ok, x.sched.sendMessage shell vfs req = (s, ok) → s.mailFrom vfs shell = x.sched.mailFrom vfs shell := by
    intro s ok hout
    have hsame := x.sched.mailFrom_sendMessage_of_ne req (show ¬ (shell = vfs ∧ vfs = shell) from fun h => hne h.2)
    rw [hout] at hsame
    exact hsame
  have harriving : x.arriving = [] := by
    apply List.eq_nil_of_length_eq_zero
    rw [hnum.arriving, hsettled.1]
    rfl
  have hqueued : x.queued = [] := by
    apply List.eq_nil_of_length_eq_zero
    rw [hnum.queued, hsettled.2.1]
    rfl
  have howed := owed_eq_nil hsettled
  unfold ask
  cases hout : x.sched.sendMessage shell vfs req with
  | mk s ok =>
    have hmail := hback s ok hout
    cases ok with
    | false =>
      refine ⟨⟨?_, ?_⟩, fun w d hstage => by cases hstage⟩
      · show x.arriving.length = (s.mailFrom vfs shell).length
        rw [hmail]
        exact hnum.arriving
      · show x.queued.length = (s.mailFrom shell vfs).length
        rw [Scheduler.mailFrom_sendMessage_refused hout]
        exact hnum.queued
    | true =>
      have hsent : s.mailFrom shell vfs = [{ req with sender := shell }] := by
        rw [Scheduler.mailFrom_sendMessage hout, hsettled.2.1]
        rfl
      refine ⟨⟨?_, ?_⟩, fun w' d hstage => ?_⟩
      · show x.arriving.length = (s.mailFrom vfs shell).length
        rw [hmail]
        exact hnum.arriving
      · show (x.queued ++ [x.asked + 1]).length = (s.mailFrom shell vfs).length
        rw [hsent, hqueued]
        rfl
      · cases hstage
        refine ⟨?_, ?_, ?_, ?_, ?_, ?_, ?_⟩
        · show ∀ n ∈ x.arriving, n = x.asked + 1
          rw [harriving]
          simp
        · exact fun h => absurd howed h
        · show ∀ n ∈ x.queued ++ [x.asked + 1], n = x.asked + 1
          rw [hqueued]
          simp
        · show (x.queued ++ [x.asked + 1]).length ≤ 1
          rw [hqueued]
          simp
        · exact fun _ => ⟨harriving, howed⟩
        · show ∀ m ∈ (s.mailFrom vfs shell ++ x.owed shell).dropLast, w.reply m = .again
          rw [hmail, hsettled.1, howed]
          simp
        · show ∀ req ∈ s.mailFrom shell vfs, w.Fits req
          rw [hsent]
          simp only [List.mem_singleton]
          rintro m rfl
          exact hfits

/-- Nothing changes between the shell and the server. -/
theorem Invariant.congr (hinv : x.Invariant vfs shell) (hreplies : y.sched.mailFrom vfs shell = x.sched.mailFrom vfs shell)
    (hrequests : y.sched.mailFrom shell vfs = x.sched.mailFrom shell vfs) (harriving : y.arriving = x.arriving)
    (hqueued : y.queued = x.queued) (hasked : y.asked = x.asked) (hanswering : y.answering = x.answering)
    (howed : y.owed shell = x.owed shell) (hstage : ∀ w d, y.stage = .waiting w d → ∃ d', x.stage = .waiting w d') :
    y.Invariant vfs shell := by
  refine ⟨⟨?_, ?_⟩, fun w d hw => ?_⟩
  · rw [harriving, hreplies]
    exact hinv.numbered.arriving
  · rw [hqueued, hrequests]
    exact hinv.numbered.queued
  · obtain ⟨d', hw'⟩ := hstage w d hw
    obtain ⟨h₁, h₂, h₃, h₄, h₅, h₆, h₇⟩ := hinv.waits w d' hw'
    refine ⟨?_, ?_, ?_, ?_, ?_, ?_, ?_⟩
    · rw [harriving, hasked]
      exact h₁
    · rw [howed, hanswering, hasked]
      exact h₂
    · rw [hqueued, hasked]
      exact h₃
    · rw [hqueued]
      exact h₄
    · rw [hqueued, harriving, howed]
      exact h₅
    · rw [hreplies, howed]
      exact h₆
    · rw [hrequests]
      exact h₇

/-- A receive that finds nothing. -/
private theorem Invariant.missed {pid t : Nat} {s : Scheduler} (hinv : x.Invariant vfs shell)
    (hout : x.sched.blockingReceive pid t = (s, none)) : ({ x with sched := s } : Dialogue).Invariant vfs shell :=
  hinv.congr (Scheduler.mailFrom_blockingReceive_none hout vfs shell)
    (Scheduler.mailFrom_blockingReceive_none hout shell vfs) rfl rfl rfl rfl rfl fun _ d hw => ⟨d, hw⟩

/-! ### The shell receives -/

section Got

variable {s : Scheduler} {msg : Message} {t : Nat} {w : Wait}

private theorem requests_got (hne : vfs ≠ shell) (hout : x.sched.blockingReceive shell t = (s, some msg)) :
    (x.got vfs s msg).sched.mailFrom shell vfs = x.sched.mailFrom shell vfs := by
  have hsame := x.sched.mailFrom_blockingReceive_of_ne t shell hne.symm
  rw [hout] at hsame
  exact hsame

private theorem numbered_got (hne : vfs ≠ shell) (hnum : x.Numbered vfs shell)
    (hout : x.sched.blockingReceive shell t = (s, some msg)) : (x.got vfs s msg).Numbered vfs shell := by
  have harriving := hnum.arriving
  rw [Scheduler.mailFrom_blockingReceive hout] at harriving
  refine ⟨?_, ?_⟩
  · show (if msg.sender = vfs then x.arriving.tail else x.arriving).length = (s.mailFrom vfs shell).length
    split
    · rename_i hsender
      rw [if_pos hsender, List.length_cons] at harriving
      rw [List.length_tail, harriving]
      rfl
    · rename_i hsender
      rw [if_neg hsender] at harriving
      exact harriving
  · rw [requests_got hne hout]
    exact hnum.queued

/-- A message of the server, while the shell waits. -/
private structure Head (vfs shell : Nat) (x : Dialogue) (s : Scheduler) (msg : Message) : Prop where
  replies : x.sched.mailFrom vfs shell = msg :: s.mailFrom vfs shell
  number : ∃ rest, x.arriving = x.asked :: rest ∧ (x.got vfs s msg).arriving = rest
  requests : x.queued = []

private theorem head_of_waits (hnum : x.Numbered vfs shell) (hw : x.Waits vfs shell w)
    (hout : x.sched.blockingReceive shell t = (s, some msg)) (hsender : msg.sender = vfs) : Head vfs shell x s msg := by
  have hreplies := Scheduler.mailFrom_blockingReceive hout vfs
  rw [if_pos hsender] at hreplies
  have hlength := hnum.arriving
  rw [hreplies, List.length_cons] at hlength
  cases harriving : x.arriving with
  | nil =>
    rw [harriving] at hlength
    cases hlength
  | cons n rest =>
    have hn : n = x.asked := hw.arriving n (by rw [harriving]; exact List.mem_cons_self)
    refine ⟨hreplies, ⟨rest, by rw [harriving, hn], ?_⟩, ?_⟩
    · show (if msg.sender = vfs then x.arriving.tail else x.arriving) = rest
      rw [if_pos hsender, harriving]
      rfl
    · by_contra hqueued
      have hnil := (hw.first hqueued).1
      rw [harriving] at hnil
      cases hnil

/-- After the last answer everything is settled. -/
private theorem settled_got (hne : vfs ≠ shell) (hnum : x.Numbered vfs shell) (hw : x.Waits vfs shell w)
    (hout : x.sched.blockingReceive shell t = (s, some msg)) (hsender : msg.sender = vfs) (hlast : w.reply msg ≠ .again) :
    (x.got vfs s msg).Settled vfs shell := by
  obtain ⟨hreplies, -, hrequests⟩ := head_of_waits hnum hw hout hsender
  have hnil : s.mailFrom vfs shell ++ x.owed shell = [] := by
    by_contra hrest
    refine hlast (hw.again msg ?_)
    rw [hreplies, List.cons_append, List.dropLast_cons_of_ne_nil hrest]
    exact List.mem_cons_self
  obtain ⟨hmail, howed⟩ := List.append_eq_nil_iff.1 hnil
  refine ⟨hmail, ?_, ?_⟩
  · have hlength := hnum.queued
    rw [hrequests] at hlength
    rw [requests_got hne hout]
    exact List.eq_nil_of_length_eq_zero hlength.symm
  · intro hclient
    unfold owed at howed
    rw [if_pos (show x.client = shell from hclient)] at howed
    exact howed

private theorem invariant_goOn (hne : vfs ≠ shell) (hnum : x.Numbered vfs shell) (hw : x.Waits vfs shell w)
    (hout : x.sched.blockingReceive shell t = (s, some msg)) (hsender : msg.sender = vfs) :
    ((x.got vfs s msg).goOn vfs shell w msg).Invariant vfs shell := by
  have hnum' := numbered_got hne hnum hout
  obtain ⟨hreplies, ⟨rest, hhead, htail⟩, hrequests⟩ := head_of_waits hnum hw hout hsender
  unfold goOn
  cases hreply : w.reply msg with
  | finish => exact ⟨⟨hnum'.arriving, hnum'.queued⟩, fun w d hstage => by cases hstage⟩
  | again =>
    refine ⟨⟨hnum'.arriving, hnum'.queued⟩, fun w' d hstage => ?_⟩
    cases hstage
    refine ⟨?_, hw.answering, hw.queued, hw.one, fun h => absurd hrequests h, ?_, ?_⟩
    · show ∀ n ∈ (x.got vfs s msg).arriving, n = x.asked
      rw [htail]
      intro n hn
      exact hw.arriving n (by rw [hhead]; exact List.mem_cons_of_mem _ hn)
    · show ∀ m ∈ (s.mailFrom vfs shell ++ x.owed shell).dropLast, w.reply m = .again
      intro m hm
      apply hw.again m
      rw [hreplies, List.cons_append]
      have hrest : s.mailFrom vfs shell ++ x.owed shell ≠ [] := by
        intro hnil
        rw [hnil] at hm
        cases hm
      rw [List.dropLast_cons_of_ne_nil hrest]
      exact List.mem_cons_of_mem _ hm
    · show ∀ req ∈ (x.got vfs s msg).sched.mailFrom shell vfs, w.Fits req
      rw [requests_got hne hout]
      exact hw.fits
  | send req w' =>
    exact invariant_ask hne hnum' (settled_got hne hnum hw hout hsender (by rw [hreply]; simp)) (Wait.fits_reply hreply)

end Got

/-! ### The server receives and sends -/

section Heard

variable {s : Scheduler} {req : Message} {t : Nat}

private theorem replies_heard (hne : vfs ≠ shell) (hout : x.sched.blockingReceive vfs t = (s, some req)) :
    s.mailFrom vfs shell = x.sched.mailFrom vfs shell := by
  have hsame := x.sched.mailFrom_blockingReceive_of_ne t vfs hne
  rw [hout] at hsame
  exact hsame

private theorem invariant_heard (hne : vfs ≠ shell) (hinv : x.Invariant vfs shell)
    (hout : x.sched.blockingReceive vfs t = (s, some req)) : (x.heard shell s req).Invariant vfs shell := by
  have hreplies := replies_heard hne hout
  have hrequests := Scheduler.mailFrom_blockingReceive hout shell
  by_cases hsender : req.sender = shell
  · rw [if_pos hsender] at hrequests
    have hqueued : (x.heard shell s req).queued = x.queued.tail := if_pos hsender
    refine ⟨⟨?_, ?_⟩, fun w d hstage => ?_⟩
    · show x.arriving.length = (s.mailFrom vfs shell).length
      rw [hreplies]
      exact hinv.numbered.arriving
    · have hlength := hinv.numbered.queued
      rw [hrequests, List.length_cons] at hlength
      rw [hqueued, List.length_tail, hlength]
      rfl
    · have hw := hinv.waits w d hstage
      have hone := hw.one
      have hnil : (x.heard shell s req).queued = [] := by
        apply List.eq_nil_of_length_eq_zero
        rw [hqueued, List.length_tail]
        omega
      refine ⟨hw.arriving, hw.answering, ?_, ?_, fun h => absurd hnil h, ?_, ?_⟩
      · rw [hnil]
        simp
      · rw [hnil]
        simp
      · show ∀ m ∈ (s.mailFrom vfs shell ++ x.owed shell).dropLast, w.reply m = .again
        rw [hreplies]
        exact hw.again
      · intro m hm
        exact hw.fits m (by rw [hrequests]; exact List.mem_cons_of_mem _ hm)
  · rw [if_neg hsender] at hrequests
    exact hinv.congr hreplies hrequests.symm rfl (if_neg hsender) rfl rfl rfl fun w d hstage => ⟨d, hstage⟩

/-- The server begins to answer. -/
private theorem invariant_answer (hne : vfs ≠ shell) (hinv : x.Invariant vfs shell) (hfree : x.pending = [])
    (hout : x.sched.blockingReceive vfs t = (s, some req))
    (hanswer : (x.heard shell s req).answer env vfs shell req (x.queued.headD 0) = some y) : y.Invariant vfs shell := by
  have hinv' := invariant_heard hne hinv hout
  have howed : (x.heard shell s req).owed shell = [] := by
    unfold owed
    split
    · exact hfree
    · rfl
  obtain ⟨⟨server, replies⟩, hdispatch, heq⟩ := Option.map_eq_some_iff.1 hanswer
  subst heq
  by_cases hsender : req.sender = shell
  · refine ⟨⟨hinv'.numbered.arriving, hinv'.numbered.queued⟩, fun w d hstage => ?_⟩
    have hw := hinv.waits w d hstage
    have hw' := hinv'.waits w d hstage
    have hrequests := Scheduler.mailFrom_blockingReceive hout shell
    rw [if_pos hsender] at hrequests
    have hlength := hinv.numbered.queued
    rw [hrequests, List.length_cons] at hlength
    cases hqueued : x.queued with
    | nil =>
      rw [hqueued] at hlength
      cases hlength
    | cons n rest =>
      have hn : n = x.asked := hw.queued n (by rw [hqueued]; exact List.mem_cons_self)
      have hfirst : x.queued ≠ [] := by
        rw [hqueued]
        exact List.cons_ne_nil n rest
      have hrest : (x.heard shell s req).queued = [] := by
        show (if req.sender = shell then x.queued.tail else x.queued) = []
        have hone := hw.one
        rw [hqueued, List.length_cons] at hone
        rw [if_pos hsender, hqueued, List.tail_cons]
        exact List.eq_nil_of_length_eq_zero (by omega)
      have hreplies : s.mailFrom vfs shell = [] := by
        rw [replies_heard hne hout]
        apply List.eq_nil_of_length_eq_zero
        rw [← hinv.numbered.arriving, (hw.first hfirst).1]
        rfl
      refine ⟨hw'.arriving, fun _ => ?_, hw'.queued, hw'.one, fun h => absurd hrest h, ?_, hw'.fits⟩
      · show (if req.sender = shell then (n :: rest).headD 0 else x.answering) = x.asked
        rw [if_pos hsender, List.headD_cons, hn]
      · show ∀ m ∈ (s.mailFrom vfs shell ++ (if req.sender = shell then replies.map (Reply.message vfs) else [])).dropLast,
          w.reply m = .again
        rw [hreplies, List.nil_append, if_pos hsender]
        intro m hm
        rw [← List.map_dropLast] at hm
        obtain ⟨reply, hreply, rfl⟩ := List.mem_map.1 hm
        have hfits := hw.fits req (by rw [hrequests]; exact List.mem_cons_self)
        exact hfits env x.server req.sender vfs server replies hdispatch reply hreply
  · refine hinv'.congr rfl rfl rfl rfl rfl (if_neg hsender) ?_ fun w d hstage => ⟨d, hstage⟩
    rw [howed]
    exact if_neg hsender

end Heard

private theorem mem_dropLast_of_fewer {l rest : List Message} {m a : Message} (h : a ∈ (l ++ rest).dropLast) :
    a ∈ (l ++ m :: rest).dropLast := by
  rw [List.dropLast_append_cons]
  cases rest with
  | nil =>
    rw [List.append_nil] at h
    exact List.mem_append_left _ (List.dropLast_subset l h)
  | cons b rest =>
    rw [List.dropLast_append_cons] at h
    rw [List.dropLast_cons_of_ne_nil (List.cons_ne_nil b rest)]
    rcases List.mem_append.1 h with hl | hr
    · exact List.mem_append_left _ hl
    · exact List.mem_append_right _ (List.mem_cons_of_mem m hr)

/-- What the command does depends on the words of the reply only. -/
private theorem reply_stamp (w : Wait) (m : Message) (pid : Nat) : w.reply { m with sender := pid } = w.reply m := by
  cases w <;> rfl

/-- The server has sent its next message to the shell, or the kernel has refused it. -/
private theorem waits_emit {w : Wait} {m : Message} {rest : List Message} (hw : x.Waits vfs shell w)
    (howed : x.owed shell = m :: rest) (hrequests : y.sched.mailFrom shell vfs = x.sched.mailFrom shell vfs) (hasked : y.asked = x.asked) (hqueued : y.queued = x.queued)
    (hanswering : y.answering = x.answering) (hrest : y.owed shell = rest)
    (hsent : (y.arriving = x.arriving ++ [x.answering] ∧
        y.sched.mailFrom vfs shell = x.sched.mailFrom vfs shell ++ [{ m with sender := vfs }]) ∨
      (y.arriving = x.arriving ∧ y.sched.mailFrom vfs shell = x.sched.mailFrom vfs shell)) : y.Waits vfs shell w := by
  have hnumber : x.answering = x.asked := hw.answering (by rw [howed]; exact List.cons_ne_nil m rest)
  have hempty : x.queued = [] := by
    by_contra hne
    have hnil := (hw.first hne).2
    rw [howed] at hnil
    cases hnil
  have hagain := hw.again
  rw [howed] at hagain
  refine ⟨?_, fun _ => by rw [hanswering, hasked, hnumber], ?_, ?_, fun h => absurd (hqueued.trans hempty) h, ?_, ?_⟩
  · rw [hasked]
    rcases hsent with ⟨harriving, -⟩ | ⟨harriving, -⟩
    · rw [harriving, hnumber]
      intro n hn
      rcases List.mem_append.1 hn with hn | hn
      · exact hw.arriving n hn
      · exact List.mem_singleton.1 hn
    · rw [harriving]
      exact hw.arriving
  · rw [hqueued, hempty]
    simp
  · rw [hqueued, hempty]
    simp
  · rw [hrest]
    intro a ha
    rcases hsent with ⟨-, hmail⟩ | ⟨-, hmail⟩
    · rw [hmail, List.append_assoc, List.singleton_append, List.dropLast_append_cons] at ha
      rw [List.dropLast_append_cons] at hagain
      rcases List.mem_append.1 ha with hl | hr
      · exact hagain a (List.mem_append_left _ hl)
      · cases rest with
        | nil => cases hr
        | cons b rest =>
          rw [List.dropLast_cons_of_ne_nil (List.cons_ne_nil b rest)] at hr hagain
          rcases List.mem_cons.1 hr with rfl | hr
          · rw [reply_stamp]
            exact hagain m (List.mem_append_right _ List.mem_cons_self)
          · exact hagain a (List.mem_append_right _ (List.mem_cons_of_mem m hr))
    · rw [hmail] at ha
      exact hagain a (mem_dropLast_of_fewer ha)
  · rw [hrequests]
    exact hw.fits

private theorem invariant_emit {m : Message} {rest : List Message} (hne : vfs ≠ shell) (hinv : x.Invariant vfs shell)
    (hpending : x.pending = m :: rest) : ({ x with
      sched := (x.sched.sendMessage vfs x.client m).1
      pending := rest
      arriving := if (x.sched.sendMessage vfs x.client m).2 ∧ x.client = shell then x.arriving ++ [x.answering]
        else x.arriving } : Dialogue).Invariant vfs shell := by
  have hrequests : (x.sched.sendMessage vfs x.client m).1.mailFrom shell vfs = x.sched.mailFrom shell vfs :=
    Scheduler.mailFrom_sendMessage_of_ne m fun h => hne h.1
  by_cases hclient : x.client = shell
  · have howed : x.owed shell = m :: rest := by
      unfold owed
      rw [if_pos hclient, hpending]
    have hqueued := hinv.numbered.queued
    have harriving := hinv.numbered.arriving
    cases hout : x.sched.sendMessage vfs x.client m with
    | mk s ok =>
      rw [hout] at hrequests
      have hout' : x.sched.sendMessage vfs shell m = (s, ok) := by
        rw [← hclient]
        exact hout
      cases ok with
      | true =>
        have hmail := Scheduler.mailFrom_sendMessage hout'
        refine ⟨⟨?_, ?_⟩, fun w d hstage => ?_⟩
        · show (if true = true ∧ x.client = shell then x.arriving ++ [x.answering] else x.arriving).length =
            (s.mailFrom vfs shell).length
          rw [if_pos ⟨rfl, hclient⟩, hmail, List.length_append, List.length_append, harriving]
          rfl
        · show x.queued.length = (s.mailFrom shell vfs).length
          rw [hrequests]
          exact hqueued
        · exact waits_emit (hinv.waits w d hstage) howed hrequests rfl rfl rfl (if_pos hclient)
            (.inl ⟨if_pos ⟨rfl, hclient⟩, hmail⟩)
      | false =>
        have hmail := Scheduler.mailFrom_sendMessage_refused hout' vfs shell
        refine ⟨⟨?_, ?_⟩, fun w d hstage => ?_⟩
        · show (if false = true ∧ x.client = shell then x.arriving ++ [x.answering] else x.arriving).length =
            (s.mailFrom vfs shell).length
          rw [if_neg fun h => Bool.noConfusion h.1, hmail, harriving]
        · show x.queued.length = (s.mailFrom shell vfs).length
          rw [hrequests]
          exact hqueued
        · have hsame : (if false = true ∧ x.client = shell then x.arriving ++ [x.answering] else x.arriving) = x.arriving :=
            if_neg fun h => Bool.noConfusion h.1
          exact waits_emit (hinv.waits w d hstage) howed hrequests rfl rfl rfl (if_pos hclient) (.inr ⟨hsame, hmail⟩)
  · have hreplies : (x.sched.sendMessage vfs x.client m).1.mailFrom vfs shell = x.sched.mailFrom vfs shell :=
      Scheduler.mailFrom_sendMessage_of_ne m fun h => hclient h.2
    refine hinv.congr hreplies hrequests (if_neg fun h => hclient h.2) rfl rfl rfl ?_ fun w d hstage => ⟨d, hstage⟩
    show (if x.client = shell then rest else []) = x.owed shell
    unfold owed
    rw [if_neg hclient, if_neg hclient]

/-! ### Runs -/

theorem step_spec (hne : vfs ≠ shell) (hinv : x.Invariant vfs shell) (hforeign : Foreign vfs shell op)
    (horderly : x.Orderly vfs shell op) (hstep : x.step env vfs shell op = some (y, r)) :
    y.Invariant vfs shell ∧ ∀ a b, r = some (a, b) → a = b := by
  cases stepsTo hstep with
  | @begun c hstage => exact ⟨invariant_ask hne hinv.numbered horderly c.fits_start, fun a b h => by cases h⟩
  | @waited w draining s hstage hout =>
    refine ⟨?_, fun a b h => by cases h⟩
    refine hinv.congr (Scheduler.mailFrom_blockingReceive_none hout vfs shell)
      (Scheduler.mailFrom_blockingReceive_none hout shell vfs) rfl rfl rfl rfl rfl fun w' d hw' => ?_
    cases draining with
    | true => cases hw'
    | false =>
      cases hw'
      exact ⟨false, hstage⟩
  | @replied w draining s msg hstage hout hsender =>
    have hw := hinv.waits w draining hstage
    refine ⟨invariant_goOn hne hinv.numbered hw hout hsender, ?_⟩
    obtain ⟨-, ⟨rest, hhead, -⟩, -⟩ := head_of_waits hinv.numbered hw hout hsender
    intro a b hab
    rw [hhead] at hab
    cases hab
    rfl
  | passedOver hstage hout hsender =>
    refine ⟨?_, fun a b h => by cases h⟩
    have hreplies := Scheduler.mailFrom_blockingReceive hout vfs
    rw [if_neg hsender] at hreplies
    exact hinv.congr hreplies.symm (requests_got hne hout) (if_neg hsender) rfl rfl rfl rfl fun w d hw => ⟨d, hw⟩
  | tookNone hstage hout => exact ⟨hinv.missed hout, fun a b h => by cases h⟩
  | took hstage hout =>
    refine ⟨⟨numbered_got hne hinv.numbered hout, fun w d hw => ?_⟩, fun a b h => by cases h⟩
    have hwaiting : x.stage = .waiting w d := hw
    rw [hstage] at hwaiting
    cases hwaiting
  | servedNone hfree hout => exact ⟨hinv.missed hout, fun a b h => by cases h⟩
  | served hfree hout hanswer => exact ⟨invariant_answer hne hinv hfree hout hanswer, fun a b h => by cases h⟩
  | discardedNone hout => exact ⟨hinv.missed hout, fun a b h => by cases h⟩
  | discarded hout => exact ⟨invariant_heard hne hinv hout, fun a b h => by cases h⟩
  | emitted hpending => exact ⟨invariant_emit hne hinv hpending, fun a b h => by cases h⟩
  | foreign hother =>
    exact ⟨hinv.congr (Scheduler.mailFrom_step hother hforeign.1) (Scheduler.mailFrom_step hother hforeign.2) rfl rfl rfl
      rfl rfl fun w d hw => ⟨d, hw⟩, fun a b h => by cases h⟩

/-- In a run that begins between two commands, and in which every command begins when nothing is left of the ones before,
each message that `recv_vfs_msg` returns answers the request sent last. -/
theorem answers_own {es : List (DialogueOp × Option (Nat × Nat))} (hne : vfs ≠ shell) (hnum : x.Numbered vfs shell)
    (hidle : x.stage = .idle)
    (hrun : Run (step env vfs shell) (fun z op => Foreign vfs shell op ∧ z.Orderly vfs shell op) x es y) :
    ∀ op answered asked, (op, some (answered, asked)) ∈ es → answered = asked := by
  have hstart : x.Invariant vfs shell := by
    refine ⟨hnum, fun w d hstage => ?_⟩
    rw [hidle] at hstage
    cases hstage
  have hboth : y.Invariant vfs shell ∧ ∀ op a b, (op, some (a, b)) ∈ es → a = b := by
    refine hrun.history (P := fun es z => z.Invariant vfs shell ∧ ∀ op a b, (op, some (a, b)) ∈ es → a = b) ?_
      ⟨hstart, fun op a b hmem => by cases hmem⟩
    rintro es t u i r ⟨hinv, hown⟩ ⟨hforeign, horderly⟩ hstep
    obtain ⟨hinv', hlast⟩ := step_spec hne hinv hforeign horderly hstep
    refine ⟨hinv', fun op a b hmem => ?_⟩
    rcases List.mem_append.1 hmem with hmem | hmem
    · exact hown op a b hmem
    · exact hlast a b (Prod.mk.inj (List.mem_singleton.1 hmem)).2.symm
  exact hboth.2

/-- A request that is refused leaves everything settled. -/
private theorem settled_ask {req : Message} {w : Wait} (hne : vfs ≠ shell) (hsettled : x.Settled vfs shell)
    (hidle : (x.ask vfs shell req w).stage = .idle) : (x.ask vfs shell req w).Settled vfs shell := by
  have hback := x.sched.mailFrom_sendMessage_of_ne req (show ¬ (shell = vfs ∧ vfs = shell) from fun h => hne h.2)
  unfold ask at hidle ⊢
  cases hout : x.sched.sendMessage shell vfs req with
  | mk s ok =>
    rw [hout] at hidle hback
    cases ok with
    | true => cases hidle
    | false =>
      refine ⟨?_, ?_, hsettled.2.2⟩
      · exact hback.trans hsettled.1
      · exact (Scheduler.mailFrom_sendMessage_refused hout shell vfs).trans hsettled.2.1

/-- When the shell has received nothing from the server, nothing is settled that was not. -/
private theorem settled_of_same (hsettled : x.Settled vfs shell)
    (hreplies : y.sched.mailFrom vfs shell = x.sched.mailFrom vfs shell)
    (hrequests : y.sched.mailFrom shell vfs = x.sched.mailFrom shell vfs) (howed : y.client = shell → y.pending = []) :
    y.Settled vfs shell :=
  ⟨hreplies.trans hsettled.1, hrequests.trans hsettled.2.1, howed⟩

/-- A receive that finds nothing leaves everything settled. -/
private theorem Settled.missed {pid t : Nat} {s : Scheduler} (hsettled : x.Settled vfs shell)
    (hout : x.sched.blockingReceive pid t = (s, none)) : ({ x with sched := s } : Dialogue).Settled vfs shell :=
  settled_of_same hsettled (Scheduler.mailFrom_blockingReceive_none hout vfs shell)
    (Scheduler.mailFrom_blockingReceive_none hout shell vfs) hsettled.2.2

/-- A receive of the server finds no request of the shell. -/
private theorem Settled.heard {t : Nat} {s : Scheduler} {req : Message} (hsettled : x.Settled vfs shell)
    (hout : x.sched.blockingReceive vfs t = (s, some req)) : req.sender ≠ shell ∧ s.mailFrom shell vfs = [] := by
  have hrequests := Scheduler.mailFrom_blockingReceive hout shell
  rw [hsettled.2.1] at hrequests
  split at hrequests
  · cases hrequests
  · rename_i hsender
    exact ⟨hsender, hrequests.symm⟩

/-- After a command that did not give up too early, everything is settled. -/
private theorem settled_waited {w : Wait} {draining : Bool} {s : Scheduler} (hpatient : x.Patient vfs shell .recvMsg)
    (hstage : x.stage = .waiting w draining)
    (hout : x.sched.blockingReceive shell (if draining then 0 else vfsTimeout) = (s, none))
    (hidle : (if draining then Stage.idle else .waiting w true) = .idle) :
    ({ x with sched := s, stage := if draining then .idle else .waiting w true } : Dialogue).Settled vfs shell := by
  cases draining with
  | false => cases hidle
  | true =>
    obtain ⟨hempty, hsame⟩ := Scheduler.mail_blockingReceive_none hout
    obtain ⟨hrequests, howed⟩ := hpatient w hstage hempty
    refine ⟨?_, ?_, howed⟩
    · show (s.mail shell).filter _ = []
      rw [hsame, hempty]
      rfl
    · exact (Scheduler.mailFrom_blockingReceive_none hout shell vfs).trans hrequests

/-- A reply after which the command has ended was the last one. -/
private theorem settled_replied {w : Wait} {draining : Bool} {s : Scheduler} {msg : Message} {t : Nat} (hne : vfs ≠ shell)
    (hinv : x.Invariant vfs shell) (hstage : x.stage = .waiting w draining)
    (hout : x.sched.blockingReceive shell t = (s, some msg)) (hsender : msg.sender = vfs)
    (hidle : ((x.got vfs s msg).goOn vfs shell w msg).stage = .idle) :
    ((x.got vfs s msg).goOn vfs shell w msg).Settled vfs shell := by
  have hlast := settled_got hne hinv.numbered (hinv.waits w draining hstage) hout hsender
  unfold goOn at hidle ⊢
  cases hreply : w.reply msg with
  | again => simp [hreply] at hidle
  | finish => exact hlast (by simp [hreply])
  | send req w' =>
    rw [hreply] at hidle hlast
    exact settled_ask hne (hlast (by simp)) hidle

/-- If the shell is settled between two commands, it is so after a step in which it does not give up too early. -/
private theorem settled_step (hne : vfs ≠ shell) (hinv : x.Invariant vfs shell)
    (hsettled : x.stage = .idle → x.Settled vfs shell) (hforeign : Foreign vfs shell op) (hpatient : x.Patient vfs shell op)
    (hstep : x.step env vfs shell op = some (y, r)) (hidle : y.stage = .idle) : y.Settled vfs shell := by
  cases stepsTo hstep with
  | begun hstage => exact settled_ask hne (hsettled hstage) hidle
  | waited hstage hout => exact settled_waited hpatient hstage hout hidle
  | replied hstage hout hsender => exact settled_replied hne hinv hstage hout hsender hidle
  | passedOver hstage hout hsender =>
    have hwaiting : x.stage = .idle := hidle
    rw [hstage] at hwaiting
    cases hwaiting
  | tookNone hstage hout => exact (hsettled hstage).missed hout
  | @took t s msg hstage hout =>
    have hset := hsettled hstage
    have hreplies := Scheduler.mailFrom_blockingReceive hout vfs
    rw [hset.1] at hreplies
    refine ⟨?_, (requests_got hne hout).trans hset.2.1, hset.2.2⟩
    show s.mailFrom vfs shell = []
    split at hreplies
    · cases hreplies
    · exact hreplies.symm
  | servedNone hfree hout => exact (hsettled hidle).missed hout
  | served hfree hout hanswer =>
    obtain ⟨out, -, rfl⟩ := Option.map_eq_some_iff.1 hanswer
    have hset := hsettled hidle
    obtain ⟨hsender, hrequests⟩ := hset.heard hout
    exact ⟨(replies_heard hne hout).trans hset.1, hrequests, fun h => absurd h hsender⟩
  | discardedNone hout => exact (hsettled hidle).missed hout
  | discarded hout =>
    have hset := hsettled hidle
    exact ⟨(replies_heard hne hout).trans hset.1, (hset.heard hout).2, hset.2.2⟩
  | @emitted m rest hpending =>
    have hset := hsettled hidle
    have hclient : x.client ≠ shell := by
      intro h
      have hnil := hset.2.2 h
      rw [hpending] at hnil
      cases hnil
    exact settled_of_same hset (Scheduler.mailFrom_sendMessage_of_ne m fun h => hclient h.2)
      (Scheduler.mailFrom_sendMessage_of_ne m fun h => hne h.1) fun h => absurd h hclient
  | foreign hother =>
    have hset := hsettled hidle
    exact settled_of_same hset (Scheduler.mailFrom_step hother hforeign.1) (Scheduler.mailFrom_step hother hforeign.2)
      hset.2.2

/-- If the shell never gives up too early, everything is settled whenever it begins a command. -/
theorem settled_of_patient {es : List (DialogueOp × Option (Nat × Nat))} (hne : vfs ≠ shell) (hnum : x.Numbered vfs shell)
    (hidle : x.stage = .idle) (hsettled : x.Settled vfs shell)
    (hrun : Run (step env vfs shell) (fun z op => Foreign vfs shell op ∧ z.Patient vfs shell op) x es y) :
    Run (step env vfs shell) (fun z op => Foreign vfs shell op ∧ z.Orderly vfs shell op) x es y := by
  have hall : y.Invariant vfs shell ∧ (y.stage = .idle → y.Settled vfs shell) ∧
      Run (step env vfs shell) (fun z op => Foreign vfs shell op ∧ z.Orderly vfs shell op) x es y := by
    induction hrun with
    | nil =>
      refine ⟨⟨hnum, fun w d hstage => ?_⟩, fun _ => hsettled, .nil _⟩
      rw [hidle] at hstage
      cases hstage
    | snoc hrun hguard hstep ih =>
      rename_i z u es op r
      obtain ⟨hinv, hset, hrun'⟩ := ih
      have horderly : z.Orderly vfs shell op := by
        cases op with
        | command c =>
          cases hstage : z.stage with
          | idle => exact hset hstage
          | waiting w d => simp [step, hstage] at hstep
        | _ => trivial
      exact ⟨(step_spec hne hinv hguard.1 horderly hstep).1, settled_step hne hinv hset hguard.1 hguard.2 hstep,
        hrun'.snoc ⟨hguard.1, horderly⟩ hstep⟩
  exact hall.2.2

instance decidableForeign (vfs shell : Nat) : (op : DialogueOp) → Decidable (Foreign vfs shell op)
  | .other op => inferInstanceAs (Decidable (op.SparesFrom vfs shell ∧ op.SparesFrom shell vfs))
  | .command _ | .recvMsg | .take _ | .serve _ | .discard _ | .emit => .isTrue trivial

instance decidableSettled (vfs shell : Nat) (x : Dialogue) : Decidable (x.Settled vfs shell) :=
  inferInstanceAs (Decidable (_ ∧ _ ∧ (_ → _)))

instance decidableOrderly (vfs shell : Nat) (x : Dialogue) : (op : DialogueOp) → Decidable (x.Orderly vfs shell op)
  | .command _ => decidableSettled vfs shell x
  | .recvMsg | .take _ | .serve _ | .discard _ | .emit | .other _ => .isTrue trivial

/-- The server is process 1, and the shell process 2. -/
def boot : Option Dialogue :=
  Vfs.Delivery.twoProcesses.map fun sched => ⟨sched, .new, [], 0, .idle, 0, [], 0, []⟩

private theorem exists_run {G : Dialogue → DialogueOp → Prop} [∀ z op, Decidable (G z op)] (ops : List DialogueOp)
    (test : List (Option (Nat × Nat)) → Bool)
    (h : (boot.bind fun x => exec (step Server.bareEnv 1 2) G x ops).any (fun out => test (out.2.map Prod.snd)) = true) :
    ∃ x es y, x.Numbered 1 2 ∧ x.stage = .idle ∧ Run (step Server.bareEnv 1 2) G x es y ∧
      test (es.map Prod.snd) = true := by
  obtain ⟨⟨y, es⟩, hexec, htest⟩ := (Option.any_eq_true _ _).1 h
  obtain ⟨x, hboot, hexec⟩ := Option.bind_eq_some_iff.1 hexec
  have hfresh : boot.all (fun x => decide ((x.arriving.length = (x.sched.mailFrom 1 2).length ∧
      x.queued.length = (x.sched.mailFrom 2 1).length)) && x.stage matches .idle) = true := by decide
  rw [hboot] at hfresh
  obtain ⟨hnum, hidle⟩ := Bool.and_eq_true_iff.1 hfresh
  obtain ⟨harriving, hqueued⟩ := of_decide_eq_true hnum
  refine ⟨x, es, y, ⟨harriving, hqueued⟩, ?_, run_of_exec hexec, htest⟩
  cases hstage : x.stage with
  | idle => rfl
  | waiting w d =>
    rw [hstage] at hidle
    cases hidle

/-- The shell asks for the kind of `/etc`, and gets the answer. -/
theorem answers_own_stat : ∃ es : List (DialogueOp × Option (Nat × Nat)), es.map Prod.snd =
    [none, none, none, none, some (1, 1)] ∧ ∀ op answered asked, (op, some (answered, asked)) ∈ es → answered = asked := by
  obtain ⟨x, es, y, hnum, hidle, hrun, htest⟩ := exists_run
    (G := fun z op => Foreign 1 2 op ∧ z.Orderly 1 2 op)
    [.command (.stat (ascii "/etc")), .recvMsg, .serve 0, .emit, .recvMsg]
    (fun rs => decide (rs = [none, none, none, none, some (1, 1)])) (by decide)
  exact ⟨es, of_decide_eq_true htest, answers_own (by decide) hnum hidle hrun⟩

/-- The server is slow: the answer comes when the shell has given up, and the next command takes it for its own. -/
theorem answer_late : ∃ x es y, x.Numbered 1 2 ∧ x.stage = .idle ∧
    Run (step Server.bareEnv 1 2) (fun _ op => Foreign 1 2 op) x es y ∧
    ∃ op, (op, some (1, 2)) ∈ es := by
  obtain ⟨x, es, y, hnum, hidle, hrun, htest⟩ := exists_run (G := fun _ op => Foreign 1 2 op)
    ([.command (.stat (ascii "/etc")), .recvMsg] ++ List.replicate 100 (.other .timerTick) ++
      [.recvMsg, .serve 0, .emit, .command (.read .cat (ascii "/etc/motd")), .recvMsg])
    (fun rs => decide (some (1, 2) ∈ rs)) (by decide +kernel)
  obtain ⟨⟨op, r⟩, hmem, rfl⟩ := List.mem_map.1 (of_decide_eq_true htest)
  exact ⟨x, es, y, hnum, hidle, hrun, op, hmem⟩

end Dialogue

end Rost.Shell
