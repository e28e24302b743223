import Rost.Vfs.Listing
import Rost.Scheduler.Mail

/-!
# A listing on its way to the client

The server answers `OP_READDIR` with a message for each entry, which it sends one after the other without waiting for the
client; `send_msg` fails when the client's mailbox is full, and the handler does not look at its result.  The client gets
the whole listing exactly when its mailbox has room at every send (`Listing.listing_complete`).
-/

namespace Rost.Vfs

open Lib (Run exec run_of_exec)

/-! ### Replies as messages -/

def Errno.code : Errno → Nat
  | .enoent => 1
  | .enotdir => 2
  | .eisdir => 3
  | .enosys => 4
  | .enospc => 5
  | .ebadf => 6
  | .emfile => 7
  | .eacces => 8

/-- Word `k` of the packed bytes. -/
def packedWord (bytes : Bytes) (k : Nat) : Word :=
  (List.range 8).foldl (fun w i => w ||| (bytes.getD (8 * k + i) 0).setWidth 64 <<< (8 * i)) 0

/-- The words of a reply. -/
def Reply.words : Reply → Vector Word dataFields
  | .entry name flags size => #v[0x80, flags, size, packedWord name 0, packedWord name 1, packedWord name 2,
      packedWord name 3, packedWord name 4]
  | .done => #v[0x81, 0, 0, 0, 0, 0, 0, 0]
  | .data total chunk => #v[0x82, total, chunk.length, packedWord chunk 0, packedWord chunk 1, packedWord chunk 2,
      packedWord chunk 3, packedWord chunk 4]
  | .stat flags size => #v[0x83, flags, size, 0, 0, 0, 0, 0]
  | .mount path fstype => #v[0x84, 0, packedWord path 0, packedWord path 1, packedWord path 2, packedWord path 3,
      packedWord fstype 0, packedWord fstype 1]
  | .ok => #v[0x85, 0, 0, 0, 0, 0, 0, 0]
  | .fd n => #v[0x86, n, 0, 0, 0, 0, 0, 0]
  | .error errno => #v[0x8F, errno.code, 0, 0, 0, 0, 0, 0]

/-- The reply in a message of the server. -/
def Reply.message (vfs : Nat) (r : Reply) : Message := ⟨vfs, r.words⟩

/-! ### The server and its client -/

/-- The kernel's scheduler, what the handler has still to send, and what the client has got from the server. -/
structure Delivery where
  sched : Scheduler
  pending : List Message
  received : List Message

/-- The handler sends its next message; the client receives; or the kernel does anything else. -/
inductive DeliveryOp where
  | emit
  | receive (timeoutTicks : Nat)
  | other (op : Scheduler.Op)

/-- The messages of the server. -/
def fromServer (vfs : Nat) (l : List Message) : List Message := l.filter fun m => m.sender == vfs

namespace Delivery

/-- The handler of a listing begins to send. -/
def start (vfs : Nat) (sched : Scheduler) (replies : List Reply) : Delivery := ⟨sched, replies.map (Reply.message vfs), []⟩

/-- A step of the server `vfs`, of its client, or of the rest of the system.  The result of a send is not looked at, and the
client discards what others send. -/
def step (vfs client : Nat) (x : Delivery) : DeliveryOp → Option (Delivery × Scheduler.Ret)
  | .emit =>
    match x.pending with
    | [] => none
    | m :: rest =>
      let out := x.sched.sendMessage vfs client m
      some ({ x with sched := out.1, pending := rest }, .sent out.2)
  | .receive timeoutTicks =>
    let out := x.sched.blockingReceive client timeoutTicks
    some ({ x with sched := out.1, received := x.received ++ fromServer vfs out.2.toList }, .received out.2)
  | .other op => (x.sched.step op).map fun out => ({ x with sched := out.1 }, out.2)

/-- The rest of the system does not send for the server, does not receive for the client and does not end it. -/
def Foreign (vfs client : Nat) (_ : Delivery) : DeliveryOp → Prop
  | .other (.sendMessage fromPid toPid _) => ¬ (fromPid = vfs ∧ toPid = client)
  | .other (.blockingReceive pid _) => pid ≠ client
  | .other (.terminateProcess pid) => pid ≠ client
  | _ => True

/-- The kernel takes the next message: the client is there, its mailbox has a free place, and the server has not used up its
messages. -/
def Room (vfs client : Nat) (x : Delivery) : DeliveryOp → Prop
  | .emit => x.sched.getProcess client ≠ none ∧ (x.sched.mail client).length < queueCapacity ∧
      (x.sched.getProcess vfs).any Scheduler.rateLimited = false
  | _ => True

/-- Everything has been sent, and the client has received what was delivered. -/
def Drained (vfs client : Nat) (x : Delivery) : Prop := x.pending = [] ∧ fromServer vfs (x.sched.mail client) = []

/-- What the client has got, what waits for it, and what has still to be sent. -/
def account (vfs client : Nat) (x : Delivery) : List Message :=
  x.received ++ fromServer vfs (x.sched.mail client) ++ x.pending

/-! ### One step -/

variable {vfs client : Nat} {x y : Delivery} {op : DeliveryOp} {r : Scheduler.Ret}

theorem fromServer_append (l m : List Message) : fromServer vfs (l ++ m) = fromServer vfs l ++ fromServer vfs m :=
  List.filter_append ..

/-- A send is accepted exactly when there is room. -/
theorem sent_iff_room (m : Message) :
    (x.sched.sendMessage vfs client m).2 = true ↔ x.Room vfs client .emit :=
  x.sched.sendMessage_snd_iff vfs client m

/-- The rest of the system changes nothing about the messages of the server. -/
theorem fromServer_other {s s' : Scheduler} {op : Scheduler.Op} (hstep : s.step op = some (s', r))
    (hforeign : x.Foreign vfs client (.other op)) : fromServer vfs (s'.mail client) = fromServer vfs (s.mail client) := by
  have hspares : op.SparesFrom vfs client := by
    cases op with
    | sendMessage | blockingReceive | terminateProcess => exact hforeign
    | _ => trivial
  exact Scheduler.mailFrom_step hstep hspares

/-- A step keeps the account, or loses a message for lack of room. -/
theorem account_step (hforeign : x.Foreign vfs client op) (hpending : ∀ m ∈ x.pending, m.sender = vfs)
    (hstep : x.step vfs client op = some (y, r)) : (∀ m ∈ y.pending, m.sender = vfs) ∧
      ((x.Room vfs client op ∧ y.account vfs client = x.account vfs client) ∨
        (¬ x.Room vfs client op ∧ (y.account vfs client).length < (x.account vfs client).length)) := by
  cases op with
  | emit =>
    unfold step at hstep
    cases hp : x.pending with
    | nil =>
      rw [hp] at hstep
      cases hstep
    | cons m rest =>
      rw [hp] at hstep hpending
      simp only [Option.some.injEq, Prod.mk.injEq] at hstep
      obtain ⟨rfl, -⟩ := hstep
      refine ⟨fun n hn => hpending n (List.mem_cons_of_mem m hn), ?_⟩
      have hstamp : ({ m with sender := vfs } : Message) = m := by rw [← hpending m List.mem_cons_self]
      have hkeep : fromServer vfs [m] = [m] := by simp [fromServer, hpending m List.mem_cons_self]
      have hiff := @sent_iff_room vfs client x m
      unfold account
      dsimp only
      cases hout : x.sched.sendMessage vfs client m with
      | mk s' ok =>
        rw [hout] at hiff
        cases ok with
        | true =>
          refine .inl ⟨hiff.1 rfl, ?_⟩
          rw [Scheduler.mail_sendMessage hout, if_pos rfl, hstamp, fromServer_append, hkeep, hp]
          simp
        | false =>
          refine .inr ⟨fun hroom => (by cases hiff.2 hroom), ?_⟩
          rw [Scheduler.mail_sendMessage_refused hout, hp]
          simp
  | receive t =>
    unfold step at hstep
    simp only [Option.some.injEq, Prod.mk.injEq] at hstep
    obtain ⟨rfl, -⟩ := hstep
    refine ⟨hpending, .inl ⟨trivial, ?_⟩⟩
    unfold account
    dsimp only
    cases hout : x.sched.blockingReceive client t with
    | mk s' msg =>
      cases msg with
      | none =>
        rw [(Scheduler.mail_blockingReceive_none hout).2]
        simp [fromServer]
      | some m =>
        have hcons : fromServer vfs (m :: s'.mail client) = fromServer vfs [m] ++ fromServer vfs (s'.mail client) :=
          fromServer_append [m] _
        rw [Scheduler.mail_blockingReceive hout, hcons]
        simp
  | other op =>
    obtain ⟨⟨s', r'⟩, hother, heq⟩ := Option.map_eq_some_iff.1 hstep
    simp only [Prod.mk.injEq] at heq
    obtain ⟨rfl, -⟩ := heq
    refine ⟨hpending, .inl ⟨trivial, ?_⟩⟩
    unfold account
    dsimp only
    rw [fromServer_other hother hforeign]

/-! ### Every run -/

variable {es : List (DeliveryOp × Scheduler.Ret)}

/-- In a run the account never grows, and if it stays the same there was room at every send. -/
theorem account_run (hrun : Run (step vfs client) (Foreign vfs client) x es y) (hpending : ∀ m ∈ x.pending, m.sender = vfs) :
    (∀ m ∈ y.pending, m.sender = vfs) ∧ (y.account vfs client).length ≤ (x.account vfs client).length ∧
      ((y.account vfs client).length = (x.account vfs client).length →
        Run (step vfs client) (fun z op => z.Foreign vfs client op ∧ z.Room vfs client op) x es y) := by
  induction hrun with
  | nil => exact ⟨hpending, Nat.le_refl _, fun _ => .nil x⟩
  | snoc hrun hforeign hstep ih =>
    obtain ⟨hpend, hle, hroom⟩ := ih
    obtain ⟨hpend', ⟨hok, heq⟩ | ⟨-, hlt⟩⟩ := account_step hforeign hpend hstep
    · rw [heq]
      exact ⟨hpend', hle, fun h => .snoc (hroom h) ⟨hforeign, hok⟩ hstep⟩
    · exact ⟨hpend', by omega, fun h => by omega⟩

/-- With room at every send nothing is lost, and the order is kept. -/
theorem account_eq (hrun : Run (step vfs client) (fun z op => z.Foreign vfs client op ∧ z.Room vfs client op) x es y)
    (hpending : ∀ m ∈ x.pending, m.sender = vfs) : y.account vfs client = x.account vfs client := by
  have hboth : (∀ m ∈ y.pending, m.sender = vfs) ∧ y.account vfs client = x.account vfs client := by
    refine hrun.invariant (P := fun z => (∀ m ∈ z.pending, m.sender = vfs) ∧ z.account vfs client = x.account vfs client)
      ?_ ⟨hpending, rfl⟩
    rintro z w op r ⟨hpend, heq⟩ ⟨hforeign, hroom⟩ hstep
    obtain ⟨hpend', ⟨-, hsame⟩ | ⟨hno, -⟩⟩ := account_step hforeign hpend hstep
    · exact ⟨hpend', hsame.trans heq⟩
    · exact absurd hroom hno
  exact hboth.2

/-- The handler comes to its end. -/
theorem emits (x : Delivery) : ∃ es y, Run (step vfs client) (Foreign vfs client) x es y ∧ y.pending = [] := by
  obtain ⟨sched, pending, received⟩ := x
  induction pending generalizing sched with
  | nil => exact ⟨[], _, .nil _, rfl⟩
  | cons m rest ih =>
    obtain ⟨es, y, hrun, hempty⟩ := ih (sched.sendMessage vfs client m).1
    have hone : Run (step vfs client) (Foreign vfs client) ⟨sched, m :: rest, received⟩ [(.emit, .sent _)]
        ⟨(sched.sendMessage vfs client m).1, rest, received⟩ := Run.single trivial rfl
    exact ⟨_, y, hone.append hrun, hempty⟩

/-- The client comes to the end of its mailbox. -/
theorem receives (x : Delivery) :
    ∃ es y, Run (step vfs client) (Foreign vfs client) x es y ∧ y.pending = x.pending ∧ y.sched.mail client = [] := by
  generalize hmail : x.sched.mail client = l
  induction l generalizing x with
  | nil => exact ⟨[], x, .nil x, rfl, hmail⟩
  | cons m rest ih =>
    cases hout : x.sched.blockingReceive client 0 with
    | mk s' msg =>
      cases msg with
      | none =>
        have hnil := (Scheduler.mail_blockingReceive_none hout).1
        rw [hmail] at hnil
        cases hnil
      | some m' =>
        have hcons := Scheduler.mail_blockingReceive hout
        rw [hmail, List.cons.injEq] at hcons
        have hstep : x.step vfs client (.receive 0) =
            some (⟨s', x.pending, x.received ++ fromServer vfs [m']⟩, .received (some m')) := by
          unfold step
          simp only [hout]
          rfl
        obtain ⟨es, y, hrun, hpending, hempty⟩ := ih ⟨s', x.pending, x.received ++ fromServer vfs [m']⟩ hcons.2.symm
        exact ⟨_, y, (Run.single trivial hstep).append hrun, hpending, hempty⟩

/-- Every run can be continued until everything is sent and received. -/
theorem exists_drained (x : Delivery) :
    ∃ es y, Run (step vfs client) (Foreign vfs client) x es y ∧ y.Drained vfs client := by
  obtain ⟨es, y, hrun, hsent⟩ := @emits vfs client x
  obtain ⟨fs, z, hrun', hpending, hmail⟩ := @receives vfs client y
  exact ⟨_, z, hrun.append hrun', hpending.trans hsent, by rw [hmail]; rfl⟩

/-- When everything is sent and received, the client has got every entry in order and the end of the listing exactly if its
mailbox had room at every send. -/
theorem listing_complete {env : Env} {s : Server} {path : Bytes} {l : Server.Listing} {sched : Scheduler}
    (hlist : s.listing env path = some (.ok l)) (hstart : (s.handleReaddir env path).map (start vfs sched) = some x)
    (hfresh : fromServer vfs (sched.mail client) = []) (hrun : Run (step vfs client) (Foreign vfs client) x es y)
    (hdrained : y.Drained vfs client) :
    x.pending = (l.layers s).flatten.map (Reply.message vfs) ++ [Reply.done.message vfs] ∧
      (y.received = x.pending ↔
        Run (step vfs client) (fun z op => z.Foreign vfs client op ∧ z.Room vfs client op) x es y) := by
  have hx : x = start vfs sched ((l.layers s).flatten ++ [.done]) := by
    rw [Server.handleReaddir_eq, hlist] at hstart
    exact (Option.some.inj hstart).symm
  have haccount : x.account vfs client = x.pending := by
    rw [hx]
    unfold account start
    dsimp only
    rw [hfresh]
    rfl
  have hpending : ∀ m ∈ x.pending, m.sender = vfs := by
    rw [hx]
    intro m hm
    obtain ⟨r, -, rfl⟩ := List.mem_map.1 hm
    rfl
  have hend : y.account vfs client = y.received := by
    unfold account
    rw [hdrained.1, hdrained.2, List.append_nil, List.append_nil]
  refine ⟨by rw [hx]; exact List.map_append, fun hall => ?_, fun hroom => ?_⟩
  · refine (account_run hrun hpending).2.2 ?_
    rw [hend, hall, haccount]
  · rw [← hend, account_eq hroom hpending, haccount]

instance decidableForeign (vfs client : Nat) (x : Delivery) (op : DeliveryOp) : Decidable (x.Foreign vfs client op) := by
  unfold Foreign
  split <;> infer_instance

instance decidableDrained (vfs client : Nat) (x : Delivery) : Decidable (x.Drained vfs client) :=
  inferInstanceAs (Decidable (_ ∧ _))

/-- The server is process 1, and the shell process 2. -/
def twoProcesses : Option Scheduler :=
  ((Scheduler.new 0).addProcess 0).bind fun out => (out.1.addProcess 0).map Prod.fst

/-- The server sends a listing to the shell. -/
def begin (s : Server) (path : Bytes) : Option Delivery :=
  twoProcesses.bind fun sched => (s.handleReaddir Server.bareEnv path).map (start 1 sched)

open Server (bareEnv)

private theorem exists_run {s : Server} {path : Bytes} {ops : List DeliveryOp} (test : Delivery → Delivery → Bool)
    (h : ((begin s path).bind fun x => (exec (step 1 2) (Foreign 1 2) x ops).map fun out => (x, out)).any
      (fun out => decide (out.2.1.Drained 1 2) && test out.1 out.2.1) = true) :
    ∃ sched x es y, twoProcesses = some sched ∧ (s.handleReaddir bareEnv path).map (start 1 sched) = some x ∧
      Run (step 1 2) (Foreign 1 2) x es y ∧ y.Drained 1 2 ∧ test x y = true := by
  obtain ⟨⟨x', y, es⟩, hexec, hout⟩ := (Option.any_eq_true _ _).1 h
  obtain ⟨x, hx, hexec⟩ := Option.bind_eq_some_iff.1 hexec
  obtain ⟨out, hexec, heq⟩ := Option.map_eq_some_iff.1 hexec
  cases heq
  obtain ⟨sched, hsched, hx⟩ := Option.bind_eq_some_iff.1 hx
  obtain ⟨hdrained, htest⟩ := Bool.and_eq_true_iff.1 hout
  exact ⟨sched, x', es, y, hsched, hx, run_of_exec hexec, of_decide_eq_true hdrained, htest⟩

private theorem fresh_twoProcesses {sched : Scheduler} (h : twoProcesses = some sched) :
    fromServer 1 (sched.mail 2) = [] := by
  have hall : twoProcesses.all (fun sched => decide (fromServer 1 (sched.mail 2) = [])) = true := by decide
  rw [h] at hall
  exact of_decide_eq_true hall

theorem listing_complete_etc : ∃ l x es y, Server.new.listing bareEnv (ascii "/etc") = some (.ok l) ∧
    (x.pending = (l.layers Server.new).flatten.map (Reply.message 1) ++ [Reply.done.message 1] ∧
      (y.received = x.pending ↔
        Run (step 1 2) (fun z op => z.Foreign 1 2 op ∧ z.Room 1 2 op) x es y)) ∧ y.received.length = 4 := by
  have hlist : (Server.new.listing bareEnv (ascii "/etc")).any (fun found => found matches .ok _) = true := by
    decide
  obtain ⟨found, hlist, hok⟩ := (Option.any_eq_true _ _).1 hlist
  obtain ⟨sched, x, es, y, hsched, hx, hrun, hdrained, hlen⟩ := @exists_run Server.new (ascii "/etc")
    [.emit, .emit, .receive 0, .emit, .receive 0, .emit, .receive 0, .receive 0]
    (fun _ y => decide (y.received.length = 4)) (by decide)
  cases found with
  | error e => cases hok
  | ok l => exact ⟨l, x, es, y, hlist, listing_complete hlist hx (fresh_twoProcesses hsched) hrun hdrained,
      of_decide_eq_true hlen⟩

/-- Process 2 makes ten directories in the root. -/
def tenDirectories : List Message :=
  [0x612F, 0x622F, 0x632F, 0x642F, 0x652F, 0x662F, 0x672F, 0x682F, 0x692F, 0x6A2F].map fun w =>
    ⟨2, #v[0x28, 0, w, 0, 0, 0, 0, 0]⟩

/-- The root has 17 entries then, and the server sends them before the client runs: the last entry and the end of the
listing find the mailbox full. -/
theorem listing_cut : ∃ es s sched x fs y, Run (Server.dispatch bareEnv) (fun _ _ => True) Server.new es s ∧
    twoProcesses = some sched ∧ (s.handleReaddir bareEnv (ascii "/")).map (start 1 sched) = some x ∧
    fromServer 1 (sched.mail 2) = [] ∧ Run (step 1 2) (Foreign 1 2) x fs y ∧ y.Drained 1 2 ∧ y.received ≠ x.pending := by
  have hexec : (exec (Server.dispatch bareEnv) (fun _ _ => True) Server.new tenDirectories).any (fun out =>
      ((begin out.1 (ascii "/")).bind fun x =>
        (exec (step 1 2) (Foreign 1 2) x (List.replicate 18 .emit ++ List.replicate 16 (.receive 0))).map
          fun out => (x, out)).any (fun out => decide (out.2.1.Drained 1 2) &&
            decide (out.1.pending.length = 18 ∧ out.2.1.received.length = 16))) = true := by decide +kernel
  obtain ⟨⟨s, es⟩, hserver, hout⟩ := (Option.any_eq_true _ _).1 hexec
  obtain ⟨sched, x, fs, y, hsched, hx, hrun, hdrained, hlen⟩ := exists_run
    (fun x y => decide (x.pending.length = 18 ∧ y.received.length = 16)) hout
  obtain ⟨hsent, hgot⟩ := of_decide_eq_true hlen
  refine ⟨es, s, sched, x, fs, y, run_of_exec hserver, hsched, hx, fresh_twoProcesses hsched, hrun, hdrained, fun heq => ?_⟩
  rw [heq, hsent] at hgot
  exact absurd hgot (by decide)

end Delivery

end Rost.Vfs
