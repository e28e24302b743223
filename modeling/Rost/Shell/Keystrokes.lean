import Rost.Scheduler.Mail
import Rost.Kernel.Syscall
import Rost.Vfs.Path

/-!
# Keystrokes

The keyboard driver decodes scan codes and forwards the keys to its foreground recipient, the UART driver forwards the
bytes the kernel receives, and the shell reads the first word of each message.  The UART driver puts the byte there; the
keyboard driver puts it into the second word, so no key that is forwarded to the shell is read.  Otherwise the shell reads
what is forwarded, as long as the kernel takes the driver's messages and nothing waits when the shell turns to the VFS
server (`delivered_iff`).
-/

namespace Rost.Shell

open Lib (Run exec run_of_exec)
open Vfs (Bytes ascii)

/-! ### The keyboard driver -/

/-- The rows of `SCANCODE_TO_ASCII`, each with the scan code of its first key. -/
def scancodeRows : List (Nat × Bytes) :=
  [(0x02, ascii "1234567890-="), (0x10, ascii "qwertyuiop[]"), (0x1E, ascii "asdfghjkl;'"), (0x2B, ascii "\\"),
    (0x2C, ascii "zxcvbnm,./"), (0x0E, [0x08]), (0x0F, [0x09]), (0x1C, [0x0A]), (0x39, [0x20])]

/-- The key of a scan code; 0 if it has none. -/
def scancodeToAscii (code : Nat) : Byte :=
  (scancodeRows.findSome? fun row => if row.1 ≤ code then row.2[code - row.1]? else none).getD 0

structure Keyboard where
  extended : Bool
  foregroundPid : Word
  /-- The scan codes that can be asked for, oldest first. -/
  buffer : List Byte

/-- `sc_push`: the ring of 16 places holds 15 scan codes. -/
def pushScancode (buffer : List Byte) (code : Byte) : List Byte := if buffer.length < 15 then buffer ++ [code] else buffer

/-- `process_scancode`, with the key that is forwarded. -/
def processScancode (k : Keyboard) (sc : Byte) : Keyboard × Option Byte :=
  if sc = 0xE0 then ({ k with extended := true }, none)
  else if k.extended then ({ k with extended := false }, none)
  else if sc &&& 0x80 ≠ 0 then (k, none)
  else
    ({ k with buffer := pushScancode k.buffer (sc &&& 0x7F) },
      if k.foregroundPid ≠ 0 ∧ scancodeToAscii (sc &&& 0x7F).toNat ≠ 0 then some (scancodeToAscii (sc &&& 0x7F).toNat)
      else none)

/-- The message in which a key is forwarded. -/
def keyMessage (kbdPid : Nat) (b : Byte) : Message := ((Message.new kbdPid).setData 0 0x01).setData 1 (b.setWidth 64)

/-- The driver's answer to a request, if it sends one. -/
def handleKbd (kbdPid : Nat) (k : Keyboard) (msg : Message) : Keyboard × Option Message :=
  if msg.getData 0 = 0x80 then ({ k with foregroundPid := msg.getData 1 }, none)
  else if msg.getData 0 = 0x81 then ({ k with foregroundPid := 0 }, none)
  else if msg.getData 0 = 0x82 then
    match k.buffer with
    | sc :: rest =>
      ({ k with buffer := rest }, some (((Message.new kbdPid).setData 0 0xB0).setData 1 (sc.setWidth 64)))
    | [] => (k, some ((Message.new kbdPid).setData 0 0xB1))
  else (k, none)

/-! ### The UART driver and the shell -/

/-- The word the UART driver forwards for a message: that of a byte the kernel has received. -/
def uartForwards (msg : Message) : Option Word := if msg.getData 0 = 0x02 then some (msg.getData 1) else none

/-- The message of `SYS_SEND`. -/
def sentWord (fromPid : Nat) (w : Word) : Message := ((Message.new fromPid).setData 0 w).setData 1 0

/-- `SYS_RECV` at the scheduler. -/
def recvWord (s : Scheduler) (pid timeoutTicks : Nat) : Scheduler × Word :=
  match s.blockingReceive pid timeoutTicks with
  | (s, some msg) => (s, msg.getData 0)
  | (s, none) => (s, BitVec.ofNat 64 u64Max)

/-! ### The system -/

/-- The kernel's scheduler, the keyboard driver, whether the shell waits for the VFS server, the bytes forwarded to it, and
those it has read. -/
structure Terminal where
  sched : Scheduler
  kbd : Keyboard
  exchanging : Bool
  forwarded : List Byte
  returned : List Byte

/-- The keyboard driver reads a scan code or a request, the UART driver handles a message, the shell goes once through the
loop of `read_byte_blocking`, begins or ends an exchange with the VFS server, receives in it, or anything else happens. -/
inductive TerminalOp where
  | scancode (sc : Byte)
  | kbdMessage (msg : Message)
  | uartMessage (msg : Message)
  | read
  | exchange (on : Bool)
  | recvVfs (timeoutTicks : Nat)
  | other (op : Scheduler.Op)

namespace Terminal

/-- A driver forwards a byte to `toPid`; the result of the send is not looked at. -/
def forward (shell : Nat) (x : Terminal) (fromPid toPid : Nat) (msg : Message) (b : Byte) : Terminal :=
  { x with
    sched := (x.sched.sendMessage fromPid toPid msg).1
    forwarded := if toPid = shell then x.forwarded ++ [b] else x.forwarded }

/-- A step of the drivers `kbd` and `uart`, the shell, or the rest of the system, with the byte the shell has read.  What the
shell receives in an exchange it takes for a reply or discards. -/
def step (kbd uart shell : Nat) (x : Terminal) : TerminalOp → Option (Terminal × Option Byte)
  | .scancode sc =>
    let out := processScancode x.kbd sc
    let y := { x with kbd := out.1 }
    match out.2 with
    | none => some (y, none)
    | some b => some (y.forward shell kbd (u32 out.1.foregroundPid) (keyMessage kbd b) b, none)
  | .kbdMessage msg =>
    let out := handleKbd kbd x.kbd msg
    let y := { x with kbd := out.1 }
    match out.2 with
    | none => some (y, none)
    | some reply => some ({ y with sched := (y.sched.sendMessage kbd msg.sender reply).1 }, none)
  | .uartMessage msg =>
    match uartForwards msg with
    | none => some (x, none)
    | some w => some (x.forward shell uart shell (sentWord uart w) (w.setWidth 8), none)
  | .read =>
    let out := recvWord x.sched shell u64Max
    if out.2 = BitVec.ofNat 64 u64Max then some ({ x with sched := out.1 }, none)
    else some ({ x with sched := out.1, returned := x.returned ++ [out.2.setWidth 8] }, some (out.2.setWidth 8))
  | .exchange on => some ({ x with exchanging := on }, none)
  | .recvVfs timeoutTicks => some ({ x with sched := (x.sched.blockingReceive shell timeoutTicks).1 }, none)
  | .other op => (x.sched.step op).map fun out => ({ x with sched := out.1 }, none)

/-- The shell is there, its mailbox has a free place, and it is not in an exchange with the VFS server. -/
def Ready (shell : Nat) (x : Terminal) : Prop :=
  x.sched.getProcess shell ≠ none ∧ (x.sched.mail shell).length < queueCapacity ∧ x.exchanging = false

/-- The shell is ready whenever a byte is forwarded to it, the UART driver forwards bytes, and nobody else sends to the
shell, receives for it or ends it. -/
def Assumed (kbd shell : Nat) (x : Terminal) : TerminalOp → Prop
  | .scancode sc =>
    (processScancode x.kbd sc).2 ≠ none → u32 (processScancode x.kbd sc).1.foregroundPid = shell → x.Ready shell
  | .kbdMessage msg => (handleKbd kbd x.kbd msg).2 = none ∨ msg.sender ≠ shell
  | .uartMessage msg => ∀ w ∈ uartForwards msg, w.toNat < 256 ∧ x.Ready shell
  | .read => x.exchanging = false
  | .exchange _ => True
  | .recvVfs _ => x.exchanging = true
  | .other op => op.Spares shell

/-- No key is forwarded to the shell, the UART driver may send, and no byte waits when the shell receives in an exchange. -/
def Plain (uart shell : Nat) (x : Terminal) : TerminalOp → Prop
  | .scancode sc => (processScancode x.kbd sc).2 = none ∨ u32 (processScancode x.kbd sc).1.foregroundPid ≠ shell
  | .uartMessage msg => uartForwards msg = none ∨ (x.sched.getProcess uart).any Scheduler.rateLimited = false
  | .recvVfs _ => x.sched.mail shell = []
  | _ => True

/-- If the shell goes on reading, it has read exactly what was forwarded, in order. -/
def Delivered (kbd uart shell : Nat) (x : Terminal) : Prop :=
  ∃ es y, Run (step kbd uart shell) (fun _ op => op = .read) x es y ∧ y.sched.mail shell = [] ∧ y.returned = x.forwarded

/-- The byte the shell reads from a message. -/
def byteOf (msg : Message) : Byte := (msg.getData 0).setWidth 8

/-- The bytes the shell has read, and those it will read from the messages that wait. -/
def seen (shell : Nat) (x : Terminal) : List Byte := x.returned ++ (x.sched.mail shell).map byteOf

/-! ### One step -/

variable {kbd uart shell : Nat} {x y : Terminal} {op : TerminalOp} {r : Option Byte}

/-- Every message that waits for the shell carries a byte, and no more is seen than was forwarded. -/
structure Invariant (shell : Nat) (x : Terminal) : Prop where
  bytes : ∀ m ∈ x.sched.mail shell, (m.getData 0).toNat < 256
  length_le : (x.seen shell).length ≤ x.forwarded.length

/-- No key is the byte that the shell reads for one. -/
private theorem key_ne {k : Keyboard} {sc b : Byte} (h : (processScancode k sc).2 = some b) : b ≠ 1 := by
  have hrows : ∀ row ∈ scancodeRows, (1 : Byte) ∉ row.2 := by decide +kernel
  have htable : ∀ code, scancodeToAscii code ≠ 1 := by
    intro code
    unfold scancodeToAscii
    cases hfind : scancodeRows.findSome? fun row => if row.1 ≤ code then row.2[code - row.1]? else none with
    | none => decide
    | some key =>
      obtain ⟨row, hrow, hkey⟩ := List.exists_of_findSome?_eq_some hfind
      split at hkey
      · rintro rfl
        exact hrows row hrow (List.mem_of_getElem? hkey)
      · cases hkey
  unfold processScancode at h
  split at h
  · cases h
  · split at h
    · cases h
    · split at h
      · cases h
      · dsimp only at h
        split at h
        · cases h
          exact htable _
        · cases h

/-- After `x`, the shell has seen `more` in `y`, and `new` has been forwarded. -/
structure Grows (shell : Nat) (x y : Terminal) (more new : List Byte) : Prop where
  bytes : ∀ m ∈ y.sched.mail shell, (m.getData 0).toNat < 256
  seen : y.seen shell = x.seen shell ++ more
  forwarded : y.forwarded = x.forwarded ++ new

theorem Grows.invariant {more new : List Byte} (h : Grows shell x y more new) (hle : more.length ≤ new.length)
    (hinv : x.Invariant shell) : y.Invariant shell := by
  refine ⟨h.bytes, ?_⟩
  have hx := hinv.length_le
  rw [h.seen, h.forwarded, List.length_append, List.length_append]
  omega

private theorem grows_of_same (hinv : x.Invariant shell) (hmail : y.sched.mail shell = x.sched.mail shell)
    (hreturned : y.returned = x.returned) (hforwarded : y.forwarded = x.forwarded) : Grows shell x y [] [] := by
  refine ⟨?_, ?_, ?_⟩
  · rw [hmail]
    exact hinv.bytes
  · unfold Terminal.seen
    rw [hmail, hreturned, List.append_nil]
  · rw [hforwarded, List.append_nil]

/-- A byte that is forwarded to the shell is seen as the first word of its message. -/
private theorem grows_forward_of_takes (hinv : x.Invariant shell) (fromPid : Nat) (msg : Message) (b : Byte)
    (hfirst : (msg.getData 0).toNat < 256) (htakes : x.sched.Takes fromPid shell) :
    Grows shell x (x.forward shell fromPid shell msg b) [byteOf msg] [b] := by
  have hsent := (x.sched.sendMessage_snd_iff fromPid shell msg).2 htakes
  have hmail : (x.forward shell fromPid shell msg b).sched.mail shell =
      x.sched.mail shell ++ [{ msg with sender := fromPid }] := by
    have hout := Scheduler.mail_sendMessage (Prod.ext rfl hsent) shell
    rw [if_pos rfl] at hout
    exact hout
  refine ⟨?_, ?_, if_pos rfl⟩
  · intro m hm
    rw [hmail, List.mem_append, List.mem_singleton] at hm
    rcases hm with hm | rfl
    · exact hinv.bytes m hm
    · exact hfirst
  · unfold Terminal.seen
    rw [hmail, List.map_append, ← List.append_assoc]
    rfl

/-- A byte whose message the kernel does not take is not seen. -/
private theorem grows_forward_of_refused (hinv : x.Invariant shell) (fromPid : Nat) (msg : Message) (b : Byte)
    (hrefused : ¬ x.sched.Takes fromPid shell) : Grows shell x (x.forward shell fromPid shell msg b) [] [b] := by
  have hsent : (x.sched.sendMessage fromPid shell msg).2 = false := by
    rw [← Bool.not_eq_true, x.sched.sendMessage_snd_iff]
    exact hrefused
  have hmail : (x.forward shell fromPid shell msg b).sched.mail shell = x.sched.mail shell :=
    Scheduler.mail_sendMessage_refused (Prod.ext rfl hsent) shell
  refine ⟨?_, ?_, if_pos rfl⟩
  · rw [hmail]
    exact hinv.bytes
  · unfold Terminal.seen
    rw [hmail, List.append_nil]
    rfl

/-- What is forwarded to somebody else is no matter of the shell. -/
private theorem grows_forward_of_ne (hinv : x.Invariant shell) (fromPid : Nat) {toPid : Nat} (msg : Message) (b : Byte)
    (hne : toPid ≠ shell) : Grows shell x (x.forward shell fromPid toPid msg b) [] [] := by
  refine grows_of_same hinv ?_ rfl (if_neg hne)
  exact @Scheduler.mail_step_of_spares _ _ (.sendMessage fromPid toPid msg) _ _ rfl hne

/-- A read moves the first byte that waits to those that are returned. -/
private theorem grows_read (hinv : x.Invariant shell) (hstep : x.step kbd uart shell .read = some (y, r)) :
    Grows shell x y [] [] := by
  unfold step recvWord at hstep
  dsimp only at hstep
  cases hout : x.sched.blockingReceive shell u64Max with
  | mk s msg =>
    rw [hout] at hstep
    cases msg with
    | none =>
      rw [if_pos rfl] at hstep
      cases hstep
      exact grows_of_same hinv ((Scheduler.mail_blockingReceive_none hout).2 shell) rfl rfl
    | some msg =>
      have hcons := Scheduler.mail_blockingReceive hout
      have hbyte : (msg.getData 0).toNat < 256 := hinv.bytes msg (by rw [hcons]; exact List.mem_cons_self)
      have hne : msg.getData 0 ≠ BitVec.ofNat 64 u64Max := by
        intro heq
        rw [heq] at hbyte
        exact absurd hbyte (by decide)
      rw [if_neg hne] at hstep
      cases hstep
      refine ⟨?_, ?_, (List.append_nil _).symm⟩
      · intro m hm
        exact hinv.bytes m (by rw [hcons]; exact List.mem_cons_of_mem msg hm)
      · unfold Terminal.seen
        rw [hcons, List.map_cons, List.append_nil, List.append_assoc]
        rfl

/-- A receive in an exchange takes the first byte that waits away. -/
private theorem lost_recvVfs {t : Nat} (hinv : x.Invariant shell)
    (hstep : x.step kbd uart shell (.recvVfs t) = some (y, r)) (hne : x.sched.mail shell ≠ []) :
    y.Invariant shell ∧ (y.seen shell).length < (x.seen shell).length ∧ y.forwarded = x.forwarded := by
  cases hstep
  cases hout : x.sched.blockingReceive shell t with
  | mk s msg =>
    cases msg with
    | none => exact absurd (Scheduler.mail_blockingReceive_none hout).1 hne
    | some msg =>
      have hcons := Scheduler.mail_blockingReceive hout
      have hlt : (x.returned ++ (s.mail shell).map byteOf).length < (x.seen shell).length := by
        unfold Terminal.seen
        rw [hcons]
        simp
      have hle := hinv.length_le
      refine ⟨⟨?_, ?_⟩, hlt, rfl⟩
      · intro m hm
        exact hinv.bytes m (by rw [hcons]; exact List.mem_cons_of_mem msg hm)
      · show (x.returned ++ (s.mail shell).map byteOf).length ≤ x.forwarded.length
        omega

/-- What is seen grows with what is forwarded, by the same bytes exactly if the step is `plain` and never by more; or a
byte that waits is lost. -/
def Advances (shell : Nat) (x y : Terminal) (plain : Prop) : Prop :=
  (∃ more new, Grows shell x y more new ∧ more.length ≤ new.length ∧ (more = new ↔ plain)) ∨
    (y.Invariant shell ∧ (y.seen shell).length < (x.seen shell).length ∧ y.forwarded = x.forwarded ∧ ¬ plain)

private theorem advances_of_same {plain : Prop} (hinv : x.Invariant shell)
    (hmail : y.sched.mail shell = x.sched.mail shell) (hreturned : y.returned = x.returned)
    (hforwarded : y.forwarded = x.forwarded) (hplain : plain) : Advances shell x y plain :=
  .inl ⟨[], [], grows_of_same hinv hmail hreturned hforwarded, le_refl _, iff_of_true rfl hplain⟩

private theorem advances_scancode {sc : Byte} (hinv : x.Invariant shell)
    (hstep : x.step kbd uart shell (.scancode sc) = some (y, r)) :
    Advances shell x y (x.Plain uart shell (.scancode sc)) := by
  unfold step at hstep
  dsimp only at hstep
  cases hkey : (processScancode x.kbd sc).2 with
  | none =>
    rw [hkey] at hstep
    cases hstep
    exact advances_of_same hinv rfl rfl rfl (.inl hkey)
  | some b =>
    rw [hkey] at hstep
    cases hstep
    have hinv' : Invariant shell { x with kbd := (processScancode x.kbd sc).1 } := ⟨hinv.bytes, hinv.length_le⟩
    refine .inl ?_
    by_cases hto : u32 (processScancode x.kbd sc).1.foregroundPid = shell
    · have hplain : ¬ x.Plain uart shell (.scancode sc) := by
        rintro (hnone | hne)
        · rw [hkey] at hnone
          cases hnone
        · exact hne hto
      have hword : (keyMessage kbd b).getData 0 = 1 := by
        unfold keyMessage
        rw [Message.getData_setData _ (by decide), if_neg (by decide), Message.getData_setData _ (by decide), if_pos rfl]
      rw [hto]
      by_cases htakes : x.sched.Takes kbd shell
      · have hgrows := grows_forward_of_takes hinv' kbd (keyMessage kbd b) b (by rw [hword]; decide) htakes
        refine ⟨_, _, ⟨hgrows.bytes, hgrows.seen, hgrows.forwarded⟩, le_refl _, iff_of_false ?_ hplain⟩
        -- the shell reads the opcode, which is no key
        intro heq
        have hone : byteOf (keyMessage kbd b) = 1 := by
          unfold byteOf
          rw [hword]
          decide
        rw [hone] at heq
        exact key_ne hkey (List.cons.inj heq).1.symm
      · have hgrows := grows_forward_of_refused hinv' kbd (keyMessage kbd b) b htakes
        exact ⟨_, _, ⟨hgrows.bytes, hgrows.seen, hgrows.forwarded⟩, Nat.zero_le _,
          iff_of_false (List.cons_ne_nil b []).symm hplain⟩
    · have hgrows := grows_forward_of_ne hinv' kbd (keyMessage kbd b) b hto
      exact ⟨_, _, ⟨hgrows.bytes, hgrows.seen, hgrows.forwarded⟩, le_refl _, iff_of_true rfl (.inr hto)⟩

private theorem advances_kbdMessage {msg : Message} (hinv : x.Invariant shell)
    (hassumed : x.Assumed kbd shell (.kbdMessage msg)) (hstep : x.step kbd uart shell (.kbdMessage msg) = some (y, r)) :
    Advances shell x y (x.Plain uart shell (.kbdMessage msg)) := by
  unfold step at hstep
  dsimp only at hstep
  cases hreply : (handleKbd kbd x.kbd msg).2 with
  | none =>
    rw [hreply] at hstep
    cases hstep
    exact advances_of_same hinv rfl rfl rfl trivial
  | some reply =>
    rw [hreply] at hstep
    cases hstep
    have hne : msg.sender ≠ shell := by
      rcases hassumed with hnone | hne
      · rw [hreply] at hnone
        cases hnone
      · exact hne
    exact advances_of_same hinv (@Scheduler.mail_step_of_spares _ _ (.sendMessage kbd msg.sender reply) _ _ rfl hne) rfl rfl
      trivial

private theorem advances_uartMessage {msg : Message} (hinv : x.Invariant shell)
    (hassumed : x.Assumed kbd shell (.uartMessage msg)) (hstep : x.step kbd uart shell (.uartMessage msg) = some (y, r)) :
    Advances shell x y (x.Plain uart shell (.uartMessage msg)) := by
  unfold step at hstep
  dsimp only at hstep
  cases hword : uartForwards msg with
  | none =>
    rw [hword] at hstep
    cases hstep
    exact advances_of_same hinv rfl rfl rfl (.inl hword)
  | some w =>
    rw [hword] at hstep
    cases hstep
    obtain ⟨hbyte, hlive, hroom, -⟩ := hassumed w hword
    have hfirst : (sentWord uart w).getData 0 = w := by
      unfold sentWord
      rw [Message.getData_setData _ (by decide), if_neg (by decide), Message.getData_setData _ (by decide), if_pos rfl]
    have hplain : x.Plain uart shell (.uartMessage msg) ↔ x.sched.Takes uart shell := by
      constructor
      · rintro (hnone | hlimit)
        · rw [hword] at hnone
          cases hnone
        · exact ⟨hlive, hroom, hlimit⟩
      · rintro ⟨-, -, hlimit⟩
        exact .inr hlimit
    refine .inl ?_
    by_cases htakes : x.sched.Takes uart shell
    · have hbyte' : ((sentWord uart w).getData 0).toNat < 256 := by rw [hfirst]; exact hbyte
      refine ⟨_, _, grows_forward_of_takes hinv uart (sentWord uart w) (w.setWidth 8) hbyte' htakes, le_refl _,
        iff_of_true ?_ (hplain.2 htakes)⟩
      unfold byteOf
      rw [hfirst]
    · exact ⟨_, _, grows_forward_of_refused hinv uart (sentWord uart w) (w.setWidth 8) htakes, Nat.zero_le _,
        iff_of_false (List.cons_ne_nil _ []).symm fun h => htakes (hplain.1 h)⟩

private theorem advances_recvVfs {t : Nat} (hinv : x.Invariant shell)
    (hstep : x.step kbd uart shell (.recvVfs t) = some (y, r)) :
    Advances shell x y (x.Plain uart shell (.recvVfs t)) := by
  by_cases hempty : x.sched.mail shell = []
  · cases hstep
    refine advances_of_same hinv ?_ rfl rfl hempty
    have hsuffix := x.sched.mail_suffix_blockingReceive shell t
    rw [hempty, List.suffix_nil] at hsuffix
    rw [hempty]
    exact hsuffix
  · obtain ⟨hinv', hlt, hforwarded⟩ := lost_recvVfs hinv hstep hempty
    exact .inr ⟨hinv', hlt, hforwarded, hempty⟩

theorem step_advances (hinv : x.Invariant shell) (hassumed : x.Assumed kbd shell op)
    (hstep : x.step kbd uart shell op = some (y, r)) : Advances shell x y (x.Plain uart shell op) := by
  cases op with
  | scancode sc => exact advances_scancode hinv hstep
  | kbdMessage msg => exact advances_kbdMessage hinv hassumed hstep
  | uartMessage msg => exact advances_uartMessage hinv hassumed hstep
  | read => exact .inl ⟨[], [], grows_read hinv hstep, le_refl _, iff_of_true rfl trivial⟩
  | exchange on =>
    cases hstep
    exact advances_of_same hinv rfl rfl rfl trivial
  | recvVfs t => exact advances_recvVfs hinv hstep
  | other op =>
    obtain ⟨⟨s', r'⟩, hother, heq⟩ := Option.map_eq_some_iff.1 hstep
    simp only [Prod.mk.injEq] at heq
    obtain ⟨rfl, -⟩ := heq
    exact advances_of_same hinv (Scheduler.mail_step_of_spares hother hassumed) rfl rfl trivial

theorem Advances.invariant {plain : Prop} (h : Advances shell x y plain) (hinv : x.Invariant shell) :
    y.Invariant shell := by
  rcases h with ⟨more, new, hgrows, hle, -⟩ | ⟨hinv', -⟩
  · exact hgrows.invariant hle hinv
  · exact hinv'

/-- What has been seen is what has been forwarded if it was so before and the step is `plain`. -/
theorem Advances.seen_iff {plain : Prop} (h : Advances shell x y plain) (hinv : x.Invariant shell) :
    y.seen shell = y.forwarded ↔ x.seen shell = x.forwarded ∧ plain := by
  have hx := hinv.length_le
  rcases h with ⟨more, new, hgrows, hle, hiff⟩ | ⟨-, hlt, hforwarded, hplain⟩
  · rw [hgrows.seen, hgrows.forwarded, ← hiff]
    constructor
    · intro heq
      have hlength := congrArg List.length heq
      rw [List.length_append, List.length_append] at hlength
      exact List.append_inj heq (by omega)
    · rintro ⟨hseen, hmore⟩
      rw [hseen, hmore]
  · refine iff_of_false (fun heq => ?_) fun h => hplain h.2
    have hlength := congrArg List.length heq
    rw [hforwarded] at hlength
    omega

/-! ### Runs -/

/-- The shell can read until its mailbox is empty. -/
theorem reads (x : Terminal) :
    ∃ es y, Run (step kbd uart shell) (fun _ op => op = .read) x es y ∧ y.sched.mail shell = [] := by
  generalize hmail : x.sched.mail shell = l
  induction l generalizing x with
  | nil => exact ⟨[], x, .nil x, hmail⟩
  | cons m rest ih =>
    cases hout : x.sched.blockingReceive shell u64Max with
    | mk s' msg =>
      cases msg with
      | none =>
        have hnil := (Scheduler.mail_blockingReceive_none hout).1
        rw [hmail] at hnil
        cases hnil
      | some m' =>
        have hcons := Scheduler.mail_blockingReceive hout
        rw [hmail, List.cons.injEq] at hcons
        obtain ⟨z, r, hstep, hsched⟩ : ∃ z r, x.step kbd uart shell .read = some (z, r) ∧ z.sched = s' := by
          unfold step recvWord
          dsimp only
          rw [hout]
          dsimp only
          split
          · exact ⟨_, _, rfl, rfl⟩
          · exact ⟨_, _, rfl, rfl⟩
        obtain ⟨es, y, hrun, hempty⟩ := ih z (by rw [hsched]; exact hcons.2.symm)
        have hone : Run (step kbd uart shell) (fun _ op => op = .read) x [(.read, r)] z := Run.single rfl hstep
        exact ⟨_, y, hone.append hrun, hempty⟩

/-- What the shell goes on to read is what it has seen. -/
theorem delivered_iff_seen (hinv : x.Invariant shell) :
    x.Delivered kbd uart shell ↔ x.seen shell = x.forwarded := by
  have hkeep : ∀ {es y}, Run (step kbd uart shell) (fun _ op => op = .read) x es y → y.seen shell = x.seen shell := by
    intro es y hrun
    refine (hrun.invariant (P := fun y => y.Invariant shell ∧ y.seen shell = x.seen shell) ?_ ⟨hinv, rfl⟩).2
    rintro t u i r ⟨hinv, hseen⟩ rfl hstep
    have hgrows := grows_read hinv hstep
    exact ⟨hgrows.invariant (le_refl _) hinv, by rw [hgrows.seen, hseen, List.append_nil]⟩
  have hend : ∀ {y : Terminal}, y.sched.mail shell = [] → y.seen shell = y.returned := by
    intro y hempty
    unfold Terminal.seen
    rw [hempty]
    exact List.append_nil _
  constructor
  · rintro ⟨es, y, hrun, hempty, hreturned⟩
    rw [← hkeep hrun, hend hempty, hreturned]
  · intro hseen
    obtain ⟨es, y, hrun, hempty⟩ := @reads kbd uart shell x
    exact ⟨es, y, hrun, hempty, by rw [← hend hempty, hkeep hrun, hseen]⟩

/-- In a run that begins when everything forwarded has been read, the shell gets what is forwarded exactly if every step is
plain: no key is forwarded to it, no byte from the UART is refused for the messages its driver has sent before, and no byte
waits when the shell turns to the VFS server. -/
theorem delivered_iff {es : List (TerminalOp × Option Byte)} (hempty : x.sched.mail shell = [])
    (hread : x.returned = x.forwarded) (hrun : Run (step kbd uart shell) (Assumed kbd shell) x es y) :
    y.Delivered kbd uart shell ↔
      Run (step kbd uart shell) (fun z op => z.Assumed kbd shell op ∧ z.Plain uart shell op) x es y := by
  have hseen : x.seen shell = x.forwarded := by
    unfold Terminal.seen
    rw [hempty, hread]
    exact List.append_nil _
  have hinv : x.Invariant shell := by
    refine ⟨?_, by rw [hseen]⟩
    intro m hm
    rw [hempty] at hm
    cases hm
  have hkeep : ∀ {t u i r}, Invariant shell t → Assumed kbd shell t i → step kbd uart shell t i = some (u, r) →
      u.Invariant shell :=
    fun hinv hassumed hstep => (step_advances hinv hassumed hstep).invariant hinv
  rw [delivered_iff_seen (hrun.invariant hkeep hinv)]
  refine Run.holds_iff (P := fun z => z.seen shell = z.forwarded) hkeep ?_ ?_ hrun hinv hseen
  · intro t u i r hinv hsame hassumed hstep
    rw [(step_advances hinv hassumed hstep).seen_iff hinv]
    exact and_iff_right hsame
  · intro t u i r hinv hdiffer hassumed hstep hsame
    exact hdiffer (((step_advances hinv hassumed hstep).seen_iff hinv).1 hsame).1

instance decidableReady (shell : Nat) (x : Terminal) : Decidable (x.Ready shell) := inferInstanceAs (Decidable (_ ∧ _))

instance decidableAssumed (kbd shell : Nat) (x : Terminal) : (op : TerminalOp) → Decidable (x.Assumed kbd shell op)
  | .scancode _ => inferInstanceAs (Decidable (_ → _ → _))
  | .kbdMessage _ => inferInstanceAs (Decidable (_ ∨ _))
  | .uartMessage msg => Option.decidableForallMem (o := uartForwards msg)
  | .read | .recvVfs _ => inferInstanceAs (Decidable (_ = _))
  | .exchange _ => .isTrue trivial
  | .other op => inferInstanceAs (Decidable (op.Spares shell))

/-- The keyboard driver, the UART driver and the shell, which is the foreground recipient, are processes 1, 2 and 3. -/
def boot : Option Terminal := do
  let (sched, _) ← (Scheduler.new 0).addProcess 0
  let (sched, _) ← sched.addProcess 0
  let (sched, _) ← sched.addProcess 0
  pure ⟨sched, ⟨false, 3, []⟩, false, [], []⟩

/-- What a run on `ops` comes to, if it meets the assumptions. -/
private theorem exists_run (ops : List TerminalOp) (test : Terminal → Bool)
    (h : (boot.bind fun x => (exec (step 1 2 3) (Assumed 1 3) x ops).map fun out => (x, out)).any
      (fun out => decide (out.1.sched.mail 3 = [] ∧ out.1.returned = out.1.forwarded) && test out.2.1) = true) :
    ∃ x es y, x.sched.mail 3 = [] ∧ x.returned = x.forwarded ∧ Run (step 1 2 3) (Assumed 1 3) x es y ∧ test y = true := by
  obtain ⟨⟨x', y, es⟩, hexec, hout⟩ := (Option.any_eq_true _ _).1 h
  obtain ⟨_, -, hexec⟩ := Option.bind_eq_some_iff.1 hexec
  obtain ⟨out, hexec, heq⟩ := Option.map_eq_some_iff.1 hexec
  cases heq
  obtain ⟨hstart, htest⟩ := Bool.and_eq_true_iff.1 hout
  obtain ⟨hempty, hread⟩ := of_decide_eq_true hstart
  exact ⟨x', es, y, hempty, hread, run_of_exec hexec, htest⟩

/-- A byte from the UART. -/
theorem delivered_iff_uart : ∃ x es y, y.returned = ascii "a" ∧ (y.Delivered 1 2 3 ↔
    Run (step 1 2 3) (fun z op => z.Assumed 1 3 op ∧ z.Plain 2 3 op) x es y) := by
  obtain ⟨x, es, y, hempty, hread, hrun, htest⟩ := exists_run
    [.uartMessage ⟨0, #v[0x02, 0x61, 0, 0, 0, 0, 0, 0]⟩, .read] (fun y => decide (y.returned = ascii "a"))
    (by decide +kernel)
  exact ⟨x, es, y, of_decide_eq_true htest, delivered_iff hempty hread hrun⟩

/-- The key `a` is pressed, forwarded to the shell, and read as the byte 1. -/
theorem key_misread : ∃ x es y, x.sched.mail 3 = [] ∧ x.returned = x.forwarded ∧
    Run (step 1 2 3) (Assumed 1 3) x es y ∧ y.forwarded = ascii "a" ∧ y.returned = [1] ∧ ¬ y.Delivered 1 2 3 := by
  obtain ⟨x, es, y, hempty, hread, hrun, htest⟩ := exists_run [.scancode 0x1E, .read]
    (fun y => decide (y.sched.mail 3 = [] ∧ y.forwarded = ascii "a" ∧ y.returned = [1])) (by decide +kernel)
  obtain ⟨hmail, hforwarded, hreturned⟩ := of_decide_eq_true htest
  have hseen : y.seen 3 = [1] := by
    unfold Terminal.seen
    rw [hmail, hreturned]
    rfl
  have hinv : y.Invariant 3 := by
    refine ⟨?_, by rw [hseen, hforwarded]; decide⟩
    intro m hm
    rw [hmail] at hm
    cases hm
  refine ⟨x, es, y, hempty, hread, hrun, hforwarded, hreturned, ?_⟩
  rw [delivered_iff_seen hinv, hseen, hforwarded]
  decide

end Terminal

end Rost.Shell
