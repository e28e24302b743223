import Rost.Gop.Screen
import Rost.Ipc.Message
import Rost.Lib.Batches
import Rost.Lib.Words

/-!
# The display as a mirror of the console

The shell gathers the bytes that it writes to the serial line in a buffer of 40 bytes, and sends this to the terminal when it
is full and when it is flushed, with zeros behind the bytes that have come.  The terminal takes a zero for the end of the
bytes, so that a NUL among them hides the rest of its block.  With nothing dropped and everything read, the parser gets all
bytes but the NULs exactly if no NUL stands before another byte in a block and nothing but NULs waits in the buffer
(`mirrors_iff`).
-/

namespace Rost.Gop

open Lib (Output items sinceFlush batches batchStep packWord unpackWords byteOf)

def opGopPutchar : Word := 0x70
def opGopPuts : Word := 0x71

/-! ### The terminal's side -/

section Feeding

variable {σ : Type} (feedByte : σ → Byte → σ)

/-- `feed_bytes`, for any way to feed a byte. -/
def feedBytes (s : σ) : Bytes → σ
  | [] => s
  | b :: bs => if b = 0 then s else feedBytes (feedByte s b) bs

/-- The bytes of an `OP_GOP_PUTS` request. -/
def payload (msg : Message) : Bytes := unpackWords ((List.range 5).map fun k => msg.getData (k + 1)) 40

/-- The requests that reach the parser. -/
def handle (s : σ) (msg : Message) : σ :=
  if msg.getData 0 = opGopPutchar then feedByte s (byteOf (msg.getData 1) 0)
  else if msg.getData 0 = opGopPuts then feedBytes feedByte s (payload msg)
  else s

theorem feedBytes_eq (s : σ) (bs : Bytes) : feedBytes feedByte s bs = (bs.takeWhile (· ≠ 0)).foldl feedByte s := by
  induction bs generalizing s with
  | nil => rfl
  | cons b bs ih =>
    unfold feedBytes
    by_cases hb : b = 0
    · rw [if_pos hb, List.takeWhile_cons_of_neg (by simp [hb]), List.foldl_nil]
    · rw [if_neg hb, List.takeWhile_cons_of_pos (by simpa using hb), List.foldl_cons, ih]

end Feeding

/-! ### The shell's side -/

/-- `BUF` and `BUF_LEN`, between two calls. -/
structure Buffer where
  buf : Vector Byte 40
  len : Nat
  len_lt : len < 40
  zeros : ∀ i, len ≤ i → ∀ h : i < 40, buf[i] = 0

namespace Buffer

def empty : Buffer := ⟨.replicate 40 0, 0, by decide, fun _ _ _ => by simp⟩

/-- The bytes that wait. -/
def contents (b : Buffer) : Bytes := b.buf.toList.take b.len

@[simp] theorem contents_empty : empty.contents = [] := rfl

theorem length_contents (b : Buffer) : b.contents.length = b.len := by
  have h := b.len_lt
  simp [contents]
  omega

theorem toList_buf (b : Buffer) : b.buf.toList = b.contents ++ List.replicate (40 - b.len) 0 := by
  have hlen := b.length_contents
  have hlt := b.len_lt
  refine List.ext_getElem (by simp [hlen]; omega) fun i hi _ => ?_
  have hi40 : i < 40 := by simpa using hi
  rw [List.getElem_append, Vector.getElem_toList]
  split
  · simp [contents]
  · rename_i hge
    rw [hlen] at hge
    rw [List.getElem_replicate]
    exact b.zeros i (Nat.le_of_not_lt hge) hi40

end Buffer

/-- The message that `flush_inner` sends. -/
def putsMessage (buf : Vector Byte 40) : Message :=
  (List.range 5).foldl (fun msg k => msg.setData (k + 1) (packWord buf.toList k)) ((Message.new 0).setData 0 opGopPuts)

@[simp] theorem getData_putsMessage_zero (buf : Vector Byte 40) : (putsMessage buf).getData 0 = opGopPuts := by
  simp (disch := decide) [putsMessage, List.range_succ, Message.getData_setData]

/-- The 40 bytes arrive as they are. -/
@[simp] theorem payload_putsMessage (buf : Vector Byte 40) : payload (putsMessage buf) = buf.toList := by
  have hlen : buf.toList.length = 40 := by simp
  have hwords : (List.range 5).map (fun k => (putsMessage buf).getData (k + 1)) =
      (List.range 5).map (packWord buf.toList) := by
    simp (disch := decide) [putsMessage, List.range_succ, Message.getData_setData]
  have h := Lib.take_unpackWords (n := 40) (m := 5) (by decide) (Nat.le_of_eq hlen)
  rw [hlen, List.take_of_length_le (by simp [unpackWords])] at h
  rw [payload, hwords, h]

/-! ### Both sides -/

/-- The shell's buffer, the mailbox of the terminal, the messages that found it full, and the terminal. -/
structure Mirror (σ : Type) where
  buffer : Buffer
  mailbox : MessageQueue
  dropped : List Message
  terminal : σ

inductive Event where
  | output (o : Output Byte)
  | receive
deriving DecidableEq

namespace Mirror

variable {σ : Type}

def start (s : σ) : Mirror σ := ⟨.empty, .new, [], s⟩

/-- `send_msg`, whose result nobody looks at. -/
def sendMsg (w : Mirror σ) (msg : Message) : Mirror σ :=
  if (w.mailbox.send msg).2 then { w with mailbox := (w.mailbox.send msg).1 } else { w with dropped := w.dropped ++ [msg] }

def flushInner (w : Mirror σ) (buf : Vector Byte 40) (len : Nat) : Mirror σ :=
  if len = 0 then w else { w.sendMsg (putsMessage buf) with buffer := .empty }

def writeByte (w : Mirror σ) (b : Byte) : Mirror σ :=
  let buf := w.buffer.buf.set w.buffer.len b w.buffer.len_lt
  if h : w.buffer.len + 1 = 40 then w.flushInner buf (w.buffer.len + 1)
  else
    have hlt := w.buffer.len_lt
    have hzeros : ∀ i, w.buffer.len + 1 ≤ i → ∀ h : i < 40, buf[i] = 0 := fun i hi h => by
      rw [Vector.getElem_set_ne _ _ (by omega)]
      exact w.buffer.zeros i (by omega) h
    { w with buffer := ⟨buf, w.buffer.len + 1, by omega, hzeros⟩ }

def flush (w : Mirror σ) : Mirror σ := w.flushInner w.buffer.buf w.buffer.len

variable (feedByte : σ → Byte → σ)

/-- One round of the terminal's loop, or none if there is no message. -/
def receive (w : Mirror σ) : Mirror σ :=
  match w.mailbox.receive with
  | (_, none) => w
  | (mailbox, some msg) => { w with mailbox := mailbox, terminal := handle feedByte w.terminal msg }

def step (w : Mirror σ) : Event → Mirror σ
  | .output (.item b) => w.writeByte b
  | .output .flush => w.flush
  | .receive => w.receive feedByte

def run (w : Mirror σ) (es : List Event) : Mirror σ := es.foldl (step feedByte) w

end Mirror

/-- What the shell does in a run. -/
def outputs (es : List Event) : List (Output Byte) :=
  es.filterMap fun
    | .output o => some o
    | .receive => none

@[simp] theorem outputs_snoc_output (es : List Event) (o : Output Byte) :
    outputs (es ++ [.output o]) = outputs es ++ [o] := by
  simp [outputs]

@[simp] theorem outputs_snoc_receive (es : List Event) : outputs (es ++ [.receive]) = outputs es := by
  simp [outputs]

namespace Mirror

variable {σ : Type} {feedByte : σ → Byte → σ} {w : Mirror σ}

theorem run_snoc (es : List Event) (e : Event) : run feedByte w (es ++ [e]) = step feedByte (run feedByte w es) e := by
  simp [run]

/-- What the parser gets of a block. -/
def shown (block : Bytes) : Bytes := block.takeWhile (· ≠ 0)

theorem shown_zeros (block : Bytes) (n : Nat) : shown (block ++ List.replicate n 0) = shown block := by
  unfold shown
  rw [List.takeWhile_append]
  split
  · rename_i hall
    rw [List.takeWhile_replicate, if_neg (by simp), List.append_nil]
    exact (List.takeWhile_sublist _).eq_of_length hall |>.symm
  · rfl

/-- The messages of a run are its blocks: those read have been shown, those that wait in the mailbox come next, and the
buffer holds what no block has. -/
structure Forwards (s : σ) (feedByte : σ → Byte → σ) (os : List (Output Byte)) (w : Mirror σ) : Prop where
  buffer : w.buffer.contents = (batches 40 os).2
  puts : ∀ msg ∈ w.mailbox.contents, msg.getData 0 = opGopPuts
  blocks : w.dropped = [] → ∃ seen : List Bytes,
    (batches 40 os).1.map shown = seen ++ w.mailbox.contents.map (fun msg => shown (payload msg)) ∧
    w.terminal = seen.flatten.foldl feedByte s

namespace Forwards

variable {s : σ} {os : List (Output Byte)}

theorem start : Forwards s feedByte [] (Mirror.start s) where
  buffer := rfl
  puts := by simp [Mirror.start]
  blocks := fun _ => ⟨[], rfl, rfl⟩

/-- A block is sent. -/
theorem flushInner (h : Forwards s feedByte os w) {buf : Vector Byte 40} {len : Nat} (block : Bytes) {o : Output Byte}
    (hbuf : shown buf.toList = shown block) (hlen : len ≠ 0)
    (ho : batches 40 (os ++ [o]) = ((batches 40 os).1 ++ [block], [])) :
    Forwards s feedByte (os ++ [o]) (w.flushInner buf len) := by
  unfold Mirror.flushInner sendMsg
  rw [if_neg hlen]
  split
  · rename_i hroom
    have hcontents := MessageQueue.contents_send_of_true hroom
    refine ⟨by rw [ho]; rfl, fun msg hmsg => ?_, fun hdrop => ?_⟩
    · rw [hcontents, List.mem_append, List.mem_singleton] at hmsg
      rcases hmsg with hmsg | rfl
      · exact h.puts msg hmsg
      · exact getData_putsMessage_zero buf
    · obtain ⟨seen, hseen, hterm⟩ := h.blocks hdrop
      refine ⟨seen, ?_, hterm⟩
      rw [ho, hcontents, List.map_append, hseen, List.map_append, List.append_assoc, List.map_singleton,
        List.map_singleton, payload_putsMessage, hbuf]
  · -- the mailbox is full, so that something is dropped
    refine ⟨by rw [ho]; rfl, h.puts, fun hdrop => ?_⟩
    simp at hdrop

theorem writeByte (h : Forwards s feedByte os w) (b : Byte) :
    Forwards s feedByte (os ++ [.item b]) (w.writeByte b) := by
  have hlt := w.buffer.len_lt
  have hset : (w.buffer.buf.set w.buffer.len b hlt).toList =
      w.buffer.contents ++ b :: List.replicate (39 - w.buffer.len) 0 := by
    have hlen := w.buffer.length_contents
    rw [Vector.toList_set, w.buffer.toList_buf, List.set_append_right _ _ (by omega), hlen, Nat.sub_self,
      show 40 - w.buffer.len = 39 - w.buffer.len + 1 by omega, List.replicate_succ, List.set_cons_zero]
  have hlen : (batches 40 os).2.length = w.buffer.len := by rw [← h.buffer, w.buffer.length_contents]
  unfold Mirror.writeByte
  extract_lets buf
  split
  · rename_i hfull
    refine h.flushInner ((batches 40 os).2 ++ [b]) ?_ (by omega) ?_
    · rw [hset, h.buffer, show 39 - w.buffer.len = 0 by omega]
      rfl
    · rw [Lib.batches_snoc, Lib.batchStep_item, if_pos (by omega)]
  · refine ⟨?_, h.puts, fun hdrop => ?_⟩
    · rw [Lib.batches_snoc, Lib.batchStep_item, if_neg (by omega), ← h.buffer, Buffer.contents]
      refine (congrArg (List.take _) hset).trans ?_
      have hall : w.buffer.contents.take (w.buffer.len + 1) = w.buffer.contents :=
        List.take_of_length_le (by rw [w.buffer.length_contents]; omega)
      rw [List.take_append, w.buffer.length_contents, hall, Nat.add_sub_cancel_left]
      rfl
    · rw [Lib.batches_snoc, Lib.batchStep_item, if_neg (by omega)]
      exact h.blocks hdrop

theorem flush (h : Forwards s feedByte os w) : Forwards s feedByte (os ++ [.flush]) w.flush := by
  have hlen : (batches 40 os).2.length = w.buffer.len := by rw [← h.buffer, w.buffer.length_contents]
  unfold Mirror.flush
  by_cases hzero : w.buffer.len = 0
  · have hempty : (batches 40 os).2 = [] := List.eq_nil_of_length_eq_zero (by omega)
    have hbatches : batches 40 (os ++ [.flush]) = batches 40 os := by
      rw [Lib.batches_snoc, Lib.batchStep_flush, if_pos hempty]
    rw [Mirror.flushInner, if_pos hzero]
    exact ⟨by rw [hbatches]; exact h.buffer, h.puts, by rw [hbatches]; exact h.blocks⟩
  · refine h.flushInner (batches 40 os).2 ?_ hzero ?_
    · rw [w.buffer.toList_buf, shown_zeros, h.buffer]
    · rw [Lib.batches_snoc, Lib.batchStep_flush, if_neg]
      intro hempty
      rw [hempty] at hlen
      exact hzero hlen.symm

theorem receive (h : Forwards s feedByte os w) : Forwards s feedByte os (w.receive feedByte) := by
  have hrecv := MessageQueue.receive_eq w.mailbox
  unfold Mirror.receive
  split
  · exact h
  · rename_i mailbox msg heq
    rw [heq] at hrecv
    obtain ⟨hhead, htail⟩ := hrecv
    have hcontents : w.mailbox.contents = msg :: mailbox.contents := by
      rw [htail]
      exact (List.cons_head?_tail hhead.symm).symm
    refine ⟨h.buffer, fun m hm => h.puts m (by rw [hcontents]; exact List.mem_cons_of_mem _ hm), fun hdrop => ?_⟩
    obtain ⟨seen, hseen, hterm⟩ := h.blocks hdrop
    -- the oldest message goes to the parser
    have hputs : msg.getData 0 = opGopPuts := h.puts msg (by rw [hcontents]; exact List.mem_cons_self)
    refine ⟨seen ++ [shown (payload msg)], ?_, ?_⟩
    · rw [hseen, hcontents, List.map_cons, List.append_assoc]
      rfl
    · rw [handle, if_neg (by rw [hputs]; decide), if_pos hputs, feedBytes_eq, hterm, List.flatten_append,
        List.foldl_append, List.flatten_singleton]
      rfl

theorem run (es : List Event) : Forwards s feedByte (outputs es) (run feedByte (Mirror.start s) es) := by
  induction es using List.reverseRecOn with
  | nil => exact start
  | append_singleton es e ih =>
    rw [run_snoc]
    cases e with
    | output o =>
      rw [outputs_snoc_output]
      cases o with
      | item b => exact ih.writeByte b
      | flush => exact ih.flush
    | receive =>
      rw [outputs_snoc_receive]
      exact ih.receive

end Forwards

/-- The parser has been given the blocks of the run, each up to its first NUL. -/
theorem run_terminal (s : σ) {es : List Event} (hdropped : (run feedByte (start s) es).dropped = [])
    (hread : (run feedByte (start s) es).mailbox.contents = []) :
    (run feedByte (start s) es).terminal = ((batches 40 (outputs es)).1.flatMap shown).foldl feedByte s := by
  obtain ⟨seen, hseen, hterm⟩ := (Forwards.run es).blocks hdropped
  rw [hread, List.map_nil, List.append_nil] at hseen
  rw [hterm, ← hseen, List.flatMap_def]

/-! ### The bytes that are fed -/

/-- A parser that only keeps its bytes. -/
def log (fed : Bytes) (b : Byte) : Bytes := fed ++ [b]

theorem foldl_log (fed bs : Bytes) : bs.foldl log fed = fed ++ bs := by
  induction bs generalizing fed with
  | nil => simp
  | cons b bs ih => simp [log, ih]

/-- What the terminal is in a run is what it makes of the bytes that are fed. -/
theorem run_map (s : σ) (es : List Event) : run feedByte (start s) es =
    { run log (start []) es with terminal := (run log (start []) es).terminal.foldl feedByte s } := by
  have hhandle : ∀ (fed : Bytes) (msg : Message),
      handle feedByte (fed.foldl feedByte s) msg = (handle log fed msg).foldl feedByte s := by
    intro fed msg
    unfold handle
    split
    · simp [log]
    · split
      · rw [feedBytes_eq, feedBytes_eq, foldl_log, List.foldl_append]
      · rfl
  induction es using List.reverseRecOn with
  | nil => rfl
  | append_singleton es e ih =>
    rw [run_snoc, run_snoc, ih]
    generalize run log (start []) es = v
    cases e with
    | output o =>
      cases o with
      | item b =>
        simp only [step, writeByte, flushInner, sendMsg]
        split
        · split
          · rfl
          · split <;> rfl
        · rfl
      | flush =>
        simp only [step, flush, flushInner, sendMsg]
        split
        · rfl
        · split <;> rfl
    | receive =>
      simp only [step, receive]
      split
      · rfl
      · rw [hhandle]

/-- No NUL stands before another byte if neither a flush nor the end of 40 bytes, counted from the last flush, is between
them. -/
def NulsEndBlocks (os : List (Output Byte)) : Prop :=
  ∀ pre x (mid : Bytes) y post, os = pre ++ .item x :: (mid.map .item ++ .item y :: post) →
    (sinceFlush pre).length % 40 + mid.length + 1 < 40 → x = 0 → y = 0

/-- The bytes behind the last flush that do not make up 40. -/
def unsent (os : List (Output Byte)) : Bytes := (sinceFlush os).drop (40 * ((sinceFlush os).length / 40))

/-- The parser gets the bytes that the shell writes, without the NULs, exactly if the NULs are at the ends of the blocks. -/
theorem mirrors_iff {es : List Event} (hdropped : (run log (start []) es).dropped = [])
    (hread : (run log (start []) es).mailbox.contents = []) :
    (run log (start []) es).terminal = (items (outputs es)).filter (· ≠ 0) ↔
      NulsEndBlocks (outputs es) ∧ ∀ b ∈ unsent (outputs es), b = 0 := by
  have hblocks := Lib.takeWhile_flatMap_iff (fun b : Byte => decide (b ≠ 0)) (batches 40 (outputs es)).1
    (batches 40 (outputs es)).2
  have hplaces := Lib.pairwise_batches_iff (n := 40) (R := fun x y : Byte => x = 0 → y = 0) (by decide) (outputs es)
  rw [run_terminal [] hdropped hread, foldl_log, List.nil_append, ← Lib.flatten_batches (n := 40)]
  unfold shown NulsEndBlocks unsent
  rw [hblocks, ← hplaces, ← Lib.waiting_eq_drop (n := 40) (by decide)]
  simp only [decide_eq_false_iff_not, not_not]
  constructor
  · rintro ⟨hsent, hwait⟩
    refine ⟨⟨hsent, List.pairwise_iff_forall_sublist.2 fun hxy _ => hwait _ (hxy.subset (by simp))⟩, hwait⟩
  · rintro ⟨⟨hsent, -⟩, hwait⟩
    exact ⟨hsent, hwait⟩

/-- A line that is flushed and read. -/
def line (bs : Bytes) : List Event := bs.map (fun b => .output (.item b)) ++ [.output .flush, .receive]

theorem mirrors_iff_line : (run log (start []) (line [0x41, 0x0D, 0x0A])).terminal = [0x41, 0x0D, 0x0A] ↔
    NulsEndBlocks (outputs (line [0x41, 0x0D, 0x0A])) ∧ ∀ b ∈ unsent (outputs (line [0x41, 0x0D, 0x0A])), b = 0 :=
  mirrors_iff (by decide +kernel) (by decide +kernel)

/-- The bytes `A`, NUL and `B` of a file that is printed: the display shows the `A` and does not end the line. -/
theorem nul_hides_line :
    (run log (start []) (line [0x41, 0x00, 0x42, 0x0D, 0x0A])).dropped = [] ∧
    (run log (start []) (line [0x41, 0x00, 0x42, 0x0D, 0x0A])).mailbox.contents = [] ∧
    (run log (start []) (line [0x41, 0x00, 0x42, 0x0D, 0x0A])).terminal = [0x41] ∧
    (items (outputs (line [0x41, 0x00, 0x42, 0x0D, 0x0A]))).filter (· ≠ 0) = [0x41, 0x42, 0x0D, 0x0A] := by
  decide +kernel

end Mirror

end Rost.Gop
