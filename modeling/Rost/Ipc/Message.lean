import Rost.Basic
import Rost.Lib.Ring

/-!
# Messages and mailboxes

A message carries eight words and the pid of its sender; a mailbox is a ring of 16 messages together with a pending
notification word.  `MessageQueue.contents` is the queue of messages a mailbox holds.
-/

namespace Rost

open Lib (Ring)

def queueCapacity : Nat := 16
def dataFields : Nat := 8

theorem dataFields_pos : 0 < dataFields := by decide

/-- A typed IPC message; the kernel overwrites `sender` when it is sent. -/
structure Message where
  sender : Nat
  data : Vector Word dataFields
deriving DecidableEq

namespace Message

def new (sender : Nat) : Message := ⟨sender, Vector.replicate dataFields 0⟩

def setData (m : Message) (offset : Nat) (value : Word) : Message :=
  if h : offset < dataFields then { m with data := m.data.set offset value h } else m

def getData (m : Message) (offset : Nat) : Word :=
  if h : offset < dataFields then m.data[offset] else 0

/-- A word that is set is read back, and no other word changes. -/
theorem getData_setData (m : Message) {i : Nat} (hi : i < dataFields) (j : Nat) (value : Word) :
    (m.setData i value).getData j = if j = i then value else m.getData j := by
  unfold setData getData
  rw [dif_pos hi]
  by_cases hj : j < dataFields
  · rw [dif_pos hj, dif_pos hj, Vector.getElem_set hi hj]
    by_cases hij : i = j
    · rw [if_pos hij, if_pos hij.symm]
    · rw [if_neg hij, if_neg (Ne.symm hij)]
  · rw [dif_neg hj, dif_neg hj, if_neg (by omega)]

end Message

/-- The mailbox of a process. -/
structure MessageQueue where
  messages : Ring Message queueCapacity
  pendingNotification : Word

namespace MessageQueue

def new : MessageQueue := ⟨Ring.empty Message queueCapacity (by decide), 0⟩

/-- The messages waiting in the mailbox, oldest first. -/
def contents (q : MessageQueue) : List Message := q.messages.toList

def send (q : MessageQueue) (message : Message) : MessageQueue × Bool :=
  ({ q with messages := (q.messages.push message).1 }, (q.messages.push message).2)

def receive (q : MessageQueue) : MessageQueue × Option Message :=
  ({ q with messages := q.messages.pop.1 }, q.messages.pop.2)

/-- Post a notification word: its bits are added to the pending ones. -/
def notify (q : MessageQueue) (word : Word) : MessageQueue :=
  { q with pendingNotification := q.pendingNotification ||| word }

def pollNotification (q : MessageQueue) : MessageQueue × Option Word :=
  if q.pendingNotification = 0 then (q, none) else ({ q with pendingNotification := 0 }, some q.pendingNotification)

def isEmpty (q : MessageQueue) : Bool := q.messages.count == 0
def isFull (q : MessageQueue) : Bool := decide (queueCapacity ≤ q.messages.count)
def len (q : MessageQueue) : Nat := q.messages.count

@[simp] theorem contents_new : new.contents = [] := rfl

@[simp] theorem contents_notify (q : MessageQueue) (w : Word) : (q.notify w).contents = q.contents := rfl

theorem length_contents_le (q : MessageQueue) : q.contents.length ≤ queueCapacity := q.messages.length_toList_le

theorem send_of_full {q : MessageQueue} {m : Message} (h : q.contents.length = queueCapacity) :
    q.send m = (q, false) := by
  unfold send
  rw [Ring.push_full h]

theorem contents_send {q : MessageQueue} {m : Message} (h : q.contents.length < queueCapacity) :
    (q.send m).2 = true ∧ (q.send m).1.contents = q.contents ++ [m] := Ring.toList_push h

theorem contents_send_of_true {q : MessageQueue} {m : Message} (h : (q.send m).2 = true) :
    (q.send m).1.contents = q.contents ++ [m] := by
  have hlt : q.contents.length < queueCapacity := by
    rcases Nat.lt_or_ge q.contents.length queueCapacity with hlt | hge
    · exact hlt
    · rw [send_of_full (Nat.le_antisymm q.length_contents_le hge)] at h; cases h
  exact (contents_send hlt).2

theorem receive_eq (q : MessageQueue) :
    q.receive.2 = q.contents.head? ∧ q.receive.1.contents = q.contents.tail := Ring.pop_eq q.messages

end MessageQueue

end Rost
