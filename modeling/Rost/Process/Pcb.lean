import Rost.Ipc.Message

/-!
# Process control blocks

The per-process record of the kernel with its capability table, its resource quotas and the list of physical frames
that are freed when the process ends; and the pool of kernel stacks the records draw from.  The saved register context
is left out: only the context-switch assembly reads it.
-/

namespace Rost

/-! ### Kernel stacks -/

def kernelStackSize : Nat := 32768
def kernelGuardSize : Nat := 4096
def kernelSlotSize : Nat := kernelGuardSize + kernelStackSize
def maxKernelStacks : Nat := 32

/-- The statics behind `alloc_kernel_stack`: the address of `KERNEL_STACKS`, the counter `NEXT_STACK` and the reclaimed
ids `STACK_RECLAIM[..STACK_RECLAIM_TOP]`, last freed first. -/
structure KernelStacks where
  base : Nat
  nextStack : Nat
  reclaim : List Nat

namespace KernelStacks

/-- Take a stack: a reclaimed one if there is any, else the next fresh one.  The counter advances even when all
fresh stacks are gone. -/
def alloc (k : KernelStacks) : KernelStacks × Option Nat :=
  match k.reclaim with
  | id :: rest => ({ k with reclaim := rest }, some id)
  | [] =>
    ({ k with nextStack := k.nextStack + 1 }, if maxKernelStacks ≤ k.nextStack then none else some k.nextStack)

def free (k : KernelStacks) (stackId : Nat) : KernelStacks :=
  if maxKernelStacks ≤ stackId then k
  else if k.reclaim.length < maxKernelStacks then { k with reclaim := stackId :: k.reclaim } else k

/-- The first address above the stack of slot `stackId`. -/
def top (k : KernelStacks) (stackId : Nat) : Nat := k.base + stackId * kernelSlotSize + kernelSlotSize

end KernelStacks

/-! ### Capabilities -/

inductive CapKind where
  | none
  | channel
  | process
  | memory
  | service
deriving DecidableEq, Repr

def capR : BitVec 8 := 0x01
def capW : BitVec 8 := 0x02
def capG : BitVec 8 := 0x04
def capX : BitVec 8 := 0x08

/-- One slot of a capability table; the kernel object is a pid, a frame number, … depending on the kind. -/
structure Capability where
  kind : CapKind
  rights : BitVec 8
  objectId : Nat
deriving DecidableEq

namespace Capability

def empty : Capability := ⟨.none, 0, 0⟩

def isEmpty (c : Capability) : Bool := decide (c.kind = .none)

end Capability

def capTableSize : Nat := 64

/-! ### The record -/

inductive ProcessState where
  | ready
  | running
  | blocked
  | terminated
deriving DecidableEq, Repr

def userFramesMax : Nat := 96

/-- The process control block. -/
structure Pcb where
  pid : Nat
  state : ProcessState
  priority : Nat
  kernelStackId : Nat
  kernelRsp : Nat
  pageTableBase : Word
  timeSlice : Nat
  cpuTime : Nat
  memoryQuotaPages : Nat
  memoryPagesUsed : Nat
  cpuBudgetTicks : Nat
  cpuBudgetUsed : Nat
  ipcRateLimit : Nat
  ipcRateUsed : Nat
  totalCpuTicks : Nat
  blockedDeadline : Nat
  mailbox : MessageQueue
  waitingFor : Option Nat
  capTable : Vector Capability capTableSize
  userFrames : List Word
  pml4Owned : Bool
  rtPeriod : Nat
  rtDeadline : Nat

namespace Pcb

/-- A fresh record; the two constructors of the source differ in the initial kernel stack pointer only. -/
def fresh (pid stackId kernelRsp : Nat) (pageTableBase : Word) : Pcb where
  pid := pid
  state := .ready
  priority := 128
  kernelStackId := stackId
  kernelRsp := kernelRsp
  pageTableBase := pageTableBase
  timeSlice := 10
  cpuTime := 0
  memoryQuotaPages := 0
  memoryPagesUsed := 0
  cpuBudgetTicks := 0
  cpuBudgetUsed := 0
  ipcRateLimit := 0
  ipcRateUsed := 0
  totalCpuTicks := 0
  blockedDeadline := u64Max
  mailbox := MessageQueue.new
  waitingFor := none
  capTable := Vector.replicate capTableSize Capability.empty
  userFrames := []
  pml4Owned := false
  rtPeriod := 0
  rtDeadline := 0

/-- `ProcessControlBlock::new`: the stack pointer lies below the return address pushed for the entry point. -/
def new (pid stackId stackTop : Nat) (pageTableBase : Word) : Pcb := fresh pid stackId (stackTop - 8) pageTableBase

/-- `ProcessControlBlock::new_ring3_into`: interrupts from ring 3 start on the empty stack. -/
def newRing3 (pid stackId stackTop : Nat) (pageTableBase : Word) : Pcb := fresh pid stackId stackTop pageTableBase

/-- Record a frame to be freed with the process; frames beyond the limit are dropped. -/
def addUserFrame (p : Pcb) (phys : Word) : Pcb :=
  if p.userFrames.length < userFramesMax then { p with userFrames := p.userFrames ++ [phys] } else p

/-- The frames `drop` passes to `global_free_4k`, in order. -/
def droppedFrames (p : Pcb) : List Word :=
  p.userFrames ++ if p.pml4Owned && p.pageTableBase != 0 then [p.pageTableBase] else []

/-- Ready or running: a candidate of the scheduler. -/
def isRunnable (p : Pcb) : Bool := decide (p.state = .ready) || decide (p.state = .running)

/-- Frames are recorded in order, as long as there is room. -/
theorem foldl_addUserFrame (frames : List Word) (p : Pcb) : frames.foldl addUserFrame p =
    { p with userFrames := p.userFrames ++ frames.take (userFramesMax - p.userFrames.length) } := by
  induction frames generalizing p with
  | nil => rw [List.take_nil, List.append_nil, List.foldl_nil]
  | cons f frames ih =>
    rw [List.foldl_cons, ih]
    unfold addUserFrame
    by_cases hroom : p.userFrames.length < userFramesMax
    · rw [if_pos hroom, show userFramesMax - p.userFrames.length = userFramesMax - (p.userFrames.length + 1) + 1 by omega,
        List.take_succ_cons]
      simp
    · rw [if_neg hroom, show userFramesMax - p.userFrames.length = 0 by omega, List.take_zero, List.take_zero]

/-- So the list of frames is all that changes. -/
theorem foldl_addUserFrame_eq (frames : List Word) (p : Pcb) :
    ∃ fs, frames.foldl addUserFrame p = { p with userFrames := fs } := ⟨_, foldl_addUserFrame frames p⟩

end Pcb

end Rost
