import Rost.Kernel.Elf
import Rost.Kernel.Registry

/-!
# The kernel state

The statics that the syscalls work on, and the access to user memory.  A syscall runs on the page tables of its
caller, with `RFLAGS.AC` set: a read succeeds on every present page, a write on every page that is writable on all
levels (`CR0.WP` is set), whether or not the page belongs to user mode.  Any other access is a page fault in ring 0,
which halts the kernel (`none`).
-/

namespace Rost

/-! ### Numbers of the ABI -/

def enosys : Word := BitVec.ofNat 64 u64Max
def einval : Word := BitVec.ofNat 64 (u64Max - 1)
def eperm : Word := BitVec.ofNat 64 (u64Max - 2)
def enomem : Word := BitVec.ofNat 64 (u64Max - 3)
def eagain : Word := BitVec.ofNat 64 (u64Max - 4)
def etimedout : Word := BitVec.ofNat 64 (u64Max - 5)
def enoent : Word := BitVec.ofNat 64 (u64Max - 6)
def edeadlk : Word := BitVec.ofNat 64 (u64Max - 7)

def userVaEnd : Nat := 0x800000000000

/-- `size_of::<Message>()`: the sender, four bytes of padding, and eight words. -/
def messageSize : Nat := 72

/-- `align_of::<Message>()` -/
def messageAlign : Nat := 8

def u32 (w : Word) : Nat := w.toNat % 2 ^ 32

def validateUserPtr (ptr : Word) (size align : Nat) : Bool :=
  if ptr = 0 then false
  else if ptr &&& (BitVec.ofNat 64 align - 1) ≠ 0 then false
  else if 2 ^ 64 ≤ ptr.toNat + size then false
  else decide (ptr.toNat + size ≤ userVaEnd)

def validateUserVaddr (vaddr : Word) : Bool :=
  decide (vaddr ≠ 0) && decide (vaddr &&& 0xFFF#64 = 0) && decide (vaddr.toNat < userVaEnd)

theorem validateUserPtr_le {ptr : Word} {size align : Nat} (h : validateUserPtr ptr size align = true) :
    ptr.toNat + size ≤ userVaEnd := by
  unfold validateUserPtr at h
  split at h
  · cases h
  · split at h
    · cases h
    · split at h
      · cases h
      · exact of_decide_eq_true h

/-! ### State -/

structure FbInfo where
  base : Word
  size : Word
  width : BitVec 32
  height : BitVec 32
  stride : BitVec 32
  format : BitVec 32

/-- The server images built into the kernel. -/
structure ServerImages where
  uartDrv : List Byte
  vfs : List Byte
  shell : List Byte
  net : List Byte
  uartDrv_lt : uartDrv.length < 2 ^ 63
  vfs_lt : vfs.length < 2 ^ 63
  shell_lt : shell.length < 2 ^ 63
  net_lt : net.length < 2 ^ 63

/-- What a process that has left the CPU inside a syscall still has to do when it runs again. -/
inductive Parked where
  | yield
  | recv
  | call (replyPtr : Word)
deriving DecidableEq

structure Kernel where
  sched : Scheduler
  /-- `CURRENT_PID` -/
  currentPid : Nat
  /-- The last value given to `set_rsp0`: the stack on which the kernel is entered. -/
  rsp0 : Nat
  mem : Memory
  /-- `KERNEL_PML4_PHYS` -/
  kernelPml4 : Word
  registry : Registry
  uartDrvPid : Option Nat
  irqPid : Nat → Option Nat
  framebuf : Option FbInfo
  tickCount : Nat
  images : ServerImages
  /-- The syscalls in which processes are suspended, by pid. -/
  parked : Nat → Option Parked

namespace Kernel

/-- The page table a syscall of the current process runs on. -/
def cr3 (k : Kernel) : Word := (k.sched.getProcessPml4 k.currentPid).getD k.kernelPml4

end Kernel

/-! ### User memory -/

/-- The bytes of a number, least significant first. -/
def leBytes : Nat → Nat → List Byte
  | 0, _ => []
  | n + 1, v => BitVec.ofNat 8 v :: leBytes n (v / 256)

theorem length_leBytes (n v : Nat) : (leBytes n v).length = n := by
  induction n generalizing v with
  | zero => rfl
  | succ n ih => exact congrArg (· + 1) (ih _)

theorem leNat_leBytes (n v : Nat) : leNat (leBytes n v) = v % 256 ^ n := by
  induction n generalizing v with
  | zero => exact (Nat.mod_one v).symm
  | succ n ih =>
    have hstep : leNat (leBytes (n + 1) v) = v % 256 + 256 * leNat (leBytes n (v / 256)) := rfl
    rw [hstep, ih, Nat.pow_succ', Nat.mod_mul]

namespace Memory

/-- A read by the kernel at a virtual address. -/
def loadByte (m : Memory) (pml4 virt : Word) : Option Byte := (m.translateAddress pml4 virt).map m.readByte

/-- A write by the kernel at a virtual address. -/
def storeByte (m : Memory) (pml4 virt : Word) (value : Byte) : Option Memory :=
  if m.hasRight pml4 virt pteWritable then (m.translateAddress pml4 virt).map fun phys => m.writeByte phys value
  else none

def loadBytes (m : Memory) (pml4 virt : Word) : Nat → Option (List Byte)
  | 0 => some []
  | n + 1 => (m.loadByte pml4 virt).bind fun b => (m.loadBytes pml4 (virt + 1) n).map (b :: ·)

def storeBytes (m : Memory) (pml4 virt : Word) : List Byte → Option Memory
  | [] => some m
  | b :: bs => (m.storeByte pml4 virt b).bind fun m => m.storeBytes pml4 (virt + 1) bs

end Memory

namespace Message

/-- The message in a buffer of 72 bytes. -/
def ofBytes (b : List Byte) : Message :=
  ⟨field b 0 4, Vector.ofFn fun i => BitVec.ofNat 64 (field b (8 + 8 * i.val) 8)⟩

/-- The 72 bytes of a message; the padding is written as zero. -/
def toBytes (msg : Message) : List Byte :=
  leBytes 4 msg.sender ++ leBytes 4 0 ++ msg.data.toList.flatMap fun w => leBytes 8 w.toNat

private theorem take_drop_words (ws : List Word) {i : Nat} (hi : i < ws.length) :
    ((ws.flatMap fun w => leBytes 8 w.toNat).drop (8 * i)).take 8 = leBytes 8 ws[i].toNat := by
  induction ws generalizing i with
  | nil => cases hi
  | cons w ws ih =>
    have hlen := length_leBytes 8 w.toNat
    rw [List.flatMap_cons]
    cases i with
    | zero => exact List.take_left' hlen
    | succ i =>
      rw [Nat.mul_succ, Nat.add_comm, ← List.drop_drop, List.drop_left' hlen]
      exact ih (Nat.lt_of_succ_lt_succ hi)

private theorem length_words (ws : List Word) : (ws.flatMap fun w => leBytes 8 w.toNat).length = 8 * ws.length := by
  induction ws with
  | nil => rfl
  | cons w ws ih => rw [List.flatMap_cons, List.length_append, length_leBytes, ih, List.length_cons, Nat.mul_succ, Nat.add_comm]

theorem length_toBytes (msg : Message) : msg.toBytes.length = messageSize := by
  unfold toBytes
  rw [List.length_append, List.length_append, length_leBytes, length_leBytes, length_words, Vector.length_toList]
  rfl

/-- The words of a message are read back from its bytes. -/
theorem data_ofBytes_toBytes (msg : Message) : (ofBytes msg.toBytes).data = msg.data := by
  apply Vector.ext
  intro i hi
  have hwords := take_drop_words msg.data.toList (i := i) (by rwa [Vector.length_toList])
  have hlt : msg.data[i].toNat < 256 ^ 8 := lt_of_lt_of_eq msg.data[i].isLt (by decide)
  simp only [ofBytes, Vector.getElem_ofFn, field, toBytes]
  rw [← List.drop_drop, List.drop_left' (by rw [List.length_append, length_leBytes, length_leBytes]), hwords,
    leNat_leBytes, Vector.getElem_toList, Nat.mod_eq_of_lt hlt, BitVec.ofNat_toNat, BitVec.setWidth_eq]

end Message

/-- The buffer of `SYS_SPAWN_ELF`, read through the caller's page tables. -/
def Image.ofUser (pml4 ptr : Word) (len : Nat) (h : len < 2 ^ 63) : Image :=
  ⟨len, fun m i => m.loadByte pml4 (ptr + BitVec.ofNat 64 i), h⟩

/-! ### A small kernel -/

private theorem small_le : 0x10000 ≤ 2 ^ 32 := by decide

/-- Two megabytes of memory, mapped for user mode by the tables at `0x1000`; the letter `a` stands at `0x4000`. -/
def Memory.small : Memory :=
  { ofRegion (.atOneMb 0x10000 small_le) with
    ram := fun frame i =>
      if i ≠ 0 then 0
      else if frame = 0x1000 then 0x2007
      else if frame = 0x2000 then 0x3007
      else if frame = 0x3000 then 0x87
      else if frame = 0x4000 then 0x61
      else 0 }

/-- Two fresh processes, with the pids 1 and 2, on the tables at `0x1000`. -/
def Scheduler.pair : Scheduler :=
  (((new 0).addProcess 0x1000).bind fun r => r.1.addProcess 0x1000).elim (new 0) Prod.fst

/-- Process 2 runs; process 1 has registered the name `a`. -/
def Kernel.small : Kernel where
  sched := Scheduler.pair
  currentPid := 2
  rsp0 := 0
  mem := Memory.small
  kernelPml4 := 0x1000
  registry := (Registry.new.register [0x61] 1).1
  uartDrvPid := none
  irqPid := fun _ => none
  framebuf := none
  tickCount := 0
  images := ⟨[], [], [], [], by decide, by decide, by decide, by decide⟩
  parked := fun _ => none

/-! ### A booted kernel -/

/-- Four megabytes that the kernel has mapped onto themselves for its own use, with its PML4 at `0x10000`. -/
def Memory.booted : Memory :=
  ((ofRegion (.atOneMb 0x100000 (by decide))).identityMapRegion ⟨0x11000, 0xF000⟩ 0x10000 0 0x400000
    (ptePresent ||| pteWritable)).1

/-- One process, with pid 1, runs on the tables of the kernel. -/
def Kernel.booted : Kernel :=
  { Kernel.small with
    sched := (((Scheduler.new 0).addProcess 0x10000).elim (Scheduler.new 0) Prod.fst).setCurrent 1
    currentPid := 1
    mem := Memory.booted
    kernelPml4 := 0x10000 }

end Rost
