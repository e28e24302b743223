import Rost.Kernel.State

/-!
# System calls

One definition for each handler of `dispatch_syscall`, under the name of its syscall, and the interrupts that run
between the syscalls.  A handler that leaves the CPU (`YIELD`, the receives and `CALL`) parks its caller; what is left
of the call runs when the caller is current again (`resume`).  Trace output and the programming of the interrupt
controllers are left out; the values of device registers are inputs.
-/

namespace Rost

/-- The syscall numbers; `other` stands for every number without a handler. -/
inductive Sys where
  | yield | exit | getpid | send | recv | notify | recvMsg | sendMsg | spawn | map | register | lookup | uartWrite
  | uartRead | clock | setprio | setrt | call | capGrant | setquota | chanBind | sendCap | mapShare | mapCap
  | lookupCap | spawnElf | restartServer | listProcs | ioportOut | ioportIn | physAddr | irqRegister | getFramebuf
  | allocPhys | createVas | mapIntoVas | spawnWithVas | registerFrames | other
deriving DecidableEq, Repr

/-- A syscall with its arguments; `device` is what the device register reads as, for the calls that read one. -/
structure Request where
  sys : Sys
  a0 : Word
  a1 : Word
  a2 : Word
  a3 : Word
  device : Word

/-- How a syscall ends for its caller: with a value, parked inside the kernel, or not at all. -/
inductive Ret where
  | value (v : Word)
  | parked
  | exited
deriving DecidableEq

namespace Kernel

/-- A context switch: `CURRENT_PID` follows the scheduler, and the kernel is entered on the stack of the new process. -/
def switched (k : Kernel) (r : Scheduler × Option Switch) : Kernel :=
  match r with
  | (s, none) => { k with sched := s }
  | (s, some sw) => { k with sched := s, currentPid := s.currentProcess.getD k.currentPid, rsp0 := sw.kernelRsp }

/-- Suspend `pid` inside a syscall. -/
def park (k : Kernel) (pid : Nat) (p : Parked) : Kernel :=
  { k with parked := fun q => if q = pid then some p else k.parked q }

def unpark (k : Kernel) (pid : Nat) : Kernel :=
  { k with parked := fun q => if q = pid then none else k.parked q }

/-- `terminate_process` with the destructor of the process record: its frames are freed, then its first registry entry
is dropped. -/
def terminateProcess (k : Kernel) (pid : Nat) : Kernel :=
  { k with
    sched := (k.sched.terminateProcess pid).1
    mem := (k.sched.terminateProcess pid).2.foldl Memory.globalFree4k k.mem
    registry := (k.registry.unregisterPid pid).1
    parked := fun q => if q = pid then none else k.parked q }

/-! ### Scheduling -/

def sysYield (k : Kernel) : Option (Kernel × Ret) :=
  match k.sched.yieldSwitch with
  | (s, none) => some ({ k with sched := s }, .value 0)
  | (s, some sw) => some ((k.park k.currentPid .yield).switched (s, some sw), .parked)

def sysExit (k : Kernel) : Option (Kernel × Ret) :=
  let k := k.terminateProcess k.currentPid
  some (k.switched k.sched.forceScheduleNext, .exited)

def sysGetpid (k : Kernel) : Option (Kernel × Ret) := some (k, .value (BitVec.ofNat 64 k.currentPid))

/-- The process an argument names: 0 is the caller. -/
def pidArg (k : Kernel) (a : Word) : Nat := if a = 0 then k.currentPid else u32 a

def sysSetprio (k : Kernel) (a0 a1 : Word) : Option (Kernel × Ret) :=
  some ({ k with sched := k.sched.setPriority (k.pidArg a0) (a1.toNat % 256) }, .value 0)

def sysSetrt (k : Kernel) (a0 a1 : Word) : Option (Kernel × Ret) :=
  some ({ k with sched := k.sched.setRealtime (k.pidArg a0) a1.toNat }, .value 0)

def sysSetquota (k : Kernel) (a0 a1 a2 a3 : Word) : Option (Kernel × Ret) :=
  some ({ k with sched := k.sched.setQuotas (k.pidArg a0) (u32 a1) (u32 a2) (min a3.toNat 65535) }, .value 0)

def sysClock (k : Kernel) : Option (Kernel × Ret) :=
  some (k, .value (BitVec.ofNat 64 (min (k.tickCount * 10000000) u64Max)))

/-! ### Messages -/

/-- Send `msg` from the current process; `refused` is the error for a message that is not accepted. -/
def sendFrom (k : Kernel) (toPid : Nat) (msg : Message) (refused : Word) : Kernel × Ret :=
  match k.sched.sendMessage k.currentPid toPid msg with
  | (s, true) => ({ k with sched := s }, .value 0)
  | (s, false) => ({ k with sched := s }, .value refused)

def sysSend (k : Kernel) (a0 a1 a2 : Word) : Option (Kernel × Ret) :=
  some (k.sendFrom (u32 a0) (((Message.new k.currentPid).setData 0 a1).setData 1 a2) einval)

/-- Read the message in the user buffer `ptr`. -/
def readMessage (k : Kernel) (ptr : Word) : Option Message :=
  (k.mem.loadBytes k.cr3 ptr messageSize).map Message.ofBytes

/-- Write a message to the user buffer `ptr`. -/
def writeMessage (k : Kernel) (ptr : Word) (msg : Message) : Option Kernel :=
  (k.mem.storeBytes k.cr3 ptr msg.toBytes).map fun m => { k with mem := m }

def sysSendMsg (k : Kernel) (a0 a1 : Word) : Option (Kernel × Ret) :=
  if !validateUserPtr a1 messageSize messageAlign then some (k, .value einval)
  else (k.readMessage a1).map fun msg => k.sendFrom (u32 a0) msg einval

/-- Leave the CPU after an empty receive; without another process to run, the call goes on at once. -/
def blockSwitch (k : Kernel) (p : Parked) : Kernel × Bool :=
  match k.sched.prepareBlockSwitch k.currentPid with
  | (s, none) => ({ k with sched := s }, false)
  | (s, some sw) => ((k.park k.currentPid p).switched (s, some sw), true)

def sysRecv (k : Kernel) (a0 : Word) : Option (Kernel × Ret) :=
  match k.sched.blockingReceive k.currentPid a0.toNat with
  | (s, some msg) => some ({ k with sched := s }, .value (msg.getData 0))
  | (s, none) =>
    let k := { k with sched := s }
    if a0 = 0 then some (k, .value (BitVec.ofNat 64 u64Max))
    else
      match k.blockSwitch .recv with
      | (k, true) => some (k, .parked)
      | (k, false) => some (k, .value (BitVec.ofNat 64 u64Max))

/-- Unlike `SYS_RECV`, a poll (timeout 0) of an empty mailbox leaves the CPU too. -/
def sysRecvMsg (k : Kernel) (a0 a1 : Word) : Option (Kernel × Ret) :=
  if !validateUserPtr a1 messageSize messageAlign then some (k, .value einval)
  else
    match k.sched.blockingReceive k.currentPid a0.toNat with
    | (s, some msg) => (({ k with sched := s } : Kernel).writeMessage a1 msg).map fun k => (k, .value 0)
    | (s, none) =>
      match ({ k with sched := s } : Kernel).blockSwitch .recv with
      | (k, true) => some (k, .parked)
      | (k, false) => some (k, .value (BitVec.ofNat 64 u64Max))

/-- The end of `SYS_CALL` after the caller has blocked: the reply, or a timeout. -/
def finishCall (k : Kernel) (a2 : Word) : Option (Kernel × Ret) :=
  match k.sched.blockingReceive k.currentPid 0 with
  | (s, some reply) => (({ k with sched := s } : Kernel).writeMessage a2 reply).map fun k => (k, .value 0)
  | (s, none) => some ({ k with sched := s }, .value etimedout)

def sysCall (k : Kernel) (a0 a1 a2 a3 : Word) : Option (Kernel × Ret) :=
  if !validateUserPtr a1 messageSize messageAlign then some (k, .value einval)
  else if !validateUserPtr a2 messageSize messageAlign then some (k, .value einval)
  else
    match k.readMessage a1 with
    | none => none
    | some msg =>
      match k.sched.sendMessage k.currentPid (u32 a0) msg with
      | (s, false) => some ({ k with sched := s }, .value eagain)
      | (s, true) =>
        let k := { k with sched := s }
        if k.sched.detectDeadlock k.currentPid (u32 a0) then some (k, .value edeadlk)
        else
          match k.sched.blockingReceive k.currentPid (if a3 = 0 then u64Max else a3.toNat) with
          | (s, some reply) => (({ k with sched := s } : Kernel).writeMessage a2 reply).map fun k => (k, .value 0)
          | (s, none) =>
            match ({ k with sched := s } : Kernel).blockSwitch (.call a2) with
            | (k, true) => some (k, .parked)
            | (k, false) => k.finishCall a2

def sysNotify (k : Kernel) (a0 a1 : Word) : Option (Kernel × Ret) :=
  match k.sched.notifyProcess (u32 a0) a1 with
  | (s, true) => some ({ k with sched := s }, .value 0)
  | (s, false) => some ({ k with sched := s }, .value einval)

/-! ### Services and capabilities -/

/-- Read the 16-byte name at `ptr`. -/
def readName (k : Kernel) (ptr : Word) : Option (List Byte) := k.mem.loadBytes k.cr3 ptr nameLen

/-- The bytes of `uart-drv`. -/
def uartDrvName : List Byte := [0x75, 0x61, 0x72, 0x74, 0x2d, 0x64, 0x72, 0x76]

def sysRegister (k : Kernel) (a0 : Word) : Option (Kernel × Ret) :=
  if !validateUserPtr a0 nameLen 1 then some (k, .value einval)
  else
    (k.readName a0).map fun name =>
      match k.registry.register name k.currentPid with
      | (_, false) => (k, .value einval)
      | (t, true) =>
        ({ k with
           registry := t
           uartDrvPid := if uartDrvName.isPrefixOf name then some k.currentPid else k.uartDrvPid }, .value 0)

def sysLookup (k : Kernel) (a0 : Word) : Option (Kernel × Ret) :=
  if !validateUserPtr a0 nameLen 1 then some (k, .value einval)
  else
    (k.readName a0).map fun name =>
      match k.registry.lookup name with
      | some pid => (k, .value ((BitVec.ofNat 32 pid).setWidth 64))
      | none => (k, .value (BitVec.ofNat 64 u64Max))

/-- Put a capability into the table of the current process; `full` is the error when there is no room. -/
def capFor (k : Kernel) (cap : Capability) (full : Word) : Kernel × Ret :=
  match k.sched.capAlloc k.currentPid cap with
  | (s, some slot) => ({ k with sched := s }, .value (BitVec.ofNat 64 slot))
  | (s, none) => ({ k with sched := s }, .value full)

def sysLookupCap (k : Kernel) (a0 : Word) : Option (Kernel × Ret) :=
  if !validateUserPtr a0 nameLen 1 then some (k, .value einval)
  else
    (k.readName a0).map fun name =>
      match k.registry.lookup name with
      | none => (k, .value enoent)
      | some pid => k.capFor ⟨.channel, capW, pid⟩ enomem

def sysCapGrant (k : Kernel) (a0 a1 : Word) : Option (Kernel × Ret) :=
  match k.sched.capGrant k.currentPid a0.toNat (u32 a1) with
  | (s, some slot) => some ({ k with sched := s }, .value (BitVec.ofNat 64 slot))
  | (s, none) =>
    let k := { k with sched := s }
    match k.sched.capSlotRights k.currentPid a0.toNat with
    | some rights => some (k, .value (if rights &&& capG = 0 then eperm else einval))
    | none => some (k, .value einval)

/-- The rights a process gives to the channel it binds. -/
def bindRights (a1 : Word) : BitVec 8 :=
  if a1 = 0 then capR ||| capW ||| capG else a1.setWidth 8 &&& (capR ||| capW ||| capG ||| capX)

def sysChanBind (k : Kernel) (a0 a1 : Word) : Option (Kernel × Ret) :=
  if u32 a0 = 0 then some (k, .value einval) else some (k.capFor ⟨.channel, bindRights a1, u32 a0⟩ einval)

/-- The target of a channel capability that carries the send right. -/
def sendTarget (k : Kernel) (slot : Nat) : Option Nat :=
  match k.sched.capSlotInfo k.currentPid slot with
  | none => none
  | some c => if c.kind = .channel ∧ c.rights &&& capW ≠ 0 then some c.objectId else none

def sysSendCap (k : Kernel) (a0 a1 : Word) : Option (Kernel × Ret) :=
  if !validateUserPtr a1 messageSize messageAlign then some (k, .value einval)
  else
    match k.sendTarget a0.toNat with
    | none => some (k, .value eperm)
    | some toPid => (k.readMessage a1).map fun msg => k.sendFrom toPid msg einval

/-! ### Memory -/

/-- The flags of a page mapped with bit 0 (writable) of `bits`. -/
def pageFlags (user : Bool) (bits : Word) : Word :=
  let flags := if user then ptePresent ||| pteUser else ptePresent
  if bits &&& 1 ≠ 0 then flags ||| pteWritable else flags

/-- `PTE_PRESENT`, with `PTE_WRITABLE` for bit 0 and `PTE_USER` for bit 1 of the argument. -/
def mapFlags (bits : Word) : Word := pageFlags (decide (bits &&& 2 ≠ 0)) bits

def sysMap (k : Kernel) (a0 a1 a2 : Word) : Option (Kernel × Ret) :=
  if !validateUserVaddr a0 then some (k, .value einval)
  else if a1 ≠ 0 ∧ a1 &&& 0xFFF#64 ≠ 0 then some (k, .value einval)
  else if !k.sched.checkMemoryQuota k.currentPid then some (k, .value enomem)
  else
    let (mem, phys) :=
      if a1 ≠ 0 then (k.mem, some a1)
      else
        match k.mem.globalAlloc4k with
        | (m, some p) => (m.frameTag p .userOwned, some p)
        | (m, none) => (m, none)
    match phys with
    | none => some ({ k with mem := mem }, .value enomem)
    | some phys =>
      match mem.mapPageGlobal k.cr3 a0 phys (mapFlags a2) with
      | (m, true) => some ({ k with mem := m, sched := k.sched.useMemoryPage k.currentPid }, .value 0)
      | (m, false) => some ({ k with mem := m }, .value enomem)

def sysMapShare (k : Kernel) (a0 a1 : Word) : Option (Kernel × Ret) :=
  if !validateUserVaddr a0 then some (k, .value einval)
  else if !k.sched.checkMemoryQuota k.currentPid then some (k, .value enomem)
  else
    match k.mem.globalAlloc4k with
    | (m, none) => some ({ k with mem := m }, .value enomem)
    | (m, some phys) =>
      let m := (m.frameTag phys .userOwned).zeroFrame phys
      match m.mapPageGlobal k.cr3 a0 phys (pageFlags true a1) with
      | (m, false) => some ({ k with mem := m }, .value enomem)
      | (m, true) =>
        let k := { k with mem := m, sched := k.sched.useMemoryPage k.currentPid }
        some (k.capFor ⟨.memory, capR ||| capW ||| capG, u32 (phys >>> 12)⟩ einval)

def sysMapCap (k : Kernel) (a0 a1 a2 : Word) : Option (Kernel × Ret) :=
  if !validateUserVaddr a0 then some (k, .value einval)
  else
    match k.sched.capSlotInfo k.currentPid a1.toNat with
    | none => some (k, .value eperm)
    | some c =>
      if c.kind = .memory ∧ c.rights &&& capR ≠ 0 then
        let bits := if c.rights &&& capW ≠ 0 then a2 else 0
        match k.mem.mapPageGlobal k.cr3 a0 (BitVec.ofNat 64 c.objectId <<< 12) (pageFlags true bits) with
        | (m, true) => some ({ k with mem := m }, .value 0)
        | (m, false) => some ({ k with mem := m }, .value einval)
      else some (k, .value eperm)

def sysPhysAddr (k : Kernel) (a0 : Word) : Option (Kernel × Ret) :=
  match k.mem.translateAddress k.cr3 a0 with
  | some phys => some (k, .value phys)
  | none => some (k, .value einval)

def sysAllocPhys (k : Kernel) : Option (Kernel × Ret) :=
  match k.mem.globalAlloc4k with
  | (m, some p) => some ({ k with mem := m.zeroFrame p }, .value p)
  | (m, none) => some ({ k with mem := m }, .value 0)

def sysCreateVas (k : Kernel) : Option (Kernel × Ret) :=
  match k.mem.globalAlloc4k with
  | (m, none) => some ({ k with mem := m }, .value enomem)
  | (m, some pml4) =>
    let m := ((m.zeroFrame pml4).mergeKernelIntoUserPml4 k.kernelPml4 pml4).mapCrashLogPage pml4
    some ({ k with mem := m }, .value pml4)

def sysMapIntoVas (k : Kernel) (a0 a1 a2 a3 : Word) : Option (Kernel × Ret) :=
  if a0 = 0 ∨ a2 = 0 then some (k, .value einval)
  else if a2 &&& 0xFFF#64 ≠ 0 then some (k, .value einval)
  else
    let flags := if a3 &&& 4 ≠ 0 then mapFlags a3 ||| pteNoExecute else mapFlags a3
    match k.mem.mapPageGlobal a0 a1 a2 flags with
    | (m, true) => some ({ k with mem := m }, .value 0)
    | (m, false) => some ({ k with mem := m }, .value enomem)

/-- Append the frames whose addresses stand in a user array to the record of a process. -/
def sysRegisterFrames (k : Kernel) (a0 a1 a2 : Word) : Option (Kernel × Ret) :=
  let count := min a2.toNat 128
  if a1 = 0 ∨ count = 0 then some (k, .value einval)
  else if !validateUserPtr a1 (count * 8) 8 then some (k, .value einval)
  else
    (k.mem.loadBytes k.cr3 a1 (count * 8)).map fun bytes =>
      let frames := (List.range count).map fun i => BitVec.ofNat 64 (field bytes (8 * i) 8)
      ({ k with sched := k.sched.appendUserFrames (u32 a0) frames }, .value 0)

/-! ### Processes -/

def sysSpawn (k : Kernel) (a1 a2 : Word) : Option (Kernel × Ret) :=
  match k.sched.addProcess (if a1 ≠ 0 then a1 else k.kernelPml4) with
  | none => none
  | some (s, none) => some ({ k with sched := s }, .value einval)
  | some (s, some pid) =>
    let s := if 0 < a2.toNat ∧ a2.toNat ≤ 255 then s.setPriority pid a2.toNat else s
    some ({ k with sched := s }, .value (BitVec.ofNat 64 pid))

/-- Both hooks of `elf_spawn`: spawn an image; a failure, and the pid `u32::MAX`, are `EINVAL`. -/
def spawnImage (k : Kernel) (img : Image) (priority : Nat) : Option (Kernel × Ret) :=
  match Elf.spawnElf k.mem k.sched k.kernelPml4 img priority with
  | none => none
  | some (m, s, pid) =>
    let k := { k with mem := m, sched := s }
    match pid with
    | none => some (k, .value einval)
    | some pid => some (k, .value (if pid = 2 ^ 32 - 1 then einval else BitVec.ofNat 64 pid))

def sysSpawnElf (k : Kernel) (a0 a1 a2 : Word) : Option (Kernel × Ret) :=
  if a1 = 0 then some (k, .value einval)
  else if h : validateUserPtr a0 a1.toNat 1 = true then
    have hlen : a1.toNat < 2 ^ 63 := by
      have := validateUserPtr_le h
      unfold userVaEnd at this
      omega
    k.spawnImage (Image.ofUser k.cr3 a0 a1.toNat hlen) (a2.toNat % 256)
  else some (k, .value einval)

/-- The image and the priority of a server the kernel can restart. -/
def serverImage (k : Kernel) (name : List Byte) : Option (Image × Nat) :=
  if name = uartDrvName then some (Image.ofBytes k.images.uartDrv k.images.uartDrv_lt, 64)
  -- rost-vfs
  else if name = [0x72, 0x6f, 0x73, 0x74, 0x2d, 0x76, 0x66, 0x73] then
    some (Image.ofBytes k.images.vfs k.images.vfs_lt, 64)
  -- rost-shell
  else if name = [0x72, 0x6f, 0x73, 0x74, 0x2d, 0x73, 0x68, 0x65, 0x6c, 0x6c] then
    some (Image.ofBytes k.images.shell k.images.shell_lt, 64)
  -- rost-net
  else if name = [0x72, 0x6f, 0x73, 0x74, 0x2d, 0x6e, 0x65, 0x74] then
    some (Image.ofBytes k.images.net k.images.net_lt, 48)
  else none

def sysRestartServer (k : Kernel) (a0 : Word) : Option (Kernel × Ret) :=
  if !validateUserPtr a0 nameLen 1 then some (k, .value einval)
  else
    match k.readName a0 with
    | none => none
    | some name =>
      match k.serverImage (trimName name) with
      | none => some (k, .value einval)
      | some (img, priority) => k.spawnImage img priority

/-- The stack is mapped by the same loop as in `spawn_elf`; its 32 frames fit into the list. -/
def sysSpawnWithVas (k : Kernel) (a0 a1 a2 : Word) : Option (Kernel × Ret) :=
  if a0 = 0 ∨ a1 = 0 then some (k, .value einval)
  else
    match Elf.mapStack a0 userStackPages 0 k.mem [] with
    | (m, none) => some ({ k with mem := m }, .value enomem)
    | (m, some frames) =>
      match k.sched.addRing3Process a0 with
      | none => none
      | some (s, none) => some ({ k with mem := m, sched := s }, .value einval)
      | some (s, some pid) =>
        let s := s.setPriority pid (if a2 = 0 then 128 else a2.toNat % 256)
        some ({ k with mem := m, sched := s.registerUserFrames pid frames }, .value (BitVec.ofNat 64 pid))

/-- The 24 bytes of one entry of the process list. -/
def procEntry (k : Kernel) (e : Nat × Nat × Nat) : List Byte :=
  leBytes 4 e.1 ++ [BitVec.ofNat 8 e.2.1, BitVec.ofNat 8 e.2.2, 0, 0] ++ k.registry.lookupByPid e.1

def sysListProcs (k : Kernel) (a0 a1 : Word) : Option (Kernel × Ret) :=
  let capacity := min a1.toNat 32
  if !validateUserPtr a0 (24 * capacity) 4 then some (k, .value einval)
  else
    let list := k.sched.processTable.listAll.take capacity
    (k.mem.storeBytes k.cr3 a0 (list.flatMap k.procEntry)).map fun m =>
      ({ k with mem := m }, .value (BitVec.ofNat 64 list.length))

/-! ### Devices -/

/-- The 32 bytes of `FbQueryResult`. -/
def fbBytes (fb : FbInfo) : List Byte :=
  leBytes 8 fb.base.toNat ++ leBytes 8 fb.size.toNat ++ leBytes 4 fb.width.toNat ++ leBytes 4 fb.height.toNat ++
    leBytes 4 fb.stride.toNat ++ leBytes 4 fb.format.toNat

def sysGetFramebuf (k : Kernel) (a0 : Word) : Option (Kernel × Ret) :=
  if !validateUserPtr a0 32 8 then some (k, .value einval)
  else
    match k.framebuf with
    | none => some (k, .value (BitVec.ofNat 64 (u64Max - 5)))
    | some fb => (k.mem.storeBytes k.cr3 a0 (fbBytes fb)).map fun m => ({ k with mem := m }, .value 0)

/-- Port numbers above `0xFFFF` are refused; what a port answers is an input. -/
def sysIoport (k : Kernel) (a0 answer : Word) : Option (Kernel × Ret) :=
  if 0xFFFF < a0.toNat then some (k, .value einval) else some (k, .value answer)

def sysIrqRegister (k : Kernel) (a0 : Word) : Option (Kernel × Ret) :=
  let gsi := a0.toNat % 256
  if gsi = 1 ∨ (8 ≤ gsi ∧ gsi ≤ 15) then
    some ({ k with irqPid := fun g => if g = gsi then some k.currentPid else k.irqPid g }, .value 0)
  else some (k, .value einval)

/-! ### The dispatcher -/

/-- One syscall of the current process; `none` when the kernel halts. -/
def dispatch (k : Kernel) (r : Request) : Option (Kernel × Ret) :=
  match r.sys with
  | .yield => k.sysYield
  | .exit => k.sysExit
  | .getpid => k.sysGetpid
  | .send => k.sysSend r.a0 r.a1 r.a2
  | .recv => k.sysRecv r.a0
  | .notify => k.sysNotify r.a0 r.a1
  | .recvMsg => k.sysRecvMsg r.a0 r.a1
  | .sendMsg => k.sysSendMsg r.a0 r.a1
  | .spawn => k.sysSpawn r.a1 r.a2
  | .map => k.sysMap r.a0 r.a1 r.a2
  | .register => k.sysRegister r.a0
  | .lookup => k.sysLookup r.a0
  | .uartWrite => some (k, .value 0)
  | .uartRead => some (k, .value r.device)
  | .clock => k.sysClock
  | .setprio => k.sysSetprio r.a0 r.a1
  | .setrt => k.sysSetrt r.a0 r.a1
  | .call => k.sysCall r.a0 r.a1 r.a2 r.a3
  | .capGrant => k.sysCapGrant r.a0 r.a1
  | .setquota => k.sysSetquota r.a0 r.a1 r.a2 r.a3
  | .chanBind => k.sysChanBind r.a0 r.a1
  | .sendCap => k.sysSendCap r.a0 r.a1
  | .mapShare => k.sysMapShare r.a0 r.a1
  | .mapCap => k.sysMapCap r.a0 r.a1 r.a2
  | .lookupCap => k.sysLookupCap r.a0
  | .spawnElf => k.sysSpawnElf r.a0 r.a1 r.a2
  | .restartServer => k.sysRestartServer r.a0
  | .listProcs => k.sysListProcs r.a0 r.a1
  | .ioportOut => k.sysIoport r.a0 0
  | .ioportIn => k.sysIoport r.a0 r.device
  | .physAddr => k.sysPhysAddr r.a0
  | .irqRegister => k.sysIrqRegister r.a0
  | .getFramebuf => k.sysGetFramebuf r.a0
  | .allocPhys => k.sysAllocPhys
  | .createVas => k.sysCreateVas
  | .mapIntoVas => k.sysMapIntoVas r.a0 r.a1 r.a2 r.a3
  | .spawnWithVas => k.sysSpawnWithVas r.a0 r.a1 r.a2
  | .registerFrames => k.sysRegisterFrames r.a0 r.a1 r.a2
  | .other => some (k, .value enosys)

/-- The current process goes on inside the syscall in which it was parked. -/
def resume (k : Kernel) : Option (Kernel × Ret) :=
  match k.parked k.currentPid with
  | none => none
  | some .yield => some (k.unpark k.currentPid, .value 0)
  | some .recv => some (k.unpark k.currentPid, .value (BitVec.ofNat 64 u64Max))
  | some (.call a2) => (k.unpark k.currentPid).finishCall a2

/-! ### Interrupts -/

/-- The timer interrupt. -/
def tick (k : Kernel) : Kernel :=
  ({ k with tickCount := k.tickCount + 1 } : Kernel).switched k.sched.timerTick

/-- A device interrupt: a message from the pseudo-pid 0 to the registered handler, then a reschedule. -/
def pciIrq (k : Kernel) (gsi : Nat) : Kernel :=
  let sched :=
    match k.irqPid gsi with
    | none => k.sched
    | some pid =>
      (k.sched.sendMessage 0 pid ((Message.new 0).setData 0 (BitVec.ofNat 64 (0xFFFF0000 ||| gsi)))).1
  k.switched sched.rescheduleIsr

/-- The UART interrupt: one message for each received byte, then a reschedule. -/
def uartIrq (k : Kernel) (bytes : List Byte) : Kernel :=
  let sched :=
    match k.uartDrvPid with
    | none => k.sched
    | some pid =>
      bytes.foldl
        (fun (s : Scheduler) (b : Byte) => (s.sendMessage 0 pid (((Message.new 0).setData 0 2).setData 1 (b.setWidth 64))).1)
        k.sched
  k.switched sched.rescheduleIsr

/-- A fault in user mode: `init` is told, and the process is removed. -/
def userFault (k : Kernel) (faultCode : Word) : Kernel :=
  let msg := ((Message.new k.currentPid).setData 0 faultCode).setData 1 (BitVec.ofNat 64 k.currentPid)
  let k := ({ k with sched := (k.sched.sendMessage k.currentPid 1 msg).1 } : Kernel).terminateProcess k.currentPid
  k.switched k.sched.forceScheduleNext

end Kernel

end Rost
