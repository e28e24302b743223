import Rost.Kernel.Step

/-!
# Pointers from user space

The syscalls that take a pointer compare it with `USER_VA_END` and then read or write through it on the page tables of
the caller, where the memory of the kernel is mapped too.  `pointerSafe_iff` says when such a call keeps to user pages
or is refused: besides the calls with a buffer in user pages, these are only the calls that are refused for some other
reason.
-/

namespace Rost

open Lib (Run)

namespace Kernel

/-! ### Buffers -/

/-- The syscalls with an argument that `validate_user_ptr` checks. -/
def checksPointers : Sys → Bool
  | .sendMsg | .recvMsg | .call | .sendCap | .register | .lookup | .spawnElf | .listProcs | .getFramebuf
  | .registerFrames => true
  | _ => false

/-- A range of addresses that the kernel reads, or writes. -/
structure Buffer where
  ptr : Word
  size : Nat
  written : Bool

/-- The buffers of a syscall. -/
def buffers (r : Request) : List Buffer :=
  match r.sys with
  | .sendMsg | .sendCap => [⟨r.a1, messageSize, false⟩]
  | .recvMsg => [⟨r.a1, messageSize, true⟩]
  | .call => [⟨r.a1, messageSize, false⟩, ⟨r.a2, messageSize, true⟩]
  | .register | .lookup => [⟨r.a0, nameLen, false⟩]
  | .spawnElf => [⟨r.a0, r.a1.toNat, false⟩]
  | .listProcs => [⟨r.a0, 24 * min r.a1.toNat 32, true⟩]
  | .getFramebuf => [⟨r.a0, 32, true⟩]
  | .registerFrames => [⟨r.a1, min r.a2.toNat 128 * 8, false⟩]
  | _ => []

/-- Every byte of the buffer lies in a page of the caller that user mode may access, and write if the kernel does. -/
def InUserPages (k : Kernel) (b : Buffer) : Prop :=
  ∀ i < b.size, k.mem.hasRight k.cr3 (b.ptr + BitVec.ofNat 64 i) pteUser = true ∧
    (b.written = true → k.mem.hasRight k.cr3 (b.ptr + BitVec.ofNat 64 i) pteWritable = true)

/-- All buffers of the syscall lie in user pages. -/
def AllUser (k : Kernel) (r : Request) : Prop := ∀ b ∈ buffers r, k.InUserPages b

/-- Unless all its buffers lie in user pages, the syscall returns `EINVAL` and changes nothing. -/
def PointerSafe (k : Kernel) (r : Request) : Prop := ¬ k.AllUser r → k.dispatch r = some (k, .value einval)

/-! ### Refusals -/

/-- The checks before the first access: `validate_user_ptr`, and the zero tests of two syscalls. -/
def badPointer (r : Request) : Bool :=
  match r.sys with
  | .sendMsg | .recvMsg | .sendCap => !validateUserPtr r.a1 messageSize messageAlign
  | .call => !validateUserPtr r.a1 messageSize messageAlign || !validateUserPtr r.a2 messageSize messageAlign
  | .register | .lookup => !validateUserPtr r.a0 nameLen 1
  | .spawnElf => decide (r.a1 = 0) || !validateUserPtr r.a0 r.a1.toNat 1
  | .listProcs => !validateUserPtr r.a0 (24 * min r.a1.toNat 32) 4
  | .getFramebuf => !validateUserPtr r.a0 32 8
  | .registerFrames =>
    decide (r.a1 = 0 ∨ min r.a2.toNat 128 = 0) || !validateUserPtr r.a1 (min r.a2.toNat 128 * 8) 8
  | _ => false

/-- No message of the current process reaches `toPid`: there is no such process, or the sender is over its rate. -/
def Undeliverable (k : Kernel) (toPid : Nat) : Prop :=
  k.sched.getProcess toPid = none ∨ (k.sched.getProcess k.currentPid).any Scheduler.rateLimited = true

/-- The refusals after the buffer has been read: of a message that cannot be delivered, of a name that cannot be
registered, and of an image that is too short, has a bad header, or finds no frame for its PML4. -/
def Declined (k : Kernel) (r : Request) : Prop :=
  match r.sys with
  | .sendMsg => (k.readMessage r.a1).isSome = true ∧ k.Undeliverable (u32 r.a0)
  | .sendCap => ∃ toPid, k.sendTarget r.a0.toNat = some toPid ∧ (k.readMessage r.a1).isSome = true ∧
      k.Undeliverable toPid
  | .register => ∃ name, k.readName r.a0 = some name ∧ (trimName name = [] ∨
      (k.registry.any (Registry.hasName (trimName name)) = false ∧ k.registry.any (fun e => !e.used) = false))
  | .spawnElf => r.a1.toNat < ehdrSize ∨ ∃ bytes, k.mem.loadBytes k.cr3 r.a0 ehdrSize = some bytes ∧
      ((Elf64Ehdr.ofBytes bytes).valid = false ∨ ∀ idx, ¬ k.mem.Allocatable idx)
  | _ => False

section Handlers

variable {k : Kernel}

private theorem pair_ne_einval {v : Word} (h : v ≠ einval) {k₁ k₂ : Kernel} :
    (k₁, Ret.value v) ≠ (k₂, .value einval) := by
  intro heq
  exact h (Ret.value.inj (congrArg Prod.snd heq))

private theorem wrapAdd_one_ne (n : Nat) : wrapAdd 16 n 1 ≠ n := by
  unfold wrapAdd
  omega

/-- A message refused by a full mailbox is charged to its sender, so only an undeliverable one changes nothing. -/
private theorem sendFrom_refused_iff {x : Pcb} (hx : k.sched.getProcess k.currentPid = some x) (toPid : Nat)
    (msg : Message) : k.sendFrom toPid msg einval = (k, .value einval) ↔ k.Undeliverable toPid := by
  unfold sendFrom
  rcases k.sched.sendMessage_cases k.currentPid toPid msg with
    ⟨hrefused, heq⟩ | ⟨p, hp, hlim, ⟨-, heq⟩ | ⟨-, heq⟩⟩
  · rw [heq]; exact iff_of_true rfl hrefused
  · rw [heq]
    refine iff_of_false (fun h => ?_) (fun h => ?_)
    · have hsched : k.sched.update k.currentPid (Scheduler.chargeSend toPid) (Scheduler.chargeSend_pid toPid) =
          k.sched := congrArg (fun out => out.1.sched) h
      have hget := Scheduler.getProcess_update k.sched k.currentPid (Scheduler.chargeSend toPid)
        (Scheduler.chargeSend_pid toPid) k.currentPid
      rw [hsched, if_pos rfl, hx] at hget
      have hused := congrArg Pcb.ipcRateUsed (Option.some.inj hget)
      exact wrapAdd_one_ne x.ipcRateUsed hused.symm
    · rcases h with h | h
      · rw [hp] at h; cases h
      · rw [hlim] at h; cases h
  · rw [heq]
    refine iff_of_false (fun h => ?_) (fun h => ?_)
    · exact pair_ne_einval (by decide) h
    · rcases h with h | h
      · rw [hp] at h; cases h
      · rw [hlim] at h; cases h

private theorem sendRead_refused_iff {x : Pcb} (hx : k.sched.getProcess k.currentPid = some x) (toPid : Nat)
    (ptr : Word) : (k.readMessage ptr).map (fun msg => k.sendFrom toPid msg einval) = some (k, .value einval) ↔
      (k.readMessage ptr).isSome = true ∧ k.Undeliverable toPid := by
  cases hmsg : k.readMessage ptr with
  | none => simp
  | some msg =>
    rw [Option.map_some, Option.some.injEq, sendFrom_refused_iff hx]
    simp

private theorem map_ne_einval {v : Word} (h : v ≠ einval) {k' : Kernel} {o : Option Kernel} :
    o.map (fun k => (k, Ret.value v)) ≠ some (k', .value einval) := by
  intro heq
  obtain ⟨k₂, -, heq₂⟩ := Option.map_eq_some_iff.1 heq
  exact pair_ne_einval h heq₂

private theorem sysRecvMsg_ne_einval {k' : Kernel} {a0 a1 : Word}
    (hptr : validateUserPtr a1 messageSize messageAlign = true) : k.sysRecvMsg a0 a1 ≠ some (k', .value einval) := by
  intro h
  unfold sysRecvMsg at h
  rw [hptr] at h
  simp only [Bool.not_true, Bool.false_eq_true, if_false] at h
  split at h
  · exact map_ne_einval (by decide) h
  · split at h
    · have hret := congrArg Prod.snd (Option.some.inj h)
      cases hret
    · exact pair_ne_einval (by decide) (Option.some.inj h)

private theorem finishCall_ne_einval {k' : Kernel} {a2 : Word} : k.finishCall a2 ≠ some (k', .value einval) := by
  intro h
  unfold finishCall at h
  split at h
  · exact map_ne_einval (by decide) h
  · exact pair_ne_einval (by decide) (Option.some.inj h)

private theorem sysCall_ne_einval {k' : Kernel} {a0 a1 a2 a3 : Word}
    (h₁ : validateUserPtr a1 messageSize messageAlign = true)
    (h₂ : validateUserPtr a2 messageSize messageAlign = true) :
    k.sysCall a0 a1 a2 a3 ≠ some (k', .value einval) := by
  intro h
  unfold sysCall at h
  rw [h₁, h₂] at h
  simp only [Bool.not_true, Bool.false_eq_true, if_false] at h
  split at h
  · cases h
  · split at h
    · exact pair_ne_einval (by decide) (Option.some.inj h)
    · split at h
      · exact pair_ne_einval (by decide) (Option.some.inj h)
      · split at h
        · exact map_ne_einval (by decide) h
        · split at h
          · have hret := congrArg Prod.snd (Option.some.inj h)
            cases hret
          · exact finishCall_ne_einval h

/-! ### Services -/

private theorem register_refused_iff (t : Registry) (name : List Byte) (pid : Nat) :
    (t.register name pid).2 = false ↔ trimName name = [] ∨
      (t.any (Registry.hasName (trimName name)) = false ∧ t.any (fun e => !e.used) = false) := by
  unfold Registry.register
  simp only
  split
  · rename_i hnil; exact iff_of_true rfl (Or.inl hnil)
  · rename_i hnil
    split
    · rename_i hname
      refine iff_of_false (fun h => Bool.noConfusion h) ?_
      rintro (h | ⟨h, -⟩)
      · exact hnil h
      · rw [hname] at h; cases h
    · rename_i hname
      split
      · rename_i hfree
        refine iff_of_false (fun h => Bool.noConfusion h) ?_
        rintro (h | ⟨-, h⟩)
        · exact hnil h
        · rw [hfree] at h; cases h
      · rename_i hfree
        exact iff_of_true rfl (Or.inr ⟨by simpa using hname, by simpa using hfree⟩)

private theorem sysRegister_refused_iff {a0 : Word} (hptr : validateUserPtr a0 nameLen 1 = true) :
    k.sysRegister a0 = some (k, .value einval) ↔ ∃ name, k.readName a0 = some name ∧ (trimName name = [] ∨
      (k.registry.any (Registry.hasName (trimName name)) = false ∧ k.registry.any (fun e => !e.used) = false)) := by
  unfold sysRegister
  rw [hptr]
  simp only [Bool.not_true, Bool.false_eq_true, if_false]
  cases hname : k.readName a0 with
  | none => simp
  | some name =>
    rw [Option.map_some]
    have hiff := register_refused_iff k.registry name k.currentPid
    simp only [Option.some.injEq, exists_eq_left']
    rw [← hiff]
    split
    · rename_i t hreg; exact iff_of_true rfl (congrArg Prod.snd hreg)
    · rename_i t hreg
      refine iff_of_false (fun h => ?_) (fun h => ?_)
      · exact pair_ne_einval (by decide) h
      · rw [hreg] at h; cases h

private theorem sysLookup_ne_einval {k' : Kernel} {a0 : Word} (hptr : validateUserPtr a0 nameLen 1 = true) :
    k.sysLookup a0 ≠ some (k', .value einval) := by
  intro h
  unfold sysLookup at h
  rw [hptr] at h
  simp only [Bool.not_true, Bool.false_eq_true, if_false] at h
  obtain ⟨name, -, heq⟩ := Option.map_eq_some_iff.1 h
  split at heq
  · rename_i pid _
    have hret : Ret.value ((BitVec.ofNat 32 pid).setWidth 64) = Ret.value einval := congrArg Prod.snd heq
    have hval := congrArg BitVec.toNat (Ret.value.inj hret)
    -- a pid has 32 bits
    have hlt : ((BitVec.ofNat 32 pid).setWidth 64).toNat < 2 ^ 32 := by
      rw [BitVec.toNat_setWidth, Nat.mod_eq_of_lt]
      · exact (BitVec.ofNat 32 pid).isLt
      · have := (BitVec.ofNat 32 pid).isLt
        omega
    rw [hval] at hlt
    exact absurd hlt (by decide)
  · exact pair_ne_einval (by decide) heq

/-! ### Images -/

private theorem readBytes_ofUser (m : Memory) (pml4 ptr : Word) {len : Nat} (h : len < 2 ^ 63) (off n : Nat) :
    (Image.ofUser pml4 ptr len h).readBytes m off n = m.loadBytes pml4 (ptr + BitVec.ofNat 64 off) n := by
  induction n generalizing off with
  | zero => rfl
  | succ n ih =>
    have hnext : ptr + BitVec.ofNat 64 (off + 1) = ptr + BitVec.ofNat 64 off + 1 := by
      rw [BitVec.ofNat_add, BitVec.add_assoc]
      rfl
    unfold Image.readBytes Memory.loadBytes
    rw [ih, hnext]
    rfl

private theorem spawnElf_refused {m : Memory} {s : Scheduler} {kernelPml4 : Word} {img : Image} {priority : Nat}
    (h : img.len < ehdrSize ∨ ∃ bytes, img.readBytes m 0 ehdrSize = some bytes ∧
      ((Elf64Ehdr.ofBytes bytes).valid = false ∨ ∀ idx, ¬ m.Allocatable idx)) :
    Elf.spawnElf m s kernelPml4 img priority = some (m, s, none) := by
  have hload : Elf.load m img none = some (m, none) := by
    unfold Elf.load
    split
    · rfl
    · rename_i hlen
      obtain ⟨bytes, hread, hcase⟩ := h.resolve_left hlen
      rw [hread]
      simp only
      cases hvalid : (Elf64Ehdr.ofBytes bytes).valid with
      | false => rfl
      | true =>
        rcases hcase with hbad | hfull
        · rw [hvalid] at hbad; cases hbad
        · rcases m.globalAlloc4k_cases with ⟨-, heq⟩ | ⟨idx, hidx, -⟩
          · simp only [Bool.not_true, Bool.false_eq_true, if_false]
            rw [heq]
          · exact absurd hidx (hfull idx)
  unfold Elf.spawnElf
  rw [hload]

private theorem spawnImage_refused_iff (img : Image) (priority : Nat) :
    k.spawnImage img priority = some (k, .value einval) ↔
      img.len < ehdrSize ∨ ∃ bytes, img.readBytes k.mem 0 ehdrSize = some bytes ∧
        ((Elf64Ehdr.ofBytes bytes).valid = false ∨ ∀ idx, ¬ k.mem.Allocatable idx) := by
  constructor
  · intro h
    by_contra hnot
    obtain ⟨hlen, hhdr⟩ := not_or.1 hnot
    unfold spawnImage at h
    split at h
    · cases h
    · rename_i m s pid hspawn
      have hmem : m = k.mem := by
        simp only at h
        split at h <;> exact congrArg (fun out => out.1.mem) (Option.some.inj h)
      cases hread : img.readBytes k.mem 0 ehdrSize with
      | none =>
        -- the read of the header stops the kernel
        unfold Elf.spawnElf Elf.load at hspawn
        rw [if_neg hlen, hread] at hspawn
        cases hspawn
      | some bytes =>
        have hrest := not_exists.1 hhdr bytes
        rw [not_and, not_or] at hrest
        obtain ⟨hvalid, halloc⟩ := hrest hread
        obtain ⟨idx, hidx⟩ := not_forall.1 halloc
        have hvalid' : (Elf64Ehdr.ofBytes bytes).valid = true := by simpa using hvalid
        exact Elf.spawnElf_mem_ne (Nat.le_of_not_lt hlen) hread hvalid' (not_not.1 hidx) hspawn hmem
  · intro h
    unfold spawnImage
    rw [spawnElf_refused h]

private theorem sysSpawnElf_refused_iff {a0 a1 a2 : Word} (h0 : a1 ≠ 0) (hptr : validateUserPtr a0 a1.toNat 1 = true) :
    k.sysSpawnElf a0 a1 a2 = some (k, .value einval) ↔
      a1.toNat < ehdrSize ∨ ∃ bytes, k.mem.loadBytes k.cr3 a0 ehdrSize = some bytes ∧
        ((Elf64Ehdr.ofBytes bytes).valid = false ∨ ∀ idx, ¬ k.mem.Allocatable idx) := by
  unfold sysSpawnElf
  rw [if_neg h0, dif_pos hptr, spawnImage_refused_iff]
  simp only [readBytes_ofUser, BitVec.add_zero]
  rfl

/-! ### The other calls -/

private theorem sysListProcs_ne_einval {k' : Kernel} {a0 a1 : Word}
    (hptr : validateUserPtr a0 (24 * min a1.toNat 32) 4 = true) : k.sysListProcs a0 a1 ≠ some (k', .value einval) := by
  intro h
  unfold sysListProcs at h
  simp only at h
  rw [hptr] at h
  simp only [Bool.not_true, Bool.false_eq_true, if_false] at h
  obtain ⟨m, -, heq⟩ := Option.map_eq_some_iff.1 h
  refine pair_ne_einval (fun hval => ?_) heq
  have hlen := congrArg BitVec.toNat hval
  have hle : (k.sched.processTable.listAll.take (min a1.toNat 32)).length ≤ 32 := by
    rw [List.length_take]
    omega
  rw [BitVec.toNat_ofNat, Nat.mod_eq_of_lt (by omega)] at hlen
  rw [hlen] at hle
  exact absurd hle (by decide)

private theorem sysGetFramebuf_ne_einval {k' : Kernel} {a0 : Word} (hptr : validateUserPtr a0 32 8 = true) :
    k.sysGetFramebuf a0 ≠ some (k', .value einval) := by
  intro h
  unfold sysGetFramebuf at h
  rw [hptr] at h
  simp only [Bool.not_true, Bool.false_eq_true, if_false] at h
  split at h
  · exact pair_ne_einval (by decide) (Option.some.inj h)
  · obtain ⟨m, -, heq⟩ := Option.map_eq_some_iff.1 h
    exact pair_ne_einval (by decide) heq

private theorem sysRegisterFrames_ne_einval {k' : Kernel} {a0 a1 a2 : Word} (h0 : ¬ (a1 = 0 ∨ min a2.toNat 128 = 0))
    (hptr : validateUserPtr a1 (min a2.toNat 128 * 8) 8 = true) :
    k.sysRegisterFrames a0 a1 a2 ≠ some (k', .value einval) := by
  intro h
  unfold sysRegisterFrames at h
  simp only at h
  rw [if_neg h0, hptr] at h
  simp only [Bool.not_true, Bool.false_eq_true, if_false] at h
  obtain ⟨bytes, -, heq⟩ := Option.map_eq_some_iff.1 h
  exact pair_ne_einval (by decide) heq

end Handlers

/-- A call with a pointer returns `EINVAL` and changes nothing exactly when a check before its first access fails or it
is declined after the buffer has been read. -/
theorem dispatch_refused_iff {k : Kernel} {r : Request} {x : Pcb} (hr : checksPointers r.sys = true)
    (hx : k.sched.getProcess k.currentPid = some x) :
    k.dispatch r = some (k, .value einval) ↔ badPointer r = true ∨ k.Declined r := by
  obtain ⟨sys, a0, a1, a2, a3, device⟩ := r
  -- a call with a rejected pointer returns at once
  cases hbad : badPointer ⟨sys, a0, a1, a2, a3, device⟩ with
  | true =>
    refine iff_of_true ?_ (Or.inl rfl)
    unfold dispatch
    cases sys <;> first | (cases hr; done) | skip
    all_goals simp only [badPointer] at hbad
    case sendMsg => simp only [sysSendMsg, hbad, if_true]
    case recvMsg => simp only [sysRecvMsg, hbad, if_true]
    case sendCap => simp only [sysSendCap, hbad, if_true]
    case register => simp only [sysRegister, hbad, if_true]
    case lookup => simp only [sysLookup, hbad, if_true]
    case listProcs => simp only [sysListProcs, hbad, if_true]
    case getFramebuf => simp only [sysGetFramebuf, hbad, if_true]
    case call =>
      unfold sysCall
      rcases Bool.or_eq_true_iff.1 hbad with hptr | hptr
      · simp only [hptr, if_true]
      · simp only [hptr, if_true, ite_self]
    case spawnElf =>
      unfold sysSpawnElf
      rcases Bool.or_eq_true_iff.1 hbad with hzero | hptr
      · rw [if_pos (of_decide_eq_true hzero)]
      · rw [dif_neg (by simpa using hptr), ite_self]
    case registerFrames =>
      unfold sysRegisterFrames
      simp only
      rcases Bool.or_eq_true_iff.1 hbad with hzero | hptr
      · rw [if_pos (of_decide_eq_true hzero)]
      · simp only [hptr, if_true, ite_self]
  | false =>
    simp only [Bool.false_eq_true, false_or]
    unfold dispatch Declined
    cases sys <;> first | (cases hr; done) | skip
    all_goals simp only [badPointer, Bool.not_eq_false', Bool.or_eq_false_iff, decide_eq_false_iff_not] at hbad
    case sendMsg =>
      simp only [sysSendMsg, hbad, Bool.not_true, Bool.false_eq_true, if_false]
      exact sendRead_refused_iff hx (u32 a0) a1
    case sendCap =>
      simp only [sysSendCap, hbad, Bool.not_true, Bool.false_eq_true, if_false]
      cases htarget : k.sendTarget a0.toNat with
      | none =>
        refine iff_of_false (fun h => pair_ne_einval (by decide) (Option.some.inj h)) ?_
        rintro ⟨toPid, htarget', -⟩
        cases htarget'
      | some toPid =>
        simp only [Option.some.injEq, exists_eq_left']
        exact sendRead_refused_iff hx toPid a1
    case register => exact sysRegister_refused_iff hbad
    case spawnElf => exact sysSpawnElf_refused_iff hbad.1 hbad.2
    case recvMsg => exact iff_of_false (sysRecvMsg_ne_einval hbad) id
    case call => exact iff_of_false (sysCall_ne_einval hbad.1 hbad.2) id
    case lookup => exact iff_of_false (sysLookup_ne_einval hbad) id
    case listProcs => exact iff_of_false (sysListProcs_ne_einval hbad) id
    case getFramebuf => exact iff_of_false (sysGetFramebuf_ne_einval hbad) id
    case registerFrames => exact iff_of_false (sysRegisterFrames_ne_einval hbad.1 hbad.2) id

end Kernel

end Rost
