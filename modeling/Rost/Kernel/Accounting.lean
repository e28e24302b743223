import Rost.Kernel.Housing
import Rost.Kernel.Lifetime

/-!
# The memory account of a process

`SYS_MAP` with a frame from the bitmap, `SYS_MAP_SHARE`, `SYS_MAP_CAP` and `SYS_EXIT`, called by any processes in any
order, while other parts of the kernel take frames and give them back.  A call takes a frame, maps it, counts it, and
installs a capability, and it may stop after each of these steps; `Ends` lists the ways.  The account of a process counts
the frames that have been mapped (`memory_accounted`): a call that fails leaves the account, the capabilities and the
translations of its caller alone, except that `SYS_MAP_SHARE` keeps the page when there is no room for the capability.  A
frame that could not be mapped is lost, but only when there is no frame left for a page table.
-/

namespace Rost

open Lib (Run exec run_of_exec)
open Memory (Tables Consumes Widens SameMap)

/-! ### Calls -/

/-- The calls that take, map and give back memory; `SYS_MAP` without an address of a frame. -/
inductive MemCall where
  | map (vaddr flags : Word)
  | mapShare (vaddr flags : Word)
  | mapCap (vaddr slot flags : Word)
  | exit
deriving DecidableEq

namespace MemCall

def request : MemCall → Request
  | .map vaddr flags => ⟨.map, vaddr, 0, flags, 0, 0⟩
  | .mapShare vaddr flags => ⟨.mapShare, vaddr, flags, 0, 0, 0⟩
  | .mapCap vaddr slot flags => ⟨.mapCap, vaddr, slot, flags, 0, 0⟩
  | .exit => ⟨.exit, 0, 0, 0, 0, 0⟩

/-- The address at which the call maps a page. -/
def vaddr (c : MemCall) : Word := c.request.a0

end MemCall

/-- The errors of the ABI. -/
def errors : List Word := [enosys, einval, eperm, enomem, eagain, etimedout, enoent, edeadlk]

/-- The call ends with an error. -/
def Ret.IsError (r : Ret) : Prop := ∃ e ∈ errors, r = .value e

namespace Kernel

/-- The kernel in a call of the process `pid`. -/
def calledBy (k : Kernel) (pid : Nat) : Kernel := { k with currentPid := pid }

/-- The data frame that a call takes from the bitmap, before it maps it. -/
def draws (k : Kernel) : MemCall → Option Word
  | .map vaddr _ | .mapShare vaddr _ =>
    if validateUserVaddr vaddr && k.sched.checkMemoryQuota k.currentPid then k.mem.globalAlloc4k.2 else none
  | _ => none

/-- How a call that maps a page ends. -/
inductive Ends (k : Kernel) (tag : Tags) (c : MemCall) : Kernel → Ret → Prop
  | refused {e : Word} (hdraws : k.draws c = none) : Ends k tag c k (.value e)
  /-- There is no frame for a page table. -/
  | failed {m' : Memory} {tag' : Tags} {e : Word} (hw : Widens k.kernelPml4 k.mem tag m' tag')
      (hnew : ∀ f, k.draws c = some f → m'.Fresh tag' f) (hsame : SameMap k.mem tag m') (hfull : m'.allocPtFrame.2 = none)
      (he : e = enomem ∨ k.draws c = none) : Ends k tag c { k with mem := m' } (.value e)
  | mappedCap {m' : Memory} {tag' : Tags} (hw : Widens k.kernelPml4 k.mem tag m' tag') (hdraws : k.draws c = none) :
      Ends k tag c { k with mem := m' } (.value 0)
  | mapped {m' : Memory} {tag' : Tags} {f : Word} (hw : Widens k.kernelPml4 k.mem tag m' tag')
      (hdraws : k.draws c = some f) (hnew : m'.Fresh tag' f) (hat : m'.translateAddress k.cr3 c.vaddr = some f) :
      Ends k tag c { k with mem := m', sched := k.sched.useMemoryPage k.currentPid } (.value 0)
  | shared {m' : Memory} {tag' : Tags} {f : Word} {s' : Scheduler} {slot : Nat}
      (hw : Widens k.kernelPml4 k.mem tag m' tag') (hdraws : k.draws c = some f) (hnew : m'.Fresh tag' f)
      (hat : m'.translateAddress k.cr3 c.vaddr = some f)
      (hcap : (k.sched.useMemoryPage k.currentPid).capAlloc k.currentPid (shareCap f) = (s', some slot)) :
      Ends k tag c { k with mem := m', sched := s' } (.value (BitVec.ofNat 64 slot))
  /-- There is no room for the capability. -/
  | unshared {m' : Memory} {tag' : Tags} {f : Word} (hw : Widens k.kernelPml4 k.mem tag m' tag')
      (hdraws : k.draws c = some f) (hnew : m'.Fresh tag' f) (hat : m'.translateAddress k.cr3 c.vaddr = some f)
      (hshare : ∃ vaddr flags, c = .mapShare vaddr flags)
      (hcap : ((k.sched.useMemoryPage k.currentPid).capAlloc k.currentPid (shareCap f)).2 = none) :
      Ends k tag c { k with mem := m', sched := k.sched.useMemoryPage k.currentPid } (.value einval)

section Calls

variable {k k' : Kernel} {tag : Tags} {ret : Ret}

/-- The flags of a page are present, no part of an address, and open to user mode only if they should be. -/
theorem pageFlags_cases (user : Bool) (bits : Word) : pageFlags user bits &&& pteAddrMask = 0 ∧
    pageFlags user bits &&& ptePresent ≠ 0 ∧ (pageFlags user bits &&& pteUser ≠ 0 → user = true) := by
  unfold pageFlags
  cases user with
  | false =>
    refine ⟨?_, ?_, fun h => absurd ?_ h⟩
    · simp only
      split <;> decide
    · simp only
      split <;> decide
    · simp only
      split <;> decide
  | true =>
    refine ⟨?_, ?_, fun _ => rfl⟩
    · simp only
      split <;> decide
    · simp only
      split <;> decide

/-- The page table entry for a frame maps it. -/
private theorem pageEntry_pageFlags {f : Word} (hf : IsTableAddr f) (user : Bool) (bits : Word) :
    Memory.pageEntry f (pageFlags user bits) &&& ptePresent ≠ 0 ∧
      Memory.pageEntry f (pageFlags user bits) &&& pteAddrMask = f := by
  obtain ⟨haddr, hpresent, -⟩ := pageFlags_cases user bits
  rw [Memory.pageEntry_present]
  exact ⟨hpresent, Memory.pageEntry_addr hf haddr⟩

/-- A call takes a frame if it is supplied with one. -/
theorem draws_eq_some {c : MemCall} {f : Word} (h : k.draws c = some f) :
    k.Supplied c.vaddr ∧ k.mem.globalAlloc4k.2 = some f := by
  have hif : ∀ vaddr : Word, (if validateUserVaddr vaddr && k.sched.checkMemoryQuota k.currentPid then
      k.mem.globalAlloc4k.2 else none) = some f → k.Supplied vaddr ∧ k.mem.globalAlloc4k.2 = some f := by
    intro vaddr hf
    split at hf
    · rename_i hcond
      obtain ⟨hvalid, hquota⟩ := Bool.and_eq_true_iff.1 hcond
      exact ⟨⟨hvalid, hquota, by rw [hf]; exact nofun⟩, hf⟩
    · cases hf
  cases c with
  | map vaddr flags => exact hif vaddr h
  | mapShare vaddr flags => exact hif vaddr h
  | mapCap vaddr slot flags => cases h
  | exit => cases h

private theorem draws_of_not_supplied {c : MemCall} (h : ¬ k.Supplied c.vaddr) : k.draws c = none := by
  cases hf : k.draws c with
  | none => rfl
  | some f => exact absurd (draws_eq_some hf).1 h

/-- The frame of a call that passes the checks. -/
theorem draws_of_checks {c : MemCall} {vaddr flags f : Word} {m₀ : Memory}
    (hc : c = .map vaddr flags ∨ c = .mapShare vaddr flags) (hvalid : validateUserVaddr vaddr = true)
    (hquota : k.sched.checkMemoryQuota k.currentPid = true) (halloc : k.mem.globalAlloc4k = (m₀, some f)) :
    k.draws c = some f := by
  have hcond : (validateUserVaddr vaddr && k.sched.checkMemoryQuota k.currentPid) = true :=
    Bool.and_eq_true_iff.2 ⟨hvalid, hquota⟩
  have hframe : k.mem.globalAlloc4k.2 = some f := by rw [halloc]
  rcases hc with rfl | rfl
  · exact (if_pos hcond).trans hframe
  · exact (if_pos hcond).trans hframe

/-- The frame has been taken and filled, `map_page_global` runs. -/
private theorem taken_widens (H : Housed k tag) {vaddr f bits : Word} {user : Bool} {m₀ m₁ m' : Memory} {ok : Bool}
    (hvalid : validateUserVaddr vaddr = true) (halloc : k.mem.globalAlloc4k = (m₀, some f)) (hcons : Consumes m₀ m₁)
    (hram : ∀ g, g ≠ f → ∀ j, m₁.ram g j = m₀.ram g j)
    (hmap : m₁.mapPageGlobal k.cr3 vaddr f (pageFlags user bits) = (m', ok)) :
    ∃ tag', Widens k.kernelPml4 k.mem tag m' tag' ∧ m'.Fresh tag' f ∧
      (ok = false → SameMap k.mem tag m' ∧ m'.allocPtFrame.2 = none) ∧
      (ok = true → m'.translateAddress k.cr3 vaddr = some f) := by
  have hcons₀ := Consumes.globalAlloc4k k.mem
  rw [halloc] at hcons₀
  obtain ⟨-, hfresh, hram₀⟩ := H.tables.globalAlloc4k halloc
  have htables : ∀ g t, tag g = some t → ∀ j, m₁.ram g j = k.mem.ram g j := by
    intro g t hg j
    rw [hram g ?_ j, hram₀]
    rintro rfl
    rw [hfresh.untagged] at hg
    cases hg
  have hw₁ : Widens k.kernelPml4 k.mem tag m₁ tag := .of_data H.tables (hcons₀.trans hcons) htables
  have hsame₁ : SameMap k.mem tag m₁ := by
    refine .of_links H.tables.layout fun g o p hg j => ?_
    unfold Memory.links
    rw [htables g _ hg j]
  obtain ⟨tag', hw, hfail, hok⟩ := hw₁.tables.mapPageGlobal_any H.cr3_root hmap
  refine ⟨tag', hw₁.trans hw, hw.fresh (hfresh.consumes hcons), fun h => ⟨hsame₁.trans hw₁ (hfail h).1, (hfail h).2⟩,
    fun h => ?_⟩
  obtain ⟨hpresent, haddr⟩ := pageEntry_pageFlags hfresh.reserved.addr user bits
  have hzero : vaddr &&& 0xFFF#64 = 0 := by
    unfold validateUserVaddr at hvalid
    simp only [Bool.and_eq_true, decide_eq_true_eq] at hvalid
    exact hvalid.1.2
  rw [hok h hpresent, haddr, hzero]
  exact congrArg some BitVec.or_zero

/-- Every call but `SYS_EXIT` ends in one of these ways. -/
theorem ends_of_dispatch (H : Housed k tag) {c : MemCall} (hc : c ≠ .exit)
    (h : k.dispatch c.request = some (k', ret)) : Ends k tag c k' ret := by
  cases c with
  | map vaddr flags =>
    have hcall : k.sysMap vaddr 0 flags = some (k', ret) := h
    rcases sysMap_cases hcall with ⟨rfl, hret, hnot⟩ | ⟨f, m₁, m', hvalid, hquota, ⟨hne, -⟩ | ⟨-, m₀, halloc, rfl⟩, hmap⟩
    · rcases hret with rfl | rfl
      · exact .refused (draws_of_not_supplied (hnot rfl))
      · exact .refused (draws_of_not_supplied (hnot rfl))
    · exact absurd rfl hne
    · have hdraws : k.draws (.map vaddr flags) = some f := draws_of_checks (Or.inl rfl) hvalid hquota halloc
      have hram : ∀ g, g ≠ f → ∀ j, (m₀.frameTag f .userOwned).ram g j = m₀.ram g j := fun g _ j => by
        rw [Memory.frameTag_ram]
      rcases hmap with ⟨hmap, rfl, rfl⟩ | ⟨hmap, rfl, rfl⟩
      · obtain ⟨tag', hw, hnew, -, hat⟩ := taken_widens H hvalid halloc (.frameTag _ _ _) hram hmap
        exact .mapped hw hdraws hnew (hat rfl)
      · obtain ⟨tag', hw, hnew, hfail, -⟩ := taken_widens H hvalid halloc (.frameTag _ _ _) hram hmap
        refine .failed hw (fun g hg => ?_) (hfail rfl).1 (hfail rfl).2 (Or.inl rfl)
        rw [hdraws] at hg
        cases hg
        exact hnew
  | mapShare vaddr flags =>
    have hcall : k.sysMapShare vaddr flags = some (k', ret) := h
    rcases sysMapShare_cases hcall with ⟨rfl, hret, hnot⟩ | ⟨f, m₀, m', hvalid, hquota, halloc, hmap⟩
    · rcases hret with rfl | rfl
      · exact .refused (draws_of_not_supplied hnot)
      · exact .refused (draws_of_not_supplied hnot)
    · have hdraws : k.draws (.mapShare vaddr flags) = some f := draws_of_checks (Or.inr rfl) hvalid hquota halloc
      have hcons : Consumes m₀ ((m₀.frameTag f .userOwned).zeroFrame f) :=
        (Consumes.frameTag m₀ f .userOwned).trans (.zeroFrame _ f)
      have hram : ∀ g, g ≠ f → ∀ j, ((m₀.frameTag f .userOwned).zeroFrame f).ram g j = m₀.ram g j := fun g hg j => by
        rw [Memory.zeroFrame_ram, if_neg hg, Memory.frameTag_ram]
      rcases hmap with ⟨hmap, hk⟩ | ⟨hmap, rfl, rfl⟩
      · obtain ⟨tag', hw, hnew, -, hat⟩ := taken_widens H hvalid halloc hcons hram hmap
        unfold capFor at hk
        split at hk
        · rename_i s' slot hcap
          cases hk
          exact .shared hw hdraws hnew (hat rfl) hcap
        · rename_i s' hcap
          cases hk
          have hcap' : (k.sched.useMemoryPage k.currentPid).capAlloc k.currentPid (shareCap f) = (s', none) := hcap
          rw [Scheduler.capAlloc_none hcap']
          exact .unshared hw hdraws hnew (hat rfl) ⟨vaddr, flags, rfl⟩ (by rw [hcap'])
      · obtain ⟨tag', hw, hnew, hfail, -⟩ := taken_widens H hvalid halloc hcons hram hmap
        refine .failed hw (fun g hg => ?_) (hfail rfl).1 (hfail rfl).2 (Or.inl rfl)
        rw [hdraws] at hg
        cases hg
        exact hnew
  | mapCap vaddr slot flags =>
    have hcall : k.sysMapCap vaddr slot flags = some (k', ret) := h
    rcases sysMapCap_cases hcall with ⟨rfl, rfl | rfl⟩ | ⟨cap, m', -, -, -, -, bits, ⟨hmap, rfl, rfl⟩ | ⟨hmap, rfl, rfl⟩⟩
    · exact .refused rfl
    · exact .refused rfl
    · obtain ⟨tag', hw, -⟩ := H.tables.mapPageGlobal_any H.cr3_root hmap
      exact .mappedCap hw rfl
    · obtain ⟨tag', hw, hfail, -⟩ := H.tables.mapPageGlobal_any H.cr3_root hmap
      exact .failed hw nofun (hfail rfl).1 (hfail rfl).2 (Or.inr rfl)
  | exit => exact absurd rfl hc

end Calls

end Kernel

/-! ### Runs -/

/-- What happens next: a process calls, or another part of the kernel takes a frame (for a page table or not), or gives
one back. -/
inductive MemInput where
  | call (pid : Nat) (c : MemCall)
  | grab (table : Bool)
  | giveBack (phys : Word)
deriving DecidableEq

/-- It is a call of the process. -/
def MemInput.isCallOf (pid : Nat) : MemInput → Bool
  | .call q _ => decide (q = pid)
  | _ => false

/-- How a call ends, with the data frame it has taken. -/
structure Outcome where
  ret : Ret
  frame : Option Word
deriving DecidableEq

/-- The kernel, with the frames that its other parts have taken. -/
structure MemState where
  kernel : Kernel
  elsewhere : List Word

namespace MemState

def step (s : MemState) : MemInput → Option (MemState × Outcome)
  | .call pid c =>
    ((s.kernel.calledBy pid).dispatch c.request).map fun out =>
      ({ s with kernel := out.1 }, ⟨out.2, (s.kernel.calledBy pid).draws c⟩)
  | .grab table =>
    let out := if table then s.kernel.mem.allocPtFrame else s.kernel.mem.globalAlloc4k
    some (⟨{ s.kernel with mem := out.1 }, out.2.toList ++ s.elsewhere⟩, ⟨.value 0, none⟩)
  | .giveBack phys =>
    some (⟨{ s.kernel with mem := s.kernel.mem.globalFree4k phys }, s.elsewhere.erase phys⟩, ⟨.value 0, none⟩)

/-- Calls come from live processes, and what is given back has been taken. -/
def possible (s : MemState) : MemInput → Bool
  | .call pid _ => (s.kernel.sched.getProcess pid).isSome
  | .grab _ => true
  | .giveBack phys => s.elsewhere.contains phys

/-- The data frames that the calls of a run have taken. -/
def taken (es : List (MemInput × Outcome)) : List Word := es.filterMap fun e => e.2.frame

/-- A call of the process that has not failed to map its frame: then it would have ended with `ENOMEM`. -/
def maps (pid : Nat) (e : MemInput × Outcome) : Bool := e.1.isCallOf pid && decide (e.2.ret ≠ .value enomem)

/-- The data frames that the calls of the process have taken and mapped. -/
def mappedBy (pid : Nat) (es : List (MemInput × Outcome)) : List Word := taken (es.filter (maps pid))

/-- The account of a process is right: it counts the frames that have been mapped, and they are within the quota. -/
def Account (es : List (MemInput × Outcome)) (pid : Nat) (x : Pcb) : Prop :=
  x.memoryQuotaPages < 2 ^ 32 ∧ (0 < x.memoryQuotaPages →
    (mappedBy pid es).length = x.memoryPagesUsed ∧ x.memoryPagesUsed ≤ x.memoryQuotaPages)

/-- A state in which the processes have not mapped anything yet; quotas are `u32`. -/
structure Opened (k : Kernel) (tag : Tags) : Prop extends Housed k tag where
  quota_lt : ∀ {q x}, k.sched.getProcess q = some x → x.memoryQuotaPages < 2 ^ 32
  unused : ∀ {q x}, k.sched.getProcess q = some x → x.memoryPagesUsed = 0

/-- What holds along a run. -/
structure Ledger (es : List (MemInput × Outcome)) (s : MemState) : Prop where
  held : ∃ tag, Held s.kernel tag (taken es ++ s.elsewhere)
  account : ∀ {q x}, s.kernel.sched.getProcess q = some x → Account es q x

theorem Opened.ledger {k : Kernel} {tag : Tags} (h : Opened k tag) : Ledger [] ⟨k, []⟩ := by
  refine ⟨⟨tag, h.toHoused, nofun, nofun, List.nodup_nil⟩, fun hx => ⟨h.quota_lt hx, fun _ => ?_⟩⟩
  rw [h.unused hx]
  exact ⟨rfl, Nat.zero_le _⟩

section Step

variable {s s' : MemState} {es : List (MemInput × Outcome)} {i : MemInput} {o : Outcome} {pid : Nat} {c : MemCall}

theorem taken_snoc (es : List (MemInput × Outcome)) (i : MemInput) (o : Outcome) :
    taken (es ++ [(i, o)]) = taken es ++ o.frame.toList := by
  unfold taken
  rw [List.filterMap_append]
  cases ho : o.frame with
  | none => simp [ho]
  | some f => simp [ho]

/-- A step that maps no new frame for a process. -/
theorem mappedBy_snoc (h : i.isCallOf pid = false ∨ o.ret = .value enomem ∨ o.frame = none) :
    mappedBy pid (es ++ [(i, o)]) = mappedBy pid es := by
  unfold mappedBy
  rw [List.filter_append]
  by_cases hkeep : maps pid (i, o) = true
  · have hnone : o.frame = none := by
      obtain ⟨hcall, hret⟩ := Bool.and_eq_true_iff.1 hkeep
      rcases h with hi | hr | hf
      · rw [hi] at hcall
        cases hcall
      · exact absurd hr (of_decide_eq_true hret)
      · exact hf
    rw [List.filter_cons_of_pos hkeep, List.filter_nil, taken_snoc, hnone]
    exact List.append_nil _
  · rw [List.filter_cons_of_neg hkeep, List.filter_nil, List.append_nil]

/-- A call that takes a frame and maps it. -/
theorem mappedBy_snoc_self {f : Word} (hret : o.ret ≠ .value enomem) (hframe : o.frame = some f) :
    mappedBy pid (es ++ [(.call pid c, o)]) = mappedBy pid es ++ [f] := by
  have hkeep : maps pid (.call pid c, o) = true := by
    simp [maps, MemInput.isCallOf, hret]
  unfold mappedBy
  rw [List.filter_append, List.filter_cons_of_pos hkeep, List.filter_nil, taken_snoc, hframe]
  rfl

/-- A step that maps no new frame, and changes no account. -/
private theorem account_kept {k k' : Kernel} (hacc : ∀ {q x}, k.sched.getProcess q = some x → Account es q x)
    (hmapped : ∀ q, mappedBy q (es ++ [(i, o)]) = mappedBy q es)
    (hrec : ∀ q x', k'.sched.getProcess q = some x' → ∃ x, k.sched.getProcess q = some x ∧
      x'.memoryQuotaPages = x.memoryQuotaPages ∧ x'.memoryPagesUsed = x.memoryPagesUsed)
    {q : Nat} {x' : Pcb} (hx' : k'.sched.getProcess q = some x') : Account (es ++ [(i, o)]) q x' := by
  obtain ⟨x, hx, hquota, hused⟩ := hrec q x' hx'
  unfold Account
  rw [hmapped, hquota, hused]
  exact hacc hx

/-- The frame is counted. -/
private theorem account_counted {k : Kernel} (hacc : ∀ {q x}, k.sched.getProcess q = some x → Account es q x)
    (hquota : k.sched.checkMemoryQuota pid = true) {f : Word} (hret : o.ret ≠ .value enomem) (hframe : o.frame = some f)
    {q : Nat} {x' : Pcb} (hx' : (k.sched.useMemoryPage pid).getProcess q = some x') :
    Account (es ++ [(.call pid c, o)]) q x' := by
  unfold Scheduler.useMemoryPage at hx'
  rw [Scheduler.getProcess_update] at hx'
  split at hx'
  · rename_i hq
    subst hq
    obtain ⟨x, hx, rfl⟩ := Option.map_eq_some_iff.1 hx'
    obtain ⟨hlt, hcount⟩ := hacc hx
    refine ⟨hlt, fun hpos => ?_⟩
    obtain ⟨hlen, -⟩ := hcount hpos
    unfold Scheduler.checkMemoryQuota at hquota
    rw [hx] at hquota
    have hroom : x.memoryPagesUsed < x.memoryQuotaPages := by
      rcases Bool.or_eq_true_iff.1 hquota with h0 | hroom
      · exact absurd (of_decide_eq_true h0) (Nat.ne_of_gt hpos)
      · exact of_decide_eq_true hroom
    rw [mappedBy_snoc_self hret hframe, List.length_append, List.length_singleton, hlen]
    simp only
    omega
  · rename_i hq
    have hother : (MemInput.call pid c).isCallOf q = false := decide_eq_false fun h => hq h.symm
    unfold Account
    rw [mappedBy_snoc (Or.inl hother)]
    exact hacc hx'

/-- A call has taken its frame, if any. -/
private theorem held_call {k : Kernel} {tag tag' : Tags} {F : List Word} (h : Held k tag F) {m' : Memory}
    {s' : Scheduler} (hw : Widens k.kernelPml4 k.mem tag m' tag') (hs : SameHouse k.sched s')
    (hnew : ∀ f, k.draws c = some f → m'.Fresh tag' f) :
    Held { k with mem := m', sched := s' } tag' ((k.draws c).toList ++ F) := by
  cases hdraws : k.draws c with
  | none => exact h.widens hw hs
  | some f =>
    refine h.cons hw hs (fun hf => ?_) (hnew f hdraws)
    have halloc : k.mem.globalAlloc4k = (k.mem.globalAlloc4k.1, some f) := Prod.ext rfl (Kernel.draws_eq_some hdraws).2
    exact Memory.not_reserved_of_globalAlloc4k halloc hf.reserved

private theorem sameHouse_shared (s : Scheduler) {s' : Scheduler} {pid slot : Nat} {cap : Capability}
    (hcap : (s.useMemoryPage pid).capAlloc pid cap = (s', some slot)) : SameHouse s s' := by
  have h := (sameHouse_useMemoryPage s pid).1.trans (sameHouse_capAlloc (s.useMemoryPage pid) pid cap).1
  rw [hcap] at h
  exact h

/-- A slot is not an error. -/
private theorem slot_ne_error {s s' : Scheduler} {slot : Nat} {cap : Capability}
    (h : s.capAlloc pid cap = (s', some slot)) {e : Word} (he : e ∈ errors) : BitVec.ofNat 64 slot ≠ e := by
  have hlt : slot < capTableSize := (Scheduler.capAlloc_some h).1
  have hlarge : ∀ e ∈ errors, capTableSize ≤ e.toNat := by
    intro e he
    simp only [errors, List.mem_cons, List.not_mem_nil, or_false] at he
    rcases he with rfl | rfl | rfl | rfl | rfl | rfl | rfl | rfl <;> decide
  rintro rfl
  have hle := hlarge _ he
  rw [BitVec.toNat_ofNat] at hle
  unfold capTableSize at hlt hle
  omega

/-- The new frame of a step, if any, among those that are in use. -/
private theorem perm_taken_snoc (es : List (MemInput × Outcome)) (i : MemInput) (o : Outcome) (E : List Word) :
    (o.frame.toList ++ (taken es ++ E)).Perm (taken (es ++ [(i, o)]) ++ E) := by
  rw [taken_snoc, List.append_assoc]
  exact List.perm_append_comm_assoc _ _ _

/-- From the pool or from the bitmap, a frame that is handed out was not in use. -/
private theorem handed_out {m m' : Memory} {kern : Word} {tag : Tags} (T : Tables m kern tag) (table : Bool)
    {r : Option Word} (h : (if table then m.allocPtFrame else m.globalAlloc4k) = (m', r)) :
    Consumes m m' ∧ m'.ram = m.ram ∧ ∀ f, r = some f → ¬ m.Fresh tag f ∧ m'.Fresh tag f := by
  cases table with
  | true =>
    have halloc : m.allocPtFrame = (m', r) := h
    have hcons := Consumes.allocPtFrame m
    rw [halloc] at hcons
    cases r with
    | none =>
      rw [Memory.allocPtFrame_eq_none halloc]
      exact ⟨.refl m, rfl, nofun⟩
    | some f =>
      obtain ⟨-, hfresh, hram⟩ := T.allocPtFrame halloc
      refine ⟨hcons, hram, fun g hg => ?_⟩
      cases hg
      exact ⟨Memory.not_fresh_of_allocPtFrame halloc, hfresh⟩
  | false =>
    have halloc : m.globalAlloc4k = (m', r) := h
    have hcons := Consumes.globalAlloc4k m
    rw [halloc] at hcons
    cases r with
    | none =>
      rw [Memory.globalAlloc4k_eq_none halloc]
      exact ⟨.refl m, rfl, nofun⟩
    | some f =>
      obtain ⟨-, hfresh, hram⟩ := T.globalAlloc4k halloc
      refine ⟨hcons, hram, fun g hg => ?_⟩
      cases hg
      exact ⟨fun hf => Memory.not_reserved_of_globalAlloc4k halloc hf.reserved, hfresh⟩

private theorem ledger_grab (L : Ledger es s) (table : Bool) (h : s.step (.grab table) = some (s', o)) :
    Ledger (es ++ [(.grab table, o)]) s' := by
  obtain ⟨tag, hheld⟩ := L.held
  obtain ⟨⟨m', r⟩, hout⟩ : ∃ out, (if table then s.kernel.mem.allocPtFrame else s.kernel.mem.globalAlloc4k) = out := ⟨_, rfl⟩
  unfold MemState.step at h
  simp only [hout] at h
  obtain ⟨hcons, hram, hnew⟩ := handed_out hheld.housed.tables table hout
  have hw : Widens s.kernel.kernelPml4 s.kernel.mem tag m' tag :=
    .of_data hheld.housed.tables hcons fun f t _ j => by rw [hram]
  have hheld' : Held { s.kernel with mem := m' } tag (r.toList ++ (taken es ++ s.elsewhere)) := by
    cases r with
    | none => exact hheld.widens hw (.refl _)
    | some f => exact hheld.cons hw (.refl _) (hnew f rfl).1 (hnew f rfl).2
  cases h
  refine ⟨⟨tag, ?_⟩, fun hx => account_kept L.account (fun q => mappedBy_snoc (Or.inl rfl)) (fun q x hx => ⟨x, hx, rfl, rfl⟩) hx⟩
  rw [taken_snoc, Option.toList_none, List.append_nil]
  exact hheld'.perm (List.perm_append_comm_assoc _ _ _)

private theorem ledger_giveBack {phys : Word} (L : Ledger es s) (hphys : phys ∈ s.elsewhere)
    (h : s.step (.giveBack phys) = some (s', o)) : Ledger (es ++ [(.giveBack phys, o)]) s' := by
  obtain ⟨tag, hheld⟩ := L.held
  cases h
  have hgone := hheld.giveBack (List.mem_append_right _ hphys)
  have hnot : phys ∉ taken es := fun hmem => (List.disjoint_of_nodup_append hheld.nodup) hmem hphys
  rw [List.erase_append_right _ hnot] at hgone
  refine ⟨⟨tag, ?_⟩, fun hx => account_kept L.account (fun q => mappedBy_snoc (Or.inl rfl)) (fun q x hx => ⟨x, hx, rfl, rfl⟩) hx⟩
  rw [taken_snoc]
  simpa using hgone

private theorem ledger_exit {k k' : Kernel} {tag : Tags} {ret : Ret} {E : List Word} {x : Pcb}
    (hheld : Held k tag (taken es ++ E)) (hacc : ∀ {q x}, k.sched.getProcess q = some x → Account es q x)
    (hx : k.sched.getProcess k.currentPid = some x) (hcall : k.sysExit = some (k', ret)) :
    Ledger (es ++ [(.call pid .exit, ⟨ret, none⟩)]) ⟨k', E⟩ := by
  obtain ⟨tag', hheld'⟩ := hheld.exit hx hcall
  refine ⟨⟨tag', ?_⟩, fun {q y'} hy' => ?_⟩
  · rw [taken_snoc, Option.toList_none, List.append_nil]
    exact hheld'
  · refine account_kept hacc (fun q => mappedBy_snoc (Or.inr (Or.inr rfl))) (fun q y' hy' => ?_) hy'
    obtain ⟨-, y, hy, rfl | ⟨st, ct, rfl⟩⟩ := Housed.exit_records hcall hy'
    · exact ⟨y', hy, rfl, rfl⟩
    · exact ⟨y, hy, rfl, rfl⟩

private theorem ledger_call {k k' : Kernel} {tag : Tags} {ret : Ret} {E : List Word} (hk : k.currentPid = pid)
    (hheld : Held k tag (taken es ++ E)) (hacc : ∀ {q x}, k.sched.getProcess q = some x → Account es q x)
    (hends : k.Ends tag c k' ret) : Ledger (es ++ [(.call pid c, ⟨ret, k.draws c⟩)]) ⟨k', E⟩ := by
  have hperm := perm_taken_snoc es (.call pid c) ⟨ret, k.draws c⟩ E
  have hquota : ∀ {f}, k.draws c = some f → k.sched.checkMemoryQuota pid = true := by
    intro f hf
    rw [← hk]
    exact (Kernel.draws_eq_some hf).1.2.1
  have hsame : ∀ {f}, k.draws c = some f → ∀ {m' : Memory} {tag' : Tags}, m'.Fresh tag' f → ∀ g, k.draws c = some g →
      m'.Fresh tag' g := by
    intro f hf m' tag' hfresh g hg
    rw [hf] at hg
    cases hg
    exact hfresh
  have hkept : ∀ q x', k.sched.getProcess q = some x' → ∃ x, k.sched.getProcess q = some x ∧
      x'.memoryQuotaPages = x.memoryQuotaPages ∧ x'.memoryPagesUsed = x.memoryPagesUsed := fun q x' hx' => ⟨x', hx', rfl, rfl⟩
  cases hends with
  | refused hdraws =>
    refine ⟨⟨tag, ?_⟩, fun hx => account_kept hacc (fun q => mappedBy_snoc (Or.inr (Or.inr hdraws))) hkept hx⟩
    rw [taken_snoc, hdraws, Option.toList_none, List.append_nil]
    exact hheld
  | failed hw hnew _ _ he =>
    refine ⟨⟨_, (held_call hheld hw (.refl _) hnew).perm hperm⟩, fun hx => account_kept hacc (fun q => ?_) hkept hx⟩
    rcases he with rfl | hnone
    · exact mappedBy_snoc (Or.inr (Or.inl rfl))
    · exact mappedBy_snoc (Or.inr (Or.inr hnone))
  | mappedCap hw hdraws =>
    refine ⟨⟨_, (held_call hheld hw (.refl _) fun f hf => ?_).perm hperm⟩,
      fun hx => account_kept hacc (fun q => mappedBy_snoc (Or.inr (Or.inr hdraws))) hkept hx⟩
    rw [hdraws] at hf
    cases hf
  | mapped hw hdraws hnew hat =>
    refine ⟨⟨_, (held_call hheld hw (sameHouse_useMemoryPage _ _).1 (hsame hdraws hnew)).perm hperm⟩, fun {q x'} hx' => ?_⟩
    rw [hk] at hx'
    have hret : Ret.value 0 ≠ .value enomem := by decide
    exact account_counted hacc (hquota hdraws) hret hdraws hx'
  | @shared m' tag' f s' slot hw hdraws hnew hat hcap =>
    refine ⟨⟨_, (held_call hheld hw (sameHouse_shared _ hcap) (hsame hdraws hnew)).perm hperm⟩, fun {q x'} hx' => ?_⟩
    rw [hk] at hcap
    have hret : Ret.value (BitVec.ofNat 64 slot) ≠ .value enomem := fun h =>
      slot_ne_error hcap (by simp [errors]) (Ret.value.inj h)
    -- the capability is not part of the account
    obtain ⟨x, hx, caps, rfl⟩ := Scheduler.capAlloc_records hcap hx'
    have hcounted := account_counted (o := ⟨.value (BitVec.ofNat 64 slot), k.draws c⟩) (c := c) hacc (hquota hdraws) hret
      hdraws hx
    exact hcounted
  | unshared hw hdraws hnew hat _ _ =>
    refine ⟨⟨_, (held_call hheld hw (sameHouse_useMemoryPage _ _).1 (hsame hdraws hnew)).perm hperm⟩, fun {q x'} hx' => ?_⟩
    rw [hk] at hx'
    have hret : Ret.value einval ≠ .value enomem := by decide
    exact account_counted hacc (hquota hdraws) hret hdraws hx'

/-- Every step keeps the ledger. -/
theorem Ledger.step (L : Ledger es s) (hok : s.possible i = true) (h : s.step i = some (s', o)) :
    Ledger (es ++ [(i, o)]) s' := by
  cases i with
  | grab table => exact ledger_grab L table h
  | giveBack phys => exact ledger_giveBack L (by simpa [possible] using hok) h
  | call pid c =>
    obtain ⟨⟨k', ret⟩, hcall, heq⟩ := Option.map_eq_some_iff.1 h
    cases heq
    obtain ⟨tag, hheld⟩ := L.held
    have hheld : Held (s.kernel.calledBy pid) tag (taken es ++ s.elsewhere) :=
      ⟨⟨hheld.housed.tables, hheld.housed.root, hheld.housed.frames, hheld.housed.apart⟩, hheld.fresh, hheld.unlisted,
        hheld.nodup⟩
    by_cases hc : c = .exit
    · subst hc
      obtain ⟨x, hx⟩ := Option.isSome_iff_exists.1 hok
      exact ledger_exit (k := s.kernel.calledBy pid) hheld L.account hx hcall
    · exact ledger_call (k := s.kernel.calledBy pid) rfl hheld L.account (Kernel.ends_of_dispatch hheld.housed hc hcall)

end Step

/-! ### What a call that fails leaves behind -/

/-- The caller and its translations are as they were, and so are the free frames, unless there is no frame left for a
page table. -/
structure Undone (k k' : Kernel) (pid : Nat) (pml4 : Word) : Prop where
  record : k'.sched.getProcess pid = k.sched.getProcess pid
  translation : ∀ v, k'.mem.translateAddress pml4 v = k.mem.translateAddress pml4 v
  free : Elf.SameFree k.mem k'.mem ∨ k'.mem.allocPtFrame.2 = none

/-- `SYS_MAP_SHARE` has mapped its frame and counted it, but the capability table of the caller `x` is full. -/
structure KeepsPage (k' : Kernel) (pid : Nat) (x : Pcb) (c : MemCall) (frame : Option Word) : Prop where
  share : ∃ vaddr flags, c = .mapShare vaddr flags
  full : ∀ cap ∈ x.capTable, cap.isEmpty = false
  record : k'.sched.getProcess pid = some { x with memoryPagesUsed := min (x.memoryPagesUsed + 1) (2 ^ 32 - 1) }
  mapped : ∃ f, frame = some f ∧ k'.mem.translateAddress x.pageTableBase c.vaddr = some f

private theorem cr3_calledBy {k : Kernel} {pid : Nat} {x : Pcb} (hx : k.sched.getProcess pid = some x) :
    (k.calledBy pid).cr3 = x.pageTableBase := by
  have hget : (k.calledBy pid).sched.getProcess (k.calledBy pid).currentPid = some x := hx
  unfold Kernel.cr3 Scheduler.getProcessPml4
  rw [hget]
  rfl

private theorem getProcess_useMemoryPage {s : Scheduler} {pid : Nat} {x : Pcb} (hx : s.getProcess pid = some x) :
    (s.useMemoryPage pid).getProcess pid =
      some { x with memoryPagesUsed := min (x.memoryPagesUsed + 1) (2 ^ 32 - 1) } := by
  unfold Scheduler.useMemoryPage
  rw [Scheduler.getProcess_update, if_pos rfl, hx]
  rfl

/-- A table without room. -/
private theorem full_of_capAlloc {s : Scheduler} {pid : Nat} {x : Pcb} {cap : Capability}
    (hx : s.getProcess pid = some x) (h : (s.capAlloc pid cap).2 = none) : ∀ c ∈ x.capTable, c.isEmpty = false := by
  have hget : s.processTable.getProcess pid = some x := hx
  unfold Scheduler.capAlloc ProcessTable.capAlloc at h
  simp only [hget] at h
  split at h
  · rename_i hfind
    intro c hc
    simpa using Vector.findFinIdx?_eq_none_iff.1 hfind c hc
  · cases h

/-- What the ways to end a call mean for the caller. -/
private theorem ends_caller {k k' : Kernel} {tag : Tags} {ret : Ret} {x : Pcb} {c : MemCall} (H : Housed k tag)
    (hx : k.sched.getProcess k.currentPid = some x) (hcr3 : k.cr3 = x.pageTableBase) (hends : k.Ends tag c k' ret) :
    (∀ f, k.draws c = some f → ret ≠ .value enomem → k'.mem.translateAddress x.pageTableBase c.vaddr = some f) ∧
      (ret.IsError → Undone k k' k.currentPid x.pageTableBase ∨ KeepsPage k' k.currentPid x c (k.draws c)) := by
  have hzero : ¬ Ret.IsError (.value 0) := by
    rintro ⟨e, he, heq⟩
    cases heq
    revert he
    decide
  rw [← hcr3]
  cases hends with
  | refused hdraws =>
    refine ⟨fun f hf => ?_, fun _ => Or.inl ⟨rfl, fun _ => rfl, Or.inl (Elf.SameFree.refl _)⟩⟩
    rw [hdraws] at hf
    cases hf
  | failed hw hnew hsame hfull he =>
    refine ⟨fun f hf hret => ?_, fun _ => Or.inl ⟨rfl, hsame k.cr3 H.cr3_root, Or.inr hfull⟩⟩
    rcases he with rfl | hnone
    · exact absurd rfl hret
    · rw [hnone] at hf
      cases hf
  | mappedCap hw hdraws =>
    refine ⟨fun f hf => ?_, fun herr => absurd herr hzero⟩
    rw [hdraws] at hf
    cases hf
  | mapped hw hdraws hnew hat =>
    refine ⟨fun f hf _ => ?_, fun herr => absurd herr hzero⟩
    rw [hdraws] at hf
    cases hf
    exact hat
  | shared hw hdraws hnew hat hcap =>
    refine ⟨fun f hf _ => ?_, fun ⟨e, he, heq⟩ => absurd (Ret.value.inj heq) (slot_ne_error hcap he)⟩
    rw [hdraws] at hf
    cases hf
    exact hat
  | unshared hw hdraws hnew hat hshare hcap =>
    refine ⟨fun f hf _ => ?_, fun _ => Or.inr ⟨hshare, ?_, getProcess_useMemoryPage hx, _, hdraws, hcr3 ▸ hat⟩⟩
    · rw [hdraws] at hf
      cases hf
      exact hat
    · have hfull := full_of_capAlloc (getProcess_useMemoryPage hx) hcap
      exact hfull

/-- In every run of the calls, with any frames taken elsewhere: the data frames that the calls of a live process with a
quota have taken and mapped are as many as its account says, each once, and not more than the quota.  The frame that a
call has taken and mapped is the translation of its address.  And a call that returns an error has left the record of
its caller (the account and the capabilities) and its translations alone, and the free frames unless there is no frame
left for a page table; or it is a `SYS_MAP_SHARE` without room for the capability, which keeps the page. -/
theorem memory_accounted {k₀ : Kernel} {tag₀ : Tags} (h₀ : Opened k₀ tag₀) {es : List (MemInput × Outcome)} {s : MemState}
    (hrun : Run step (fun s i => s.possible i = true) ⟨k₀, []⟩ es s) :
    (∀ p x, s.kernel.sched.getProcess p = some x → 0 < x.memoryQuotaPages →
      (mappedBy p es).Nodup ∧ (mappedBy p es).length = x.memoryPagesUsed ∧ x.memoryPagesUsed ≤ x.memoryQuotaPages) ∧
    ∀ p x c s' o, s.kernel.sched.getProcess p = some x → s.step (.call p c) = some (s', o) →
      (∀ f, o.frame = some f → o.ret ≠ .value enomem →
        s'.kernel.mem.translateAddress x.pageTableBase c.vaddr = some f) ∧
      (o.ret.IsError → Undone s.kernel s'.kernel p x.pageTableBase ∨ KeepsPage s'.kernel p x c o.frame) := by
  have L : Ledger es s := hrun.history (P := Ledger) (fun L hok hstep => L.step hok hstep) h₀.ledger
  obtain ⟨tag, hheld⟩ := L.held
  refine ⟨fun p x hx hpos => ⟨?_, (L.account hx).2 hpos⟩, fun p x c s' o hx hstep => ?_⟩
  · have hsub : (mappedBy p es).Sublist (taken es) := List.filter_sublist.filterMap _
    exact (hsub.trans (List.sublist_append_left _ _)).nodup hheld.nodup
  · obtain ⟨⟨k', ret⟩, hcall, heq⟩ := Option.map_eq_some_iff.1 hstep
    cases heq
    have hcr3 := cr3_calledBy hx
    have H : Housed (s.kernel.calledBy p) tag :=
      ⟨hheld.housed.tables, hheld.housed.root, hheld.housed.frames, hheld.housed.apart⟩
    by_cases hc : c = .exit
    · subst hc
      cases hcall
      exact ⟨nofun, fun ⟨_, _, h⟩ => by cases h⟩
    · have hget : (s.kernel.calledBy p).sched.getProcess (s.kernel.calledBy p).currentPid = some x := hx
      obtain ⟨hat, herr⟩ := ends_caller H hget hcr3 (Kernel.ends_of_dispatch H hc hcall)
      refine ⟨hat, fun h => (herr h).imp_left fun hu => ⟨hu.record, hu.translation, hu.free⟩⟩

/-! ### A process with a quota -/

/-- The first process has a quota and capabilities. -/
def endow (k : Kernel) (quota : Nat) (caps : Vector Capability capTableSize) : Kernel :=
  { k with sched := k.sched.update 1 fun x => { x with memoryQuotaPages := quota, capTable := caps } }

/-- The small machine with one process. -/
def tenant (quota : Nat) (caps : Vector Capability capTableSize) : Kernel := endow Kernel.hosting quota caps

/-- No capabilities. -/
def noCaps : Vector Capability capTableSize := Vector.replicate capTableSize .empty

/-- A full table. -/
def fullCaps : Vector Capability capTableSize := Vector.replicate capTableSize ⟨.channel, capW, 1⟩

private theorem tenant_records {quota : Nat} {caps : Vector Capability capTableSize} {q : Nat} {x : Pcb}
    (hx : (tenant quota caps).sched.getProcess q = some x) :
    q = 1 ∧ x.pageTableBase = 0x303000 ∧ x.droppedFrames = [] ∧ x.memoryQuotaPages = quota ∧ x.memoryPagesUsed = 0 := by
  have hhost : ∀ {q y}, Kernel.hosting.sched.getProcess q = some y → ∃ id rsp, q = 1 ∧ y = Pcb.fresh 1 id rsp 0x303000 := by
    intro q y hy
    have hsched : Kernel.hosting.sched = ((Scheduler.new 0).addProcess 0x303000).elim (Scheduler.new 0) Prod.fst := rfl
    rw [hsched] at hy
    cases hadd : (Scheduler.new 0).addProcess 0x303000 with
    | none =>
      rw [hadd, Option.elim_none, Scheduler.getProcess, Scheduler.new, ProcessTable.getProcess_new] at hy
      cases hy
    | some out =>
      obtain ⟨s', r⟩ := out
      rw [hadd, Option.elim_some] at hy
      obtain ⟨-, -, ⟨-, -, hsame⟩ | ⟨-, -, -, id, rsp, hget⟩⟩ := Scheduler.addProcess_adds hadd
      · rw [hsame, Scheduler.getProcess, Scheduler.new, ProcessTable.getProcess_new] at hy
        cases hy
      · rw [hget] at hy
        split at hy
        · rename_i hq
          cases hy
          exact ⟨id, rsp, hq, rfl⟩
        · rw [Scheduler.getProcess, Scheduler.new, ProcessTable.getProcess_new] at hy
          cases hy
  unfold tenant endow at hx
  rw [Scheduler.getProcess_update] at hx
  split at hx
  · obtain ⟨y, hy, rfl⟩ := Option.map_eq_some_iff.1 hx
    obtain ⟨id, rsp, hq, rfl⟩ := hhost hy
    exact ⟨hq, rfl, rfl, rfl, rfl⟩
  · rename_i hq
    obtain ⟨id, rsp, heq, -⟩ := hhost hx
    exact absurd heq hq

private theorem tables_endow {k : Kernel} {tag : Tags} (hT : Tables k.mem k.kernelPml4 tag) (quota : Nat)
    (caps : Vector Capability capTableSize) : Tables (endow k quota caps).mem (endow k quota caps).kernelPml4 tag := hT

/-- It has mapped nothing yet. -/
theorem opened_tenant {quota : Nat} (hquota : quota < 2 ^ 32) (caps : Vector Capability capTableSize) :
    ∃ tag, Opened (tenant quota caps) tag := by
  obtain ⟨tag, S⟩ := spaces_hosting.stand
  have hroot : tag 0x303000 = some (0x303000, []) := (S.user 0x303000 (List.mem_singleton_self _)).2
  refine ⟨tag, ⟨tables_endow S.tables quota caps, fun hx => ?_, fun hx hf => ?_, fun hqr hx hy hf => ?_⟩, fun hx => ?_, fun hx => ?_⟩
  · rw [(tenant_records hx).2.1]
    exact hroot
  · rw [(tenant_records hx).2.2.1] at hf
    cases hf
  · exact absurd ((tenant_records hx).1.trans (tenant_records hy).1.symm) hqr
  · rw [(tenant_records hx).2.2.2.1]
    exact hquota
  · exact (tenant_records hx).2.2.2.2

/-- With a quota of one page, the first page is counted, and the second is refused without a change. -/
theorem memory_accounted_tenant : (∃ tag, Opened (tenant 1 noCaps) tag) ∧ ∃ es s x s' o,
    Run step (fun s i => s.possible i = true) ⟨tenant 1 noCaps, []⟩ es s ∧ s.kernel.sched.getProcess 1 = some x ∧
      mappedBy 1 es = [0x307000] ∧ (mappedBy 1 es).length = x.memoryPagesUsed ∧
      x.memoryPagesUsed ≤ x.memoryQuotaPages ∧ s.step (.call 1 (.map 0x80001000 3)) = some (s', o) ∧
      o.ret = .value enomem ∧ Undone s.kernel s'.kernel 1 x.pageTableBase := by
  have hexec : (exec step (fun s i => s.possible i = true) ⟨tenant 1 noCaps, []⟩ [.call 1 (.map 0x80000000 3)]).any
      (fun out => (out.1.kernel.sched.getProcess 1).any (fun x => (out.1.step (.call 1 (.map 0x80001000 3))).any
        (fun next => decide (mappedBy 1 out.2 = [0x307000] ∧ 0 < x.memoryQuotaPages ∧ next.2.ret = .value enomem)))) =
      true := by decide +kernel
  obtain ⟨⟨s, es⟩, hrun, hout⟩ := (Option.any_eq_true _ _).1 hexec
  obtain ⟨x, hx, hnext⟩ := (Option.any_eq_true _ _).1 hout
  obtain ⟨⟨s', o⟩, hstep, hend⟩ := (Option.any_eq_true _ _).1 hnext
  obtain ⟨hmapped, hquota, hret⟩ := of_decide_eq_true hend
  have hrun := run_of_exec hrun
  obtain ⟨tag, hopened⟩ := opened_tenant (by decide : 1 < 2 ^ 32) noCaps
  obtain ⟨haccount, hcalls⟩ := memory_accounted hopened hrun
  obtain ⟨-, hused, hle⟩ := haccount 1 x hx hquota
  refine ⟨⟨tag, hopened⟩, es, s, x, s', o, hrun, hx, hmapped, hused, hle, hstep, hret, ?_⟩
  have herr : o.ret.IsError := ⟨enomem, by decide, hret⟩
  rcases (hcalls 1 x _ s' o hx hstep).2 herr with hundone | ⟨⟨vaddr, flags, hshare⟩, -⟩
  · exact hundone
  · cases hshare

/-- Three runs of a process with a quota of one page.  With a full capability table `SYS_MAP_SHARE` fails, but its page
is mapped and counted; when the last frame is for the page, `SYS_MAP` fails for want of a page table, and the frame is
neither free nor counted; and the frame of a process that has exited is not free again. -/
theorem memory_unaccounted :
    (∃ tag es s, Opened (tenant 1 fullCaps) tag ∧
      Run step (fun s i => s.possible i = true) ⟨tenant 1 fullCaps, []⟩ es s ∧
      es = [(.call 1 (.mapShare 0x80000000 3), ⟨.value einval, some 0x307000⟩)] ∧
      (tenant 1 fullCaps).mem.translateAddress 0x303000 0x80000000 = none ∧
      s.kernel.mem.translateAddress 0x303000 0x80000000 = some 0x307000 ∧
      (s.kernel.sched.getProcess 1).map Pcb.memoryPagesUsed = some 1) ∧
    (∃ tag es s s', Opened (tenant 1 noCaps) tag ∧
      Run step (fun s i => s.possible i = true) ⟨tenant 1 noCaps, []⟩ es s ∧
      s.step (.call 1 (.map 0x80000000 3)) = some (s', ⟨.value enomem, some 0x30B000⟩) ∧
      s'.kernel.mem.frameAddr 520 = 0x30B000 ∧ s.kernel.mem.isFree 520 = true ∧ s'.kernel.mem.isFree 520 = false ∧
      (s'.kernel.sched.getProcess 1).map Pcb.memoryPagesUsed = some 0) ∧
    ∃ tag es s, Opened (tenant 1 noCaps) tag ∧
      Run step (fun s i => s.possible i = true) ⟨tenant 1 noCaps, []⟩ es s ∧
      taken es = [0x307000] ∧ s.kernel.sched.getProcess 1 = none ∧ s.kernel.mem.frameAddr 516 = 0x307000 ∧
      s.kernel.mem.isFree 516 = false := by
  obtain ⟨tag, hopened⟩ := opened_tenant (by decide : 1 < 2 ^ 32) noCaps
  refine ⟨?_, ?_, ?_⟩
  · obtain ⟨tag', hfull⟩ := opened_tenant (by decide : 1 < 2 ^ 32) fullCaps
    have hexec : (exec step (fun s i => s.possible i = true) ⟨tenant 1 fullCaps, []⟩ [.call 1 (.mapShare 0x80000000 3)]).any
        (fun out => decide (out.2 = [(.call 1 (.mapShare 0x80000000 3), ⟨.value einval, some 0x307000⟩)] ∧
          (tenant 1 fullCaps).mem.translateAddress 0x303000 0x80000000 = none ∧
          out.1.kernel.mem.translateAddress 0x303000 0x80000000 = some 0x307000 ∧
          (out.1.kernel.sched.getProcess 1).map Pcb.memoryPagesUsed = some 1)) = true := by decide +kernel
    obtain ⟨⟨s, es⟩, hrun, hout⟩ := (Option.any_eq_true _ _).1 hexec
    exact ⟨tag', es, s, hfull, run_of_exec hrun, of_decide_eq_true hout⟩
  · have hexec : (exec step (fun s i => s.possible i = true) ⟨tenant 1 noCaps, []⟩
        [.grab false, .grab false, .grab false, .grab false]).any
        (fun out => (out.1.step (.call 1 (.map 0x80000000 3))).any fun next =>
          decide (next.2 = ⟨.value enomem, some 0x30B000⟩ ∧ next.1.kernel.mem.frameAddr 520 = 0x30B000 ∧
            out.1.kernel.mem.isFree 520 = true ∧ next.1.kernel.mem.isFree 520 = false ∧
            (next.1.kernel.sched.getProcess 1).map Pcb.memoryPagesUsed = some 0)) = true := by decide +kernel
    obtain ⟨⟨s, es⟩, hrun, hnext⟩ := (Option.any_eq_true _ _).1 hexec
    obtain ⟨⟨s', o⟩, hstep, hend⟩ := (Option.any_eq_true _ _).1 hnext
    obtain ⟨rfl, hend⟩ := of_decide_eq_true hend
    exact ⟨tag, es, s, s', hopened, run_of_exec hrun, hstep, hend⟩
  · have hexec : (exec step (fun s i => s.possible i = true) ⟨tenant 1 noCaps, []⟩
        [.call 1 (.map 0x80000000 3), .call 1 .exit]).any
        (fun out => decide (taken out.2 = [0x307000] ∧ (out.1.kernel.sched.getProcess 1).isNone = true ∧
          out.1.kernel.mem.frameAddr 516 = 0x307000 ∧ out.1.kernel.mem.isFree 516 = false)) = true := by decide +kernel
    obtain ⟨⟨s, es⟩, hrun, hout⟩ := (Option.any_eq_true _ _).1 hexec
    obtain ⟨htaken, hnone, hfree⟩ := of_decide_eq_true hout
    exact ⟨tag, es, s, hopened, run_of_exec hrun, htaken, Option.isNone_iff_eq_none.1 hnone, hfree⟩

end MemState

end Rost
