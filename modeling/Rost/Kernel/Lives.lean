import Rost.Kernel.Accounting
import Rost.Kernel.Overflow

/-!
# The lives of processes

The kernel makes processes of images, they take memory, and they exit, in any order.  What a process gives back when it
ends is in use until then, and in no other hands: no other process gives it back, or reaches it as a page table
(`lives_exclusive`).
-/

namespace Rost

open Lib (Run exec run_of_exec)
open Lib.TableTree (TableAt)

namespace Kernel

/-- A process is made of an image, or one of them calls. -/
inductive LifeOp where
  | spawn (img : Image) (priority : Nat)
  | call (pid : Nat) (c : MemCall)

def lifeStep (k : Kernel) : LifeOp → Option (Kernel × Ret)
  | .spawn img priority => k.spawnImage img priority
  | .call pid c => (k.calledBy pid).dispatch c.request

/-- Calls come from live processes. -/
def alive (k : Kernel) : LifeOp → Bool
  | .spawn _ _ => true
  | .call pid _ => (k.sched.getProcess pid).isSome

/-- The frame is in use, and in no other hands than those of the process `q`. -/
structure Exclusive (k : Kernel) (q : Nat) (f : Word) : Prop where
  reserved : k.mem.Reserved f
  not_pooled : f ∉ k.mem.ptPool
  not_kernel : ∀ p, ¬ TableAt k.mem.links k.kernelPml4 3 p f
  not_other : ∀ r y, r ≠ q → k.sched.getProcess r = some y →
    f ∉ y.droppedFrames ∧ ∀ p, ¬ TableAt k.mem.links y.pageTableBase 3 p f

end Kernel

namespace Housed

variable {k k' : Kernel} {tag : Tags}

theorem exclusive (H : Housed k tag) {q : Nat} {x : Pcb} {f : Word} (hx : k.sched.getProcess q = some x)
    (hf : f ∈ x.droppedFrames) : k.Exclusive q f := by
  -- a table that is reached has the tag of its path; `f` has none, or is a root
  have hroot : ∀ {o p}, tag o = some (o, []) → TableAt k.mem.links o 3 p f → f = o ∧ f ≠ k.kernelPml4 := by
    intro o p ho hat
    obtain ⟨r, htag⟩ := H.tables.layout.tag_of_tableAt ho hat
    rcases H.frames hx hf with hfresh | ⟨rfl, hne⟩
    · rw [hfresh.untagged] at htag
      cases htag
    · rw [H.root hx] at htag
      cases htag
      exact ⟨(Option.some.inj hat.2).symm, hne⟩
  refine ⟨H.reserved_of_dropped hx hf, H.not_pooled_of_dropped hx hf, fun p hat => ?_, fun r y hr hy => ?_⟩
  · obtain ⟨heq, hne⟩ := hroot H.tables.layout.kern_root hat
    exact hne heq
  · obtain ⟨hnot, hbase⟩ := H.apart hr.symm hx hy hf
    exact ⟨hnot, fun p hat => hbase (hroot (H.root hy) hat).1⟩

/-- A call that maps memory leaves the processes in their houses. -/
theorem ends (H : Housed k tag) {c : MemCall} {ret : Ret} (h : k.Ends tag c k' ret) : ∃ tag', Housed k' tag' := by
  have huse := (sameHouse_useMemoryPage k.sched k.currentPid).1
  cases h with
  | refused _ => exact ⟨tag, H⟩
  | failed hw _ _ _ _ => exact ⟨_, H.extend hw.extend (.refl _)⟩
  | mappedCap hw _ => exact ⟨_, H.extend hw.extend (.refl _)⟩
  | mapped hw _ _ _ => exact ⟨_, H.extend hw.extend huse⟩
  | @shared _ _ f _ _ hw _ _ _ hcap =>
    have hhouse := huse.trans (sameHouse_capAlloc _ k.currentPid (Kernel.shareCap f)).1
    rw [hcap] at hhouse
    exact ⟨_, H.extend hw.extend hhouse⟩
  | unshared hw _ _ _ _ _ => exact ⟨_, H.extend hw.extend huse⟩

theorem lifeStep (H : Housed k tag) {op : Kernel.LifeOp} {ret : Ret} (hop : k.alive op = true)
    (h : k.lifeStep op = some (k', ret)) : ∃ tag', Housed k' tag' := by
  cases op with
  | spawn img priority =>
    replace h : k.spawnImage img priority = some (k', ret) := h
    unfold Kernel.spawnImage at h
    cases hspawn : Elf.spawnElf k.mem k.sched k.kernelPml4 img priority with
    | none =>
      rw [hspawn] at h
      cases h
    | some out =>
      obtain ⟨m', s', pid⟩ := out
      rw [hspawn] at h
      cases pid <;> cases h <;> exact H.spawn hspawn
  | call pid c =>
    have hcalled : Housed (k.calledBy pid) tag := ⟨H.tables, H.root, H.frames, H.apart⟩
    by_cases hc : c = .exit
    · subst hc
      obtain ⟨x, hx⟩ := Option.isSome_iff_exists.1 hop
      obtain ⟨tag', H', -⟩ := hcalled.exit hx h
      exact ⟨tag', H'⟩
    · exact hcalled.ends (Kernel.ends_of_dispatch hcalled hc h)

end Housed

namespace Kernel

/-- Whatever becomes of the processes of a kernel that has started without any: what a live one gives back is in no other
hands. -/
theorem lives_exclusive {k₀ k : Kernel} (h₀ : Spaces k₀.kernelPml4 k₀.mem []) (hnone : ∀ q, k₀.sched.getProcess q = none)
    {es : List (LifeOp × Ret)} (hrun : Run lifeStep (fun k op => k.alive op = true) k₀ es k) :
    ∀ q x f, k.sched.getProcess q = some x → f ∈ x.droppedFrames → k.Exclusive q f := by
  obtain ⟨tag, S⟩ := h₀.stand
  have hempty : ∀ {q x}, k₀.sched.getProcess q ≠ some x := by simp [hnone]
  have H₀ : Housed k₀ tag := ⟨S.tables, fun hx => absurd hx hempty, fun hx => absurd hx hempty, fun _ hx => absurd hx hempty⟩
  obtain ⟨tag, H⟩ : ∃ tag, Housed k tag := by
    refine hrun.invariant (P := fun k => ∃ tag, Housed k tag) ?_ ⟨tag, H₀⟩
    rintro t u op ret ⟨tag, H⟩ hop hstep
    exact H.lifeStep hop hstep
  exact fun q x f hx hf => H.exclusive hx hf

/-- A kernel without processes. -/
def vacant : Kernel := { lone with mem := Elf.withFree (List.range' 512 140), sched := Scheduler.new 0 }

/-- Three processes of one image: the third is made when the first has shared a page and is gone. -/
theorem lives_exclusive_vacant : ∃ es k x y, Run lifeStep (fun k op => k.alive op = true) vacant es k ∧
    k.sched.getProcess 2 = some x ∧ k.sched.getProcess 3 = some y ∧ x.droppedFrames.length = 36 ∧
    (∀ f ∈ x.droppedFrames, k.Exclusive 2 f) ∧ ∀ f ∈ y.droppedFrames, k.Exclusive 3 f := by
  have hspaces : Spaces vacant.kernelPml4 vacant.mem [] := by
    obtain ⟨hcons, hram⟩ := consumes_heap (n := 140) (by decide)
    refine .write (.boot (booted_machine trivial)) hcons fun f _ j => ?_
    rw [hram]
    rfl
  have hnone : ∀ q, vacant.sched.getProcess q = none := ProcessTable.getProcess_new 0
  obtain ⟨img, himg⟩ : ∃ img, img = Image.ofBytes (Elf.twoSegments 0 0x10) (Elf.length_twoSegments 0 0x10) := ⟨_, rfl⟩
  have hexec : (exec lifeStep (fun k op => k.alive op = true) vacant
      [.spawn img 64, .call 1 (.mapShare 0x80000000 3), .spawn img 0, .call 1 .exit, .spawn img 64]).any
      (fun out => (out.1.sched.getProcess 2).any fun x => (out.1.sched.getProcess 3).any fun _ =>
        decide (x.droppedFrames.length = 36)) = true := by
    rw [himg]
    decide +kernel
  obtain ⟨⟨k, es⟩, hrun, hout⟩ := (Option.any_eq_true _ _).1 hexec
  obtain ⟨x, hx, hout⟩ := (Option.any_eq_true _ _).1 hout
  obtain ⟨y, hy, hlen⟩ := (Option.any_eq_true _ _).1 hout
  have hall := lives_exclusive hspaces hnone (run_of_exec hrun)
  exact ⟨es, k, x, y, run_of_exec hrun, hx, hy, of_decide_eq_true hlen, fun f => hall 2 x f hx, fun f => hall 3 y f hy⟩

end Kernel

end Rost
