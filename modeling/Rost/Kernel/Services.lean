import Rost.Kernel.Registry
import Rost.Lib.Run
import Rost.Scheduler.Step

/-!
# Services of terminated processes

`Scheduler::terminate_process` removes the record of a process and asks the service registry to forget its pid.
`unregister_pid` drops one entry, so a process that has registered two names leaves one of them behind, and the name
looks up to a dead pid.  Where every process that ends holds at most one name, its name is gone, and stays gone until
the pid is registered again; the registrations of the others are never touched.
-/

namespace Rost

open Lib (Run exec run_of_exec)

/-- The scheduler and the static `TABLE` of the service registry. -/
structure Directory where
  sched : Scheduler
  registry : Registry

namespace Directory

inductive Op where
  | register (name : List Byte) (pid : Nat)
  | lookup (name : List Byte)
  | unregisterPid (pid : Nat)
  | terminateProcess (pid : Nat)
deriving DecidableEq

/-- What an operation returns. -/
inductive Ret where
  | done
  | changed (ok : Bool)
  | found (pid : Option Nat)
deriving DecidableEq

def step (d : Directory) : Op → Option (Directory × Ret)
  | .register name pid =>
    some ({ d with registry := (d.registry.register name pid).1 }, .changed (d.registry.register name pid).2)
  | .lookup name => some (d, .found (d.registry.lookup name))
  | .unregisterPid pid =>
    some ({ d with registry := (d.registry.unregisterPid pid).1 }, .changed (d.registry.unregisterPid pid).2)
  | .terminateProcess pid =>
    some (⟨(d.sched.terminateProcess pid).1, (d.registry.unregisterPid pid).1⟩, .done)

/-- A process that is terminated holds at most one name. -/
def oneName (d : Directory) : Op → Bool
  | .terminateProcess pid => decide ((d.registry.entriesOf pid).length ≤ 1)
  | _ => true

/-- From `d` to `d'` the process `pid` disappears from the registry, and everybody else keeps its names. -/
structure Forgets (d d' : Directory) (pid : Nat) : Prop where
  gone : ∀ name, d'.registry.lookup name ≠ some pid
  entries : ∀ q, q ≠ pid → d'.registry.entriesOf q = d.registry.entriesOf q
  lookups : ∀ name q, q ≠ pid → d.registry.lookup name = some q → d'.registry.lookup name = some q

variable {d d' : Directory} {pid : Nat}

private theorem gone_of_entriesOf (h : d.registry.entriesOf pid = []) (name : List Byte) :
    d.registry.lookup name ≠ some pid := fun hname => Registry.entriesOf_ne_nil_of_lookup hname h

private theorem entriesOf_terminateProcess {r : Ret} (hone : d.oneName (.terminateProcess pid) = true)
    (h : d.step (.terminateProcess pid) = some (d', r)) : d'.registry.entriesOf pid = [] := by
  obtain ⟨rfl, -⟩ := Prod.mk.inj (Option.some.inj h)
  have hlen : (d.registry.entriesOf pid).length ≤ 1 := of_decide_eq_true hone
  show (d.registry.unregisterPid pid).1.entriesOf pid = []
  rw [Registry.entriesOf_unregisterPid_self]
  exact List.length_eq_zero_iff.1 (by rw [List.length_tail]; omega)

/-- One termination. -/
theorem forgets_of_oneName {r : Ret} (hone : d.oneName (.terminateProcess pid) = true)
    (h : d.step (.terminateProcess pid) = some (d', r)) : d.Forgets d' pid := by
  have hgone := entriesOf_terminateProcess hone h
  obtain ⟨rfl, -⟩ := Prod.mk.inj (Option.some.inj h)
  refine ⟨gone_of_entriesOf hgone, fun q hq => d.registry.entriesOf_unregisterPid hq, fun name q hq hname => ?_⟩
  have hne : d.registry.lookup name ≠ some pid := by
    rw [hname]
    exact fun e => hq (Option.some.inj e)
  exact (Registry.lookup_unregisterPid hne).trans hname

/-- A pid without entries gets one only by a registration. -/
private theorem entriesOf_step {op : Op} {r : Ret} (hop : ∀ name, op ≠ .register name pid)
    (hnil : d.registry.entriesOf pid = []) (h : d.step op = some (d', r)) : d'.registry.entriesOf pid = [] := by
  have hunregister : ∀ q, (d.registry.unregisterPid q).1.entriesOf pid = [] := by
    intro q
    by_cases hq : pid = q
    · rw [← hq, Registry.entriesOf_unregisterPid_self, hnil]
      rfl
    · rw [Registry.entriesOf_unregisterPid _ hq, hnil]
  cases op with
  | register name q =>
    obtain ⟨rfl, -⟩ := Prod.mk.inj (Option.some.inj h)
    have hq : q ≠ pid := fun e => hop name (by rw [e])
    exact Registry.entriesOf_register_eq_nil hq hnil
  | lookup name =>
    obtain ⟨rfl, -⟩ := Prod.mk.inj (Option.some.inj h)
    exact hnil
  | unregisterPid q =>
    obtain ⟨rfl, -⟩ := Prod.mk.inj (Option.some.inj h)
    exact hunregister q
  | terminateProcess q =>
    obtain ⟨rfl, -⟩ := Prod.mk.inj (Option.some.inj h)
    exact hunregister q

/-- A pid without entries stays so until it is registered. -/
private theorem entriesOf_run {G : Directory → Op → Prop} {es : List (Op × Ret)} (h : Run step G d es d')
    (hnever : ∀ name r, (Op.register name pid, r) ∉ es) (hnil : d.registry.entriesOf pid = []) :
    d'.registry.entriesOf pid = [] := by
  induction h with
  | nil => exact hnil
  | snoc _ _ hstep ih =>
    refine entriesOf_step ?_ (ih fun name r hm => hnever name r (List.mem_append_left _ hm)) hstep
    rintro name rfl
    exact hnever name _ (List.mem_append_right _ List.mem_cons_self)

/-- In a run in which every process that is terminated holds at most one name: each termination makes the process
disappear from the registry and keeps the registrations of the others, and no name looks up to it in any later state
before its pid is registered again. -/
theorem terminated_unlisted {s : Scheduler} {es : List (Op × Ret)} {d : Directory}
    (h : Run step (fun d op => d.oneName op = true) ⟨s, Registry.new⟩ es d) {es₁ es₂ : List (Op × Ret)} {pid : Nat}
    {r : Ret} (hes : es = es₁ ++ (.terminateProcess pid, r) :: es₂) :
    (∃ t u, Run step (fun d op => d.oneName op = true) ⟨s, Registry.new⟩ es₁ t ∧
      t.step (.terminateProcess pid) = some (u, r) ∧ Run step (fun d op => d.oneName op = true) u es₂ d ∧
      t.Forgets u pid) ∧
    ((∀ name r', (Op.register name pid, r') ∉ es₂) → ∀ name, d.registry.lookup name ≠ some pid) := by
  subst hes
  obtain ⟨t, hbefore, hafter⟩ := h.split
  obtain ⟨u, hone, hstep, hlater⟩ := hafter.head
  refine ⟨⟨t, u, hbefore, hstep, hlater, forgets_of_oneName hone hstep⟩, fun hnever => ?_⟩
  exact gone_of_entriesOf (entriesOf_run hlater hnever (entriesOf_terminateProcess hone hstep))

/-- Process 1 gives up the name `a` to process 2 and ends with the name `b`. -/
theorem terminated_unlisted_one : ∃ es d,
    Run step (fun d op => d.oneName op = true) ⟨Scheduler.new 0, Registry.new⟩ es d ∧
      d.registry.lookup [0x61] = some 2 ∧ ∀ name, d.registry.lookup name ≠ some 1 := by
  have hexec : (exec step (fun d op => d.oneName op = true) ⟨Scheduler.new 0, Registry.new⟩
      [.register [0x61] 1, .register [0x62] 1, .register [0x61] 2, .terminateProcess 1, .lookup [0x62]]).any
      (fun out => decide (out.1.registry.lookup [0x61] = some 2 ∧ out.2 =
        [(.register [0x61] 1, .changed true), (.register [0x62] 1, .changed true), (.register [0x61] 2, .changed true)] ++
          (.terminateProcess 1, .done) :: [(.lookup [0x62], .found none)])) = true := by decide +kernel
  obtain ⟨⟨d, es⟩, hrun, hout⟩ := (Option.any_eq_true _ _).1 hexec
  obtain ⟨htwo, hes⟩ := of_decide_eq_true hout
  have hrun := run_of_exec hrun
  exact ⟨es, d, hrun, htwo, (terminated_unlisted hrun hes).2 (by simp)⟩

/-- Process 1 registers two names; after its termination the second one still looks up to it. -/
theorem second_name_stays : ∃ es d, Run step (fun _ _ => True) ⟨Scheduler.new 0, Registry.new⟩
    (es ++ [(.terminateProcess 1, .done)]) d ∧ d.registry.lookup [0x62] = some 1 := by
  have hexec : (exec step (fun _ _ => True) ⟨Scheduler.new 0, Registry.new⟩
      [.register [0x61] 1, .register [0x62] 1, .terminateProcess 1]).any
      (fun out => decide (out.1.registry.lookup [0x62] = some 1 ∧ out.2 =
        [(.register [0x61] 1, .changed true), (.register [0x62] 1, .changed true)] ++
          [(.terminateProcess 1, .done)])) = true := by decide +kernel
  obtain ⟨⟨d, es⟩, hrun, hout⟩ := (Option.any_eq_true _ _).1 hexec
  obtain ⟨hname, hes⟩ := of_decide_eq_true hout
  have hrun := run_of_exec hrun
  dsimp only at hes
  rw [hes] at hrun
  exact ⟨_, d, hrun, hname⟩

end Directory

end Rost
