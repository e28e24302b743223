import Rost.Init.Monitor
import Rost.Kernel.Services
import Rost.Shell.Keystrokes

/-!
# Clients of a restarted server

`init` restarts a server that crashes; the new process has a new pid and registers the name again.  The shell sends its
requests to the pid that the file server has after boot, a program that uses the C library to the one it has looked up
first, and the UART driver forwards to the shell it found when it started.  So they reach the server as long as it is the
process they know (`requests_reach`), and the shell never reaches one that was restarted (`restarted_out_of_reach`).
-/

namespace Rost

open Lib (Run exec run_of_exec)
open Vfs (Bytes ascii)

/-- The services a client sends to. -/
def vfsName : Bytes := ascii "rost-vfs"
def shellName : Bytes := ascii "rost-shell"

/-- `VFS_PID` of the shell, which is what the file server gets at boot. -/
def vfsPid : Nat := 4

namespace Monitor

/-- A round of the loop that resolves the pids of the services, for the service at index `i`. -/
def resolve (m : Monitor) (ts : Word) (lookup : Bytes → Option Nat) (i : Nat) : Monitor :=
  match m.services[i]? with
  | none => m
  | some svc =>
    if svc.pid = unset then
      match lookup svc.name with
      | none => m
      | some pid =>
        { m with
          services := m.services.set i { svc with pid := BitVec.ofNat 64 pid }
          log := m.log.append ts (pushDec (push (push (push [] (ascii "resolved ")) svc.label) (ascii " pid=")) pid) }
    else m

end Monitor

/-- The kernel's scheduler and registry, `init`, the pids of the file server that processes have looked up, and those of the
shell that UART drivers have. -/
structure Clients where
  dir : Directory
  monitor : Monitor
  cached : List (Nat × Nat)
  shellPids : List (Nat × Nat)

/-- A process is ended; `init` handles a message, or looks the pid of a service up; a process registers a name; a process
sends a request of the shell or of the C library; a UART driver looks the shell up, or forwards a byte; or something else
happens. -/
inductive ClientOp where
  | crash (pid : Nat)
  | report (clock : Nat → Word) (msg : Message)
  | resolve (ts : Word) (i : Nat)
  | register (pid : Nat) (name : Bytes)
  | shellRequest (pid : Nat) (msg : Message)
  | libcRequest (pid : Nat) (msg : Message)
  | findShell (uart : Nat)
  | forward (uart : Nat) (w : Word)
  | other (op : Scheduler.Op)

/-- Something sent for a service: where to, and the live process that is registered under the name then. -/
structure Sent where
  service : Bytes
  target : Nat
  registered : Option Nat
deriving DecidableEq

namespace Clients

def live (x : Clients) (pid : Nat) : Bool := (x.dir.sched.getProcess pid).isSome

def registered (x : Clients) (name : Bytes) : Option Nat := (x.dir.registry.lookup name).filter x.live

def send (x : Clients) (fromPid : Nat) (service : Bytes) (target : Nat) (msg : Message) : Clients × Option Sent :=
  ({ x with dir := { x.dir with sched := (x.dir.sched.sendMessage fromPid target msg).1 } },
    some ⟨service, target, x.registered service⟩)

/-- A step.  Only a process that is there does anything, and what a process keeps ends with it. -/
def step (x : Clients) : ClientOp → Option (Clients × Option Sent)
  | .crash pid =>
    (x.dir.step (.terminateProcess pid)).map fun out =>
      ({ x with
         dir := out.1
         cached := x.cached.filter fun c => c.1 != pid
         shellPids := x.shellPids.filter fun c => c.1 != pid }, none)
  | .report clock msg =>
    -- the kernel spawns the server that `init` asks for; it does not return if the pids are used up
    match x.dir.sched.addRing3Process 0 with
    | none => none
    | some (sched, pid) =>
      let out := x.monitor.handleMsg ⟨clock, pid⟩ msg
      let restarts := out.2.any fun call => call matches .restartServer _
      some ({ x with monitor := out.1, dir := if restarts then { x.dir with sched := sched } else x.dir }, none)
  | .resolve ts i => some ({ x with monitor := x.monitor.resolve ts x.dir.registry.lookup i }, none)
  | .register pid name =>
    if x.live pid then (x.dir.step (.register name pid)).map fun out => ({ x with dir := out.1 }, none) else none
  | .shellRequest pid msg => if x.live pid then some (x.send pid vfsName vfsPid msg) else none
  | .libcRequest pid msg =>
    if x.live pid then
      match x.cached.lookup pid with
      | some target => some (x.send pid vfsName target msg)
      | none =>
        match x.dir.registry.lookup vfsName with
        | none => some (x, none)
        | some target => some (({ x with cached := (pid, target) :: x.cached } : Clients).send pid vfsName target msg)
    else none
  | .findShell uart =>
    if x.live uart ∧ (x.shellPids.lookup uart).isNone then
      match x.dir.registry.lookup shellName with
      | none => some (x, none)
      | some pid => some ({ x with shellPids := (uart, pid) :: x.shellPids }, none)
    else none
  | .forward uart w =>
    if x.live uart then
      (x.shellPids.lookup uart).map fun target => x.send uart shellName target (Shell.sentWord uart w)
    else none
  | .other (.terminateProcess _) => none
  | .other op => (x.dir.sched.step op).map fun out => ({ x with dir := { x.dir with sched := out.1 } }, none)

/-- The file server is registered as the process it has been since boot, and the shell as the one that the UART drivers
know, if they have found one. -/
def Steady (x : Clients) : ClientOp → Prop
  | .register pid name =>
    (trimName name = vfsName → pid = vfsPid) ∧ (trimName name = shellName → ∀ c ∈ x.shellPids, c.2 = pid)
  | _ => True

/-- What is sent for a service reaches the live process registered for it, if there is one. -/
def Reaches (s : Sent) : Prop := ∀ pid ∈ s.registered, s.target = pid

variable {x y : Clients} {op : ClientOp} {r : Option Sent}

/-- The ways a step can go. -/
inductive StepsTo (x : Clients) : ClientOp → Clients → Option Sent → Prop where
  | crashed {pid : Nat} {d : Directory} {ret : Directory.Ret} (hdir : x.dir.step (.terminateProcess pid) = some (d, ret)) :
    StepsTo x (.crash pid) { x with
      dir := d
      cached := x.cached.filter fun c => c.1 != pid
      shellPids := x.shellPids.filter fun c => c.1 != pid } none
  | reported {clock : Nat → Word} {msg : Message} {sched : Scheduler} {pid : Option Nat} {d : Directory}
      (hspawn : x.dir.sched.addRing3Process 0 = some (sched, pid)) (hdir : d = { x.dir with sched := sched } ∨ d = x.dir) :
    StepsTo x (.report clock msg) { x with monitor := (x.monitor.handleMsg ⟨clock, pid⟩ msg).1, dir := d } none
  | resolved {ts : Word} {i : Nat} :
    StepsTo x (.resolve ts i) { x with monitor := x.monitor.resolve ts x.dir.registry.lookup i } none
  | registered {pid : Nat} {name : Bytes} {d : Directory} {ret : Directory.Ret} (hlive : x.live pid = true)
      (hdir : x.dir.step (.register name pid) = some (d, ret)) : StepsTo x (.register pid name) { x with dir := d } none
  | asked {pid : Nat} {msg : Message} (hlive : x.live pid = true) :
    StepsTo x (.shellRequest pid msg) (x.send pid vfsName vfsPid msg).1 (some ⟨vfsName, vfsPid, x.registered vfsName⟩)
  | askedKnown {pid target : Nat} {msg : Message} (hlive : x.live pid = true)
      (hcached : x.cached.lookup pid = some target) :
    StepsTo x (.libcRequest pid msg) (x.send pid vfsName target msg).1 (some ⟨vfsName, target, x.registered vfsName⟩)
  | unlisted {pid : Nat} {msg : Message} (hlive : x.live pid = true) (hcached : x.cached.lookup pid = none)
      (hlookup : x.dir.registry.lookup vfsName = none) : StepsTo x (.libcRequest pid msg) x none
  | askedListed {pid target : Nat} {msg : Message} (hlive : x.live pid = true) (hcached : x.cached.lookup pid = none)
      (hlookup : x.dir.registry.lookup vfsName = some target) :
    StepsTo x (.libcRequest pid msg) (({ x with cached := (pid, target) :: x.cached } : Clients).send pid vfsName target msg).1
      (some ⟨vfsName, target, x.registered vfsName⟩)
  | shellUnlisted {uart : Nat} (hlive : x.live uart = true) (hlookup : x.dir.registry.lookup shellName = none) :
    StepsTo x (.findShell uart) x none
  | shellListed {uart pid : Nat} (hlive : x.live uart = true) (hlookup : x.dir.registry.lookup shellName = some pid) :
    StepsTo x (.findShell uart) { x with shellPids := (uart, pid) :: x.shellPids } none
  | forwarded {uart target : Nat} {w : Word} (hlive : x.live uart = true)
      (htarget : x.shellPids.lookup uart = some target) :
    StepsTo x (.forward uart w) (x.send uart shellName target (Shell.sentWord uart w)).1
      (some ⟨shellName, target, x.registered shellName⟩)
  | scheduled {op : Scheduler.Op} {s : Scheduler} {ret : Scheduler.Ret} (hsched : x.dir.sched.step op = some (s, ret)) :
    StepsTo x (.other op) { x with dir := { x.dir with sched := s } } none

theorem stepsTo (hstep : x.step op = some (y, r)) : StepsTo x op y r := by
  cases op with
  | crash pid =>
    unfold step at hstep
    dsimp only at hstep
    obtain ⟨⟨d, ret⟩, hdir, heq⟩ := Option.map_eq_some_iff.1 hstep
    cases heq
    exact .crashed hdir
  | report clock msg =>
    unfold step at hstep
    dsimp only at hstep
    split at hstep
    · cases hstep
    · rename_i sched pid hspawn
      cases hstep
      refine .reported hspawn ?_
      split
      · exact Or.inl rfl
      · exact Or.inr rfl
  | resolve ts i =>
    cases hstep
    exact .resolved
  | register pid name =>
    unfold step at hstep
    dsimp only at hstep
    split at hstep
    · rename_i hlive
      obtain ⟨⟨d, ret⟩, hdir, heq⟩ := Option.map_eq_some_iff.1 hstep
      cases heq
      exact .registered hlive hdir
    · cases hstep
  | shellRequest pid msg =>
    unfold step at hstep
    dsimp only at hstep
    split at hstep
    · rename_i hlive
      cases hstep
      exact .asked hlive
    · cases hstep
  | libcRequest pid msg =>
    unfold step at hstep
    dsimp only at hstep
    split at hstep
    · rename_i hlive
      split at hstep
      · rename_i target hcached
        cases hstep
        exact .askedKnown hlive hcached
      · rename_i hcached
        split at hstep
        · rename_i hlookup
          cases hstep
          exact .unlisted hlive hcached hlookup
        · rename_i target hlookup
          cases hstep
          exact .askedListed hlive hcached hlookup
    · cases hstep
  | findShell uart =>
    unfold step at hstep
    dsimp only at hstep
    split at hstep
    · rename_i hguard
      split at hstep
      · rename_i hlookup
        cases hstep
        exact .shellUnlisted hguard.1 hlookup
      · rename_i pid hlookup
        cases hstep
        exact .shellListed hguard.1 hlookup
    · cases hstep
  | forward uart w =>
    unfold step at hstep
    dsimp only at hstep
    split at hstep
    · rename_i hlive
      obtain ⟨target, htarget, heq⟩ := Option.map_eq_some_iff.1 hstep
      cases heq
      exact .forwarded hlive htarget
    · cases hstep
  | other op =>
    have hother : (x.dir.sched.step op).map (fun out => (({ x with dir := { x.dir with sched := out.1 } } : Clients),
        (none : Option Sent))) = some (y, r) := by
      cases op with
      | terminateProcess pid => cases hstep
      | _ => exact hstep
    obtain ⟨⟨s, ret⟩, hsched, heq⟩ := Option.map_eq_some_iff.1 hother
    cases heq
    exact .scheduled hsched

/-! ### What the clients know -/

/-- Every pid that a client has is that of the process registered for the service, if one is. -/
structure Known (x : Clients) : Prop where
  vfs : ∀ e ∈ x.dir.registry.named vfsName, e.pid = vfsPid
  cached : ∀ c ∈ x.cached, c.2 = vfsPid
  one : (x.dir.registry.named shellName).length ≤ 1
  shell : ∀ e ∈ x.dir.registry.named shellName, ∀ c ∈ x.shellPids, c.2 = e.pid

theorem mem_of_lookup {l : List (Nat × Nat)} {k v : Nat} (h : l.lookup k = some v) : (k, v) ∈ l := by
  obtain ⟨l₁, l₂, rfl, -⟩ := List.lookup_eq_some_iff.1 h
  exact List.mem_append_right _ List.mem_cons_self

private theorem trimName_vfsName : trimName vfsName = vfsName := by decide
private theorem trimName_shellName : trimName shellName = shellName := by decide
private theorem length_vfsName : vfsName.length < nameLen - 1 := by decide
private theorem length_shellName : shellName.length < nameLen - 1 := by decide

theorem Known.vfs_of_registered (h : x.Known) {pid : Nat} (hpid : pid ∈ x.registered vfsName) : pid = vfsPid := by
  obtain ⟨hlookup, -⟩ := Option.filter_eq_some_iff.1 hpid
  obtain ⟨e, he, rfl⟩ := Registry.named_of_lookup hlookup
  rw [trimName_vfsName] at he
  exact h.vfs e he

theorem Known.shell_of_registered (h : x.Known) {pid : Nat} (hpid : pid ∈ x.registered shellName) {c : Nat × Nat}
    (hc : c ∈ x.shellPids) : c.2 = pid := by
  obtain ⟨hlookup, -⟩ := Option.filter_eq_some_iff.1 hpid
  obtain ⟨e, he, rfl⟩ := Registry.named_of_lookup hlookup
  rw [trimName_shellName] at he
  exact h.shell e he c hc

/-- Nothing that the clients know is affected. -/
theorem Known.congr (h : x.Known) (hregistry : y.dir.registry = x.dir.registry) (hcached : y.cached = x.cached)
    (hshell : y.shellPids = x.shellPids) : y.Known := by
  refine ⟨?_, ?_, ?_, ?_⟩
  · rw [hregistry]
    exact h.vfs
  · rw [hcached]
    exact h.cached
  · rw [hregistry]
    exact h.one
  · rw [hregistry, hshell]
    exact h.shell

private theorem known_crash (h : x.Known) {pid : Nat} {d : Directory} {ret : Directory.Ret}
    (hdir : x.dir.step (.terminateProcess pid) = some (d, ret)) : ({ x with
      dir := d
      cached := x.cached.filter fun c => c.1 != pid
      shellPids := x.shellPids.filter fun c => c.1 != pid } : Clients).Known := by
  cases hdir
  refine ⟨fun e he => h.vfs e (Registry.mem_named_unregisterPid he), fun c hc => h.cached c (List.mem_filter.1 hc).1, ?_,
    fun e he c hc => h.shell e (Registry.mem_named_unregisterPid he) c (List.mem_filter.1 hc).1⟩
  exact Nat.le_trans (Registry.length_named_unregisterPid_le x.dir.registry shellName pid) h.one

private theorem known_register (h : x.Known) {pid : Nat} {name : Bytes} {d : Directory} {ret : Directory.Ret}
    (hsteady : x.Steady (.register pid name)) (hdir : x.dir.step (.register name pid) = some (d, ret)) :
    ({ x with dir := d } : Clients).Known := by
  cases hdir
  refine ⟨fun e he => ?_, h.cached, Registry.length_named_register_le length_shellName h.one name pid,
    fun e he c hc => ?_⟩
  · rcases Registry.mem_named_register length_vfsName he with hold | ⟨hname, hpid⟩
    · exact h.vfs e hold
    · rw [hpid]
      exact hsteady.1 hname
  · rcases Registry.mem_named_register length_shellName he with hold | ⟨hname, hpid⟩
    · exact h.shell e hold c hc
    · rw [hpid]
      exact hsteady.2 hname c hc

/-- A UART driver finds the shell that is registered. -/
private theorem known_shellListed (h : x.Known) {uart pid : Nat} (hlookup : x.dir.registry.lookup shellName = some pid) :
    ({ x with shellPids := (uart, pid) :: x.shellPids } : Clients).Known := by
  refine ⟨h.vfs, h.cached, h.one, fun e he c hc => ?_⟩
  rcases List.mem_cons.1 hc with rfl | hc
  · have hone : (x.dir.registry.named (trimName shellName)).length ≤ 1 := by
      rw [trimName_shellName]
      exact h.one
    exact (Registry.pid_of_mem_named hone hlookup (by rw [trimName_shellName]; exact he)).symm
  · exact h.shell e he c hc

private theorem Known.target_of_lookup (h : x.Known) {target : Nat} (hlookup : x.dir.registry.lookup vfsName = some target) :
    target = vfsPid := by
  obtain ⟨e, he, hpid⟩ := Registry.named_of_lookup hlookup
  rw [trimName_vfsName] at he
  exact hpid.symm.trans (h.vfs e he)

/-- What is sent to the pid of the file server after boot reaches the file server, if there is one. -/
private theorem Known.reaches_vfs (h : x.Known) {target : Nat} (htarget : target = vfsPid) :
    ∀ s ∈ some (⟨vfsName, target, x.registered vfsName⟩ : Sent), Reaches s := by
  intro s hs q hq
  cases hs
  rw [h.vfs_of_registered hq]
  exact htarget

theorem step_spec (h : x.Known) (hsteady : x.Steady op) (hstep : x.step op = some (y, r)) :
    y.Known ∧ ∀ s ∈ r, Reaches s := by
  cases stepsTo hstep with
  | crashed hdir => exact ⟨known_crash h hdir, fun s hs => by cases hs⟩
  | reported hspawn hdir =>
    refine ⟨h.congr ?_ rfl rfl, fun s hs => by cases hs⟩
    rcases hdir with rfl | rfl
    · rfl
    · rfl
  | resolved => exact ⟨h.congr rfl rfl rfl, fun s hs => by cases hs⟩
  | registered hlive hdir => exact ⟨known_register h hsteady hdir, fun s hs => by cases hs⟩
  | asked hlive => exact ⟨h.congr rfl rfl rfl, h.reaches_vfs rfl⟩
  | askedKnown hlive hcached => exact ⟨h.congr rfl rfl rfl, h.reaches_vfs (h.cached _ (mem_of_lookup hcached))⟩
  | unlisted hlive hcached hlookup => exact ⟨h, fun s hs => by cases hs⟩
  | askedListed hlive hcached hlookup =>
    have htarget := h.target_of_lookup hlookup
    refine ⟨⟨h.vfs, fun c hc => ?_, h.one, h.shell⟩, h.reaches_vfs htarget⟩
    rcases List.mem_cons.1 hc with rfl | hc
    · exact htarget
    · exact h.cached c hc
  | shellUnlisted hlive hlookup => exact ⟨h, fun s hs => by cases hs⟩
  | shellListed hlive hlookup => exact ⟨known_shellListed h hlookup, fun s hs => by cases hs⟩
  | forwarded hlive htarget =>
    refine ⟨h.congr rfl rfl rfl, fun s hs q hq => ?_⟩
    cases hs
    exact h.shell_of_registered hq (mem_of_lookup htarget)
  | scheduled hsched => exact ⟨h.congr rfl rfl rfl, fun s hs => by cases hs⟩

/-! ### Runs -/

/-- Nothing is registered yet, and nobody has looked anything up. -/
structure Fresh (x : Clients) : Prop where
  registry : x.dir.registry = Registry.new
  cached : x.cached = []
  shellPids : x.shellPids = []

theorem known_of_fresh (h : x.Fresh) : x.Known := by
  have hnamed : ∀ key, x.dir.registry.named key = [] := by
    intro key
    rw [h.registry]
    exact List.filter_eq_nil_iff.2 fun e he => by
      rw [List.eq_of_mem_replicate he]
      simp [Registry.hasName, ServiceEntry.empty]
  refine ⟨?_, ?_, ?_, ?_⟩
  · rw [hnamed]
    simp
  · rw [h.cached]
    simp
  · rw [hnamed]
    simp
  · rw [hnamed]
    simp

/-- In a run from boot in which the file server is only ever registered as the process it is after boot, and the shell as
the one that the UART drivers have found, everything sent reaches the live process registered for the service. -/
theorem requests_reach {es : List (ClientOp × Option Sent)} (hfresh : x.Fresh)
    (hrun : Run step Steady x es y) : ∀ op s, (op, some s) ∈ es → Reaches s := by
  refine (hrun.history (P := fun es z => z.Known ∧ ∀ op s, (op, some s) ∈ es → Reaches s) ?_
    ⟨known_of_fresh hfresh, fun op s hmem => by cases hmem⟩).2
  rintro es t u op r ⟨hknown, hreach⟩ hsteady hstep
  obtain ⟨hknown', hlast⟩ := step_spec hknown hsteady hstep
  refine ⟨hknown', fun op' s hmem => ?_⟩
  rcases List.mem_append.1 hmem with hmem | hmem
  · exact hreach op' s hmem
  · exact hlast s (Prod.mk.inj (List.mem_singleton.1 hmem)).2.symm

/-- The process that was the file server after boot has ended. -/
structure VfsGone (x : Clients) : Prop where
  gone : x.dir.sched.getProcess vfsPid = none
  known : vfsPid < x.dir.sched.processTable.nextPid

private theorem gone_of_scheduler {s s' : Scheduler} {op : Scheduler.Op} {ret : Scheduler.Ret} {q : Nat}
    (hstep : s.step op = some (s', ret)) (hgone : s.getProcess q = none) (hq : q < s.processTable.nextPid) :
    s'.getProcess q = none ∧ q < s'.processTable.nextPid := by
  refine ⟨?_, Nat.lt_of_lt_of_le hq (Scheduler.nextPid_step hstep)⟩
  cases hx : s'.getProcess q with
  | none => rfl
  | some p =>
    rcases Scheduler.record_step hstep q p hx with ⟨p', hp', -⟩ | ⟨-, hnext, -⟩
    · rw [hgone] at hp'
      cases hp'
    · omega

private theorem gone_send (h : x.VfsGone) (fromPid : Nat) (service : Bytes) (target : Nat) (msg : Message) :
    (x.send fromPid service target msg).1.VfsGone := by
  obtain ⟨hgone, hknown⟩ := @gone_of_scheduler x.dir.sched _ (.sendMessage fromPid target msg) _ vfsPid rfl h.gone h.known
  exact ⟨hgone, hknown⟩

/-- Pids are not used again. -/
theorem gone_step (h : x.VfsGone) (hstep : x.step op = some (y, r)) : y.VfsGone := by
  cases stepsTo hstep with
  | @crashed pid d ret hdir =>
    cases hdir
    obtain ⟨hgone, hknown⟩ := @gone_of_scheduler x.dir.sched _ (.terminateProcess pid) _ vfsPid rfl h.gone h.known
    exact ⟨hgone, hknown⟩
  | @reported clock msg sched pid d hspawn hdir =>
    have hstep : x.dir.sched.step (.addRing3Process 0) = some (sched, .pid pid) := by
      simp only [Scheduler.step, hspawn]
      rfl
    obtain ⟨hgone, hknown⟩ := gone_of_scheduler hstep h.gone h.known
    -- the kernel has spawned a server if `init` asked for it
    rcases hdir with rfl | rfl
    · exact ⟨hgone, hknown⟩
    · exact ⟨h.gone, h.known⟩
  | resolved => exact ⟨h.gone, h.known⟩
  | registered hlive hdir =>
    cases hdir
    exact ⟨h.gone, h.known⟩
  | asked hlive => exact gone_send h _ vfsName vfsPid _
  | askedKnown hlive hcached => exact gone_send h _ vfsName _ _
  | unlisted hlive hcached hlookup => exact h
  | @askedListed pid target msg hlive hcached hlookup =>
    have hsent := gone_send h pid vfsName target msg
    exact ⟨hsent.gone, hsent.known⟩
  | shellUnlisted hlive hlookup => exact h
  | shellListed hlive hlookup => exact ⟨h.gone, h.known⟩
  | forwarded hlive htarget => exact gone_send h _ shellName _ _
  | scheduled hsched =>
    obtain ⟨hgone, hknown⟩ := gone_of_scheduler hsched h.gone h.known
    exact ⟨hgone, hknown⟩

/-- Once the file server has ended, no request of the shell reaches the process that is registered in its place. -/
theorem restarted_out_of_reach {es : List (ClientOp × Option Sent)} (hgone : x.VfsGone)
    (hrun : Run step (fun _ _ => True) x es y) :
    ∀ pid msg s, (.shellRequest pid msg, some s) ∈ es → s.registered ≠ some s.target := by
  refine (hrun.history (P := fun es z => z.VfsGone ∧
    ∀ pid msg s, (.shellRequest pid msg, some s) ∈ es → s.registered ≠ some s.target) ?_
    ⟨hgone, fun pid msg s hmem => by cases hmem⟩).2
  rintro es t u op r ⟨hgone, hmiss⟩ - hstep
  refine ⟨gone_step hgone hstep, fun pid msg s hmem => ?_⟩
  rcases List.mem_append.1 hmem with hmem | hmem
  · exact hmiss pid msg s hmem
  · cases List.mem_singleton.1 hmem
    cases stepsTo hstep with
    | asked hasks =>
      intro hregistered
      obtain ⟨-, hlive⟩ := Option.filter_eq_some_iff.1 hregistered
      rw [show t.live vfsPid = (t.dir.sched.getProcess vfsPid).isSome from rfl, hgone.gone] at hlive
      cases hlive

instance decidableSteady (x : Clients) : (op : ClientOp) → Decidable (x.Steady op)
  | .register _ _ => inferInstanceAs (Decidable ((_ → _) ∧ (_ → _)))
  | .crash _ | .report _ _ | .resolve _ _ | .shellRequest _ _ | .libcRequest _ _ | .findShell _ | .forward _ _ | .other _ =>
    .isTrue trivial

/-- `init`, the idle process, the UART driver, the file server, the shell and a program have the pids 1 to 6. -/
def boot : Option Clients :=
  (exec Scheduler.step (fun _ _ => True) (Scheduler.new 0) (List.replicate 6 (.addProcess 0))).map fun out =>
    ⟨⟨out.1, .new⟩, .start 1 0, [], []⟩

/-- They register, and `init`, the UART driver and the program find whom they look for. -/
def settle : List ClientOp :=
  [.register 3 (ascii "uart-drv"), .register 4 vfsName, .register 5 shellName, .findShell 3, .resolve 0 0, .resolve 0 1,
    .resolve 0 2, .libcRequest 6 (.new 6)]

/-- The message in which `init` is told of a page fault. -/
def pageFault (pid : Nat) : Message := ((Message.new pid).setData 0 Monitor.faultPf).setData 1 (BitVec.ofNat 64 pid)

private theorem exists_run {G : Clients → ClientOp → Prop} [∀ z op, Decidable (G z op)] (ops : List ClientOp)
    (test : List Sent → Bool)
    (h : (boot.bind fun x => exec step G x ops).any (fun out => test (out.2.filterMap Prod.snd)) = true) :
    ∃ x es y, x.Fresh ∧ Run step G x es y ∧ test (es.filterMap Prod.snd) = true := by
  obtain ⟨⟨y, es⟩, hexec, htest⟩ := (Option.any_eq_true _ _).1 h
  obtain ⟨x, hboot, hexec⟩ := Option.bind_eq_some_iff.1 hexec
  obtain ⟨out, -, rfl⟩ := Option.map_eq_some_iff.1 hboot
  exact ⟨_, es, y, ⟨rfl, rfl, rfl⟩, run_of_exec hexec, htest⟩

theorem requests_reach_boot : ∃ es : List (ClientOp × Option Sent), es.filterMap Prod.snd =
      [⟨vfsName, 4, some 4⟩, ⟨vfsName, 4, some 4⟩, ⟨shellName, 5, some 5⟩] ∧ ∀ op s, (op, some s) ∈ es → Reaches s := by
  obtain ⟨x, es, y, hfresh, hrun, htest⟩ := exists_run (G := Steady) (settle ++ [.shellRequest 5 (.new 5), .forward 3 0x61])
    (fun sent => decide (sent = [⟨vfsName, 4, some 4⟩, ⟨vfsName, 4, some 4⟩, ⟨shellName, 5, some 5⟩])) (by decide +kernel)
  exact ⟨es, of_decide_eq_true htest, requests_reach hfresh hrun⟩

/-- The file server has crashed, and process 6 takes its name. -/
theorem restarted_out_of_reach_crash : ∃ x es y, x.VfsGone ∧ Run step (fun _ _ => True) x es y ∧
    ∀ pid msg s, (.shellRequest pid msg, some s) ∈ es → s.registered ≠ some s.target := by
  have h : (boot.bind fun x => exec step (fun _ _ => True) x [.crash 4]).any (fun out =>
      (exec step (fun _ _ => True) out.1 [.register 6 vfsName, .shellRequest 5 (.new 5)]).any fun _ => decide
        (4 < out.1.dir.sched.processTable.nextPid ∧ (out.1.dir.sched.getProcess 4).isNone)) = true := by decide +kernel
  obtain ⟨out, -, h⟩ := (Option.any_eq_true _ _).1 h
  obtain ⟨⟨y, es⟩, hrun, h⟩ := (Option.any_eq_true _ _).1 h
  obtain ⟨hknown, hgone⟩ := of_decide_eq_true h
  have hgone : out.1.VfsGone := ⟨Option.isNone_iff_eq_none.1 hgone, hknown⟩
  exact ⟨_, es, y, hgone, run_of_exec hrun, restarted_out_of_reach hgone (run_of_exec hrun)⟩

/-- The file server and the shell crash, and `init` restarts them.  The shell and the program go on sending to process 4,
while the file server is process 7, and the UART driver to process 5, while the shell is process 8. -/
theorem restarted_missed : ∃ x es y, x.Fresh ∧ Run step (fun _ _ => True) x es y ∧
    es.filterMap Prod.snd =
      [⟨vfsName, 4, some 4⟩, ⟨vfsName, 4, some 7⟩, ⟨vfsName, 4, some 7⟩, ⟨shellName, 5, some 8⟩] ∧
    ¬ ∀ op s, (op, some s) ∈ es → Reaches s := by
  obtain ⟨x, es, y, hfresh, hrun, htest⟩ := exists_run (G := fun _ _ => True)
    (settle ++ [.crash 4, .report (fun _ => 0) (pageFault 4), .register 7 vfsName, .shellRequest 5 (.new 5),
      .libcRequest 6 (.new 6), .crash 5, .report (fun _ => 0) (pageFault 5), .register 8 shellName, .forward 3 0x61])
    (fun sent => decide (sent =
      [⟨vfsName, 4, some 4⟩, ⟨vfsName, 4, some 7⟩, ⟨vfsName, 4, some 7⟩, ⟨shellName, 5, some 8⟩])) (by decide +kernel)
  have hsent := of_decide_eq_true htest
  refine ⟨x, es, y, hfresh, hrun, hsent, fun hreach => ?_⟩
  have hmem : (⟨vfsName, 4, some 7⟩ : Sent) ∈ es.filterMap Prod.snd := by
    rw [hsent]
    simp
  obtain ⟨⟨op, r⟩, he, rfl⟩ := List.mem_filterMap.1 hmem
  exact absurd (hreach op _ he 7 rfl) (by decide +kernel)

end Clients

end Rost
