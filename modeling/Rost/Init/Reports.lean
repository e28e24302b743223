import Rost.Init.Monitor

/-!
# What the monitor acts on

A report names its subject in a payload word, and the kernel stamps its sender.  `handle_msg` acts on the subject
(`handleMsg_subject`), so it acts on the sender when the two agree, as they do in a report of the kernel and in an honest
heartbeat.
-/

namespace Rost

namespace Monitor

open Vfs (Bytes ascii)

/-- A service with this pid is watched. -/
def Watched (m : Monitor) (pid : Word) : Prop := ∃ svc ∈ m.services, svc.pid = pid

instance (m : Monitor) (pid : Word) : Decidable (m.Watched pid) :=
  inferInstanceAs (Decidable (∃ svc ∈ m.services, svc.pid = pid))

theorem watcher_spec {m : Monitor} {pid : Word} {i : Nat} (h : m.watcher pid = some i) :
    ∃ svc, m.services[i]? = some svc ∧ svc.pid = pid := by
  obtain ⟨hi, hpid, -⟩ := List.findIdx?_eq_some_iff_getElem.1 h
  exact ⟨m.services[i], List.getElem?_eq_getElem hi, by simpa using hpid⟩

/-- The restart logic touches one service, restarts no other, and leaves the heartbeats alone. -/
theorem attemptRestart_spec {m : Monitor} {i : Nat} {svc : ServiceEntry} (h : m.services[i]? = some svc) (ans : Answers) :
    (∀ j, j ≠ i → (m.attemptRestart ans i).1.services[j]? = m.services[j]?) ∧
    (∀ name, Call.restartServer name ∈ (m.attemptRestart ans i).2 → name = svc.name) ∧
    (m.attemptRestart ans i).1.lastBeat = m.lastBeat := by
  have hset : ∀ (svc' : ServiceEntry) (j : Nat), j ≠ i → (m.services.set i svc')[j]? = m.services[j]? :=
    fun svc' j hj => List.getElem?_set_ne (Ne.symm hj)
  have hexit : ∀ name, Call.restartServer name ∉ (if svc.critical then orderedShutdown else []) := by
    intro name
    unfold orderedShutdown
    split <;> simp
  unfold attemptRestart
  rw [h]
  dsimp only
  split
  · split
    · refine ⟨hset _, ?_, rfl⟩
      intro name hname
      cases List.mem_singleton.1 hname
      rfl
    · refine ⟨hset _, ?_, rfl⟩
      intro name hname
      rcases List.mem_cons.1 hname with heq | hname
      · cases heq
        rfl
      · exact absurd hname (hexit name)
  · refine ⟨hset _, ?_, rfl⟩
    intro name hname
    exact absurd hname (hexit name)

/-- What a message can change, and that its subject is the service that is changed. -/
theorem handleMsg_subject (m : Monitor) (ans : Answers) (msg : Message) :
    (∀ i : Nat, (m.handleMsg ans msg).1.services[i]? ≠ m.services[i]? → isFault (msg.getData 0) = true ∧
      ∃ svc, m.services[i]? = some svc ∧ svc.pid = msg.getData 1) ∧
    (∀ name, Call.restartServer name ∈ (m.handleMsg ans msg).2 → isFault (msg.getData 0) = true ∧
      ∃ svc ∈ m.services, svc.name = name ∧ svc.pid = msg.getData 1) ∧
    (∀ (i : Nat) (hi : i < maxServices), (m.handleMsg ans msg).1.lastBeat[i] ≠ m.lastBeat[i] →
      msg.getData 0 = opHeartbeat ∧ ∃ svc, m.services[i]? = some svc ∧ svc.pid = msg.getData 1) ∧
    (∀ c ∈ (m.handleMsg ans msg).2, c.isExit = true → msg.getData 0 = opShutdown ∨
      (isFault (msg.getData 0) = true ∧ m.Watched (msg.getData 1))) := by
  unfold handleMsg
  dsimp only
  split
  · rename_i hfault
    split
    · exact ⟨fun i h => absurd rfl h, fun name h => absurd h (by simp), fun i _ h => absurd rfl h, fun c hc => by cases hc⟩
    · rename_i i hi
      obtain ⟨svc, hsvc, hpid⟩ := watcher_spec hi
      have hmem : svc ∈ m.services := List.mem_of_getElem? hsvc
      generalize m.log.append (ans.clock 0) _ = l
      obtain ⟨hother, hname, hbeat⟩ := attemptRestart_spec (m := { m with log := l }) hsvc ans
      refine ⟨?_, ?_, ?_, ?_⟩
      · intro j hj
        obtain rfl : j = i := by
          by_contra hne
          exact hj (hother j hne)
        exact ⟨hfault, svc, hsvc, hpid⟩
      · intro name hn
        exact ⟨hfault, svc, hmem, (hname name hn).symm, hpid⟩
      · intro j hj hne
        exact absurd (congrArg (fun beats : Vector Word maxServices => beats[j]) hbeat) hne
      · intro c _ _
        exact Or.inr ⟨hfault, svc, hmem, hpid⟩
  · split
    · rename_i hop
      split
      · exact ⟨fun i h => absurd rfl h, fun name h => absurd h (by simp), fun i _ h => absurd rfl h,
          fun c hc => by cases hc⟩
      · rename_i i hi
        split
        · rename_i hlt
          refine ⟨fun i h => absurd rfl h, fun name h => absurd h (by simp), ?_, fun c hc => by cases hc⟩
          intro j hj hne
          obtain rfl : i = j := by
            by_contra hij
            exact hne (Vector.getElem_set_ne hlt hj hij)
          exact ⟨hop, watcher_spec hi⟩
        · exact ⟨fun i h => absurd rfl h, fun name h => absurd h (by simp), fun i _ h => absurd rfl h,
            fun c hc => by cases hc⟩
    · split
      · refine ⟨fun i h => absurd rfl h, fun name h => absurd h (by simp), fun i _ h => absurd rfl h, ?_⟩
        intro c hc hexit
        cases List.mem_singleton.1 hc
        cases hexit
      · split
        · rename_i hop
          refine ⟨fun i h => absurd rfl h, ?_, fun i _ h => absurd rfl h, fun _ _ _ => Or.inl hop⟩
          intro name hname
          cases List.mem_singleton.1 hname
        · exact ⟨fun i h => absurd rfl h, fun name h => absurd h (by simp), fun i _ h => absurd rfl h,
            fun c hc => by cases hc⟩

/-! ### Authenticity -/

/-- The message changes and restarts only the service that sent it. -/
structure Authentic (m : Monitor) (ans : Answers) (msg : Message) : Prop where
  services : ∀ i : Nat, (m.handleMsg ans msg).1.services[i]? ≠ m.services[i]? →
    ∃ svc, m.services[i]? = some svc ∧ svc.pid = BitVec.ofNat 64 msg.sender
  restarts : ∀ name, Call.restartServer name ∈ (m.handleMsg ans msg).2 →
    ∃ svc ∈ m.services, svc.name = name ∧ svc.pid = BitVec.ofNat 64 msg.sender
  beats : ∀ (i : Nat) (hi : i < maxServices), (m.handleMsg ans msg).1.lastBeat[i] ≠ m.lastBeat[i] →
    ∃ svc, m.services[i]? = some svc ∧ svc.pid = BitVec.ofNat 64 msg.sender

/-- A fault report or a heartbeat names its sender. -/
def Honest (msg : Message) : Prop :=
  isFault (msg.getData 0) = true ∨ msg.getData 0 = opHeartbeat → msg.getData 1 = BitVec.ofNat 64 msg.sender

theorem authentic_of_honest (m : Monitor) (ans : Answers) {msg : Message} (h : Honest msg) : m.Authentic ans msg := by
  obtain ⟨hservices, hrestarts, hbeats, -⟩ := m.handleMsg_subject ans msg
  constructor
  · intro i hi
    obtain ⟨hfault, svc, hsvc, hpid⟩ := hservices i hi
    exact ⟨svc, hsvc, hpid.trans (h (Or.inl hfault))⟩
  · intro name hname
    obtain ⟨hfault, svc, hsvc, hn, hpid⟩ := hrestarts name hname
    exact ⟨svc, hsvc, hn, hpid.trans (h (Or.inl hfault))⟩
  · intro i hi hne
    obtain ⟨hop, svc, hsvc, hpid⟩ := hbeats i hi hne
    exact ⟨svc, hsvc, hpid.trans (h (Or.inr hop))⟩

/-- The tables are as they were, nothing was restarted and `init` goes on. -/
def Unmoved (m : Monitor) (r : Monitor × List Call) : Prop :=
  r.1.services = m.services ∧ r.1.lastBeat = m.lastBeat ∧
    ∀ c ∈ r.2, c.isExit = false ∧ ∀ name, c ≠ .restartServer name

/-- An honest message of a process that is not watched, other than a request to shut down. -/
def Harmless (m : Monitor) (msg : Message) : Prop :=
  Honest msg ∧ ¬ m.Watched (BitVec.ofNat 64 msg.sender) ∧ msg.getData 0 ≠ opShutdown

private theorem unmoved_handleMsg {m : Monitor} (ans : Answers) {msg : Message} (h : m.Harmless msg) :
    m.Unmoved (m.handleMsg ans msg) := by
  obtain ⟨hhonest, hstranger, hop⟩ := h
  obtain ⟨hservices, hrestarts, hbeats⟩ := authentic_of_honest m ans hhonest
  refine ⟨?_, ?_, ?_⟩
  · apply List.ext_getElem?
    intro i
    by_contra hne
    obtain ⟨svc, hsvc, hpid⟩ := hservices i hne
    exact hstranger ⟨svc, List.mem_of_getElem? hsvc, hpid⟩
  · apply Vector.ext
    intro i hi
    by_contra hne
    obtain ⟨svc, hsvc, hpid⟩ := hbeats i hi hne
    exact hstranger ⟨svc, List.mem_of_getElem? hsvc, hpid⟩
  · intro c hc
    constructor
    · cases hexit : c.isExit with
      | false => rfl
      | true =>
        rcases (m.handleMsg_subject ans msg).2.2.2 c hc hexit with hsd | ⟨hfault, svc, hsvc, hpid⟩
        · exact absurd hsd hop
        · exact absurd ⟨svc, hsvc, hpid.trans (hhonest (Or.inl hfault))⟩ hstranger
    · rintro name rfl
      obtain ⟨svc, hsvc, -, hpid⟩ := hrestarts name hc
      exact hstranger ⟨svc, hsvc, hpid⟩

private theorem unmoved_handleAll {m : Monitor} {ins : List (Answers × Message)} (h : ∀ x ∈ ins, m.Harmless x.2) :
    m.Unmoved (m.handleAll ins) := by
  induction ins generalizing m with
  | nil => exact ⟨rfl, rfl, fun c hc => by cases hc⟩
  | cons x ins ih =>
    obtain ⟨ans, msg⟩ := x
    have hfirst := unmoved_handleMsg ans (h _ List.mem_cons_self)
    unfold handleAll
    generalize m.handleMsg ans msg = r at hfirst
    obtain ⟨m', calls⟩ := r
    obtain ⟨hservices, hbeats, hcalls⟩ := hfirst
    dsimp only at hservices hbeats hcalls ⊢
    have hgoes : calls.any Call.isExit = false := by
      rw [List.any_eq_false]
      intro c hc
      rw [(hcalls c hc).1]
      exact Bool.false_ne_true
    rw [hgoes, if_neg Bool.false_ne_true]
    have hrest : ∀ x ∈ ins, m'.Harmless x.2 := by
      intro x hx
      have := h x (List.mem_cons_of_mem _ hx)
      unfold Harmless Watched at this ⊢
      rw [hservices]
      exact this
    obtain ⟨hservices', hbeats', hcalls'⟩ := ih hrest
    refine ⟨hservices'.trans hservices, hbeats'.trans hbeats, ?_⟩
    intro c hc
    rcases List.mem_append.1 hc with hc | hc
    · exact hcalls c hc
    · exact hcalls' c hc

/-- An honest message acts on its sender only; honest messages of processes that are not watched move nothing, unless
one of them requests a shutdown. -/
theorem handle_honest (m : Monitor) :
    (∀ ans msg, Honest msg → m.Authentic ans msg) ∧
    ∀ ins : List (Answers × Message), (∀ x ∈ ins, m.Harmless x.2) → m.Unmoved (m.handleAll ins) :=
  ⟨fun ans _ h => authentic_of_honest m ans h, fun _ h => unmoved_handleAll h⟩

/-- Two messages of process 9, which is not watched: a fault report that names process 2 gets the serial driver restarted,
and a request to shut down is obeyed. -/
theorem stranger_is_heard :
    ∃ (m : Monitor) (ans : Answers) (report request : Message),
      report.sender = 9 ∧ request.sender = 9 ∧ ¬ m.Watched 9 ∧ m.Watched 2 ∧
      ¬ m.Authentic ans report ∧ ¬ m.Unmoved (m.handleAll [(ans, report)]) ∧
      ¬ m.Unmoved (m.handleAll [(ans, request)]) := by
  let svc : ServiceEntry := ⟨ascii "uart-drv" ++ List.replicate 8 0, true, 2, 0⟩
  let m : Monitor := ⟨[svc], Vector.replicate maxServices unset, LogBuf.new⟩
  let ans : Answers := ⟨fun _ => 0, some 11⟩
  let report : Message := ((Message.new 9).setData 0 faultPf).setData 1 2
  let request : Message := (Message.new 9).setData 0 opShutdown
  have hstranger : ¬ m.Watched 9 := by decide
  have hcall : Call.restartServer svc.name ∈ (m.handleMsg ans report).2 := by decide
  have hcalls : Call.restartServer svc.name ∈ (m.handleAll [(ans, report)]).2 := by decide
  have hexit : Call.exit 1 ∈ (m.handleAll [(ans, request)]).2 := by decide
  refine ⟨m, ans, report, request, rfl, rfl, hstranger, by decide, ?_, ?_, ?_⟩
  · intro hauth
    obtain ⟨svc', hmem, -, hpid⟩ := hauth.restarts svc.name hcall
    exact hstranger ⟨svc', hmem, hpid⟩
  · intro hmoved
    exact (hmoved.2.2 _ hcalls).2 svc.name rfl
  · intro hmoved
    exact Bool.noConfusion (hmoved.2.2 _ hexit).1

end Monitor

end Rost
