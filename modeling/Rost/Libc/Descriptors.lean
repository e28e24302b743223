import Rost.Libc.VfsClient
import Rost.Vfs.Tables
import Mathlib.Logic.Function.Basic

/-!
# Descriptors in two tables

A process keeps the number that the server has given it for each of its descriptors.  The server closes descriptors on its
own when any client removes their path, and gives the number to the process again; the process still holds the old entry,
which comes to name another file (`Clients.descriptor_renamed`).  In every run in which the numbers handed out are not held
any more, and no path is cut to fit into a message, the tables stay in step (`Clients.descriptors_faithful`).
-/

namespace Rost.Vfs

namespace Server

variable {env : Env} {s : Server} {sender n : Nat} {oflags : Byte} {path : Bytes}

/-- Only an open adds a descriptor. -/
theorem Handled.kept {req : Request} {s' : Server} (h : Handled env s sender req s')
    (hreq : ∀ oflags path, req ≠ .open oflags path) : Fd.Kept s.table s'.table := by
  have hsame : ∀ {table : FdTable}, table = s.table → Fd.Kept s.table table := by
    rintro table rfl
    exact .refl _
  cases h with
  | reads => exact hsame rfl
  | writeOpen flags path => exact hsame (table_handleWriteOpen flags path)
  | writeData chunkLen bytes => exact hsame (table_handleWriteData chunkLen bytes)
  | writeClose => exact hsame table_handleWriteClose
  | mkdir path => exact hsame (table_handleMkdir path)
  | unlink path => exact kept_handleUnlink path
  | «open» oflags path => exact absurd rfl (hreq oflags path)
  | close fd => exact kept_handleClose fd
  | readFd hout => exact kept_handleReadFd hout
  | writeFd fd chunkLen bytes => exact kept_handleWriteFd fd chunkLen bytes
  | seek fd newOffset => exact kept_handleSeek fd newOffset

/-- The file can be opened, and `n` is the least number that the process does not use. -/
def OpensAs (env : Env) (s : Server) (sender : Nat) (oflags : Byte) (path : Bytes) (n : Nat) : Prop :=
  (∃ nodes, (if isWrite oflags then s.openForWrite env oflags path else s.openForRead env path) = .ok nodes) ∧
    Fd.freeNumber s.table sender = some n ∧ ¬ Fd.NoneLeft s.table sender (trimNull path)

/-- An open either fails and adds no descriptor, or hands out the least free number. -/
theorem handleOpen_cases (env : Env) (s : Server) (sender : Nat) (oflags : Byte) (path : Bytes) :
    ((∀ n, ¬ s.OpensAs env sender oflags path n) ∧ (∃ e, (s.handleOpen env sender oflags path).2 = .error e) ∧
      Fd.Kept s.table (s.handleOpen env sender oflags path).1.table) ∨
    ∃ n t, s.OpensAs env sender oflags path n ∧ Fd.alloc s.table sender (trimNull path) oflags = some (t, n) ∧
      (s.handleOpen env sender oflags path).2 = .fd n ∧ Fd.Kept t (s.handleOpen env sender oflags path).1.table ∧
      ∃ e, Fd.get (s.handleOpen env sender oflags path).1.table sender n = some e ∧ e.path = trimNull path := by
  unfold handleOpen
  cases hfile : (if isWrite oflags then s.openForWrite env oflags path else s.openForRead env path) with
  | error e =>
    refine .inl ⟨fun n hopens => ?_, ⟨e, rfl⟩, .refl _⟩
    obtain ⟨⟨nodes, hok⟩, -⟩ := hopens
    rw [hfile] at hok
    cases hok
  | ok nodes =>
    dsimp only
    cases halloc : Fd.alloc s.table sender (trimNull path) oflags with
    | none =>
      refine .inl ⟨fun n hopens => hopens.2.2 (Fd.alloc_eq_none_iff.1 halloc), ⟨_, rfl⟩, .refl _⟩
    | some out =>
      obtain ⟨t, n⟩ := out
      have hnumber : Fd.freeNumber s.table sender = some n := by
        unfold Fd.alloc at halloc
        split at halloc
        · cases halloc
        · obtain ⟨m, hm, halloc⟩ := Option.bind_eq_some_iff.1 halloc
          obtain ⟨i, -, heq⟩ := Option.map_eq_some_iff.1 halloc
          cases heq
          exact hm
      have hleft : ¬ Fd.NoneLeft s.table sender (trimNull path) := fun h => by
        rw [Fd.alloc_eq_none_iff.2 h] at halloc
        cases halloc
      have hget := Fd.get_alloc halloc
      have hkept : ∀ k, Fd.Kept t (if 0 < k then Fd.seek t sender n k else t) := by
        intro k
        split
        · exact Fd.kept_seek k
        · exact .refl _
      have hfound : ∀ k, ∃ e, Fd.get (if 0 < k then Fd.seek t sender n k else t) sender n = some e ∧
          e.path = trimNull path := by
        intro k
        split
        · exact ⟨_, Fd.get_seek hget k, rfl⟩
        · exact ⟨_, hget, rfl⟩
      exact .inr ⟨n, t, ⟨⟨nodes, hfile⟩, hnumber, hleft⟩, rfl, rfl, hkept _, hfound _⟩

end Server

/-- What is found for a number is an entry for it. -/
theorem Fd.exists_isFor {table : FdTable} {pid fd : Nat} {e : FdEntry} (h : get table pid fd = some e) :
    ∃ i, FdEntry.isFor pid fd (table.get i) = true ∧ table.get i = e := by
  obtain ⟨i, hi, heq⟩ := Option.map_eq_some_iff.1 h
  exact ⟨i, Lib.Slots.first_spec hi, heq⟩

/-- Entries that are kept are for the same number and path. -/
theorem Fd.Kept.isFor {table table' : FdTable} {pid fd : Nat} {i : Fin maxFds} (h : Kept table table')
    (hfor : FdEntry.isFor pid fd (table'.get i) = true) :
    FdEntry.isFor pid fd (table.get i) = true ∧ (table'.get i).path = (table.get i).path := by
  obtain ⟨hused, hpid, hfd⟩ := isFor_iff.1 hfor
  obtain ⟨hused', hpid', hfd', hpath⟩ := h i hused
  exact ⟨isFor_iff.2 ⟨hused', hpid' ▸ hpid, hfd' ▸ hfd⟩, hpath⟩

/-- The entries after a new descriptor: its own, and the ones before. -/
theorem Fd.isFor_alloc {table table' : FdTable} {pid n q m : Nat} {path : Bytes} {oflags : Byte} {i : Fin maxFds}
    (h : alloc table pid path oflags = some (table', n)) (hfor : FdEntry.isFor q m (table'.get i) = true) :
    (q = pid ∧ m = n ∧ (table'.get i).path = path) ∨
      (FdEntry.isFor q m (table.get i) = true ∧ (table'.get i).path = (table.get i).path) := by
  obtain ⟨-, -, j, -, rfl⟩ := alloc_spec h
  by_cases hij : i = j
  · subst hij
    rw [Lib.Slots.get_set_self] at hfor ⊢
    obtain ⟨-, hpid, hfd⟩ := isFor_iff.1 hfor
    exact .inl ⟨hpid.symm, hfd.symm, rfl⟩
  · rw [Lib.Slots.get_set_of_ne _ hij] at hfor ⊢
    exact .inr ⟨hfor, rfl⟩

end Rost.Vfs

namespace Rost.Libc

open Vfs (Env Server Reply Bytes FdEntry trimNull)
open Lib (Slots Run exec run_of_exec)

/-! ### The descriptor table of a process -/

/-- There is a slot for a new descriptor. -/
def HasFree (t : FdTable) : Prop := ∃ i : Fin openMax, 3 ≤ i.val ∧ t.get i = none

theorem allocFd_eq_none_iff {t : FdTable} {vfd : Nat} : allocFd t vfd = none ↔ ¬ HasFree t := by
  unfold allocFd HasFree
  rw [Option.map_eq_none_iff, List.find?_eq_none]
  simp

theorem allocFd_spec {t t' : FdTable} {vfd : Nat} {fd : Fin openMax} (h : allocFd t vfd = some (t', fd)) :
    HasFree t ∧ t.get fd = none ∧ t' = t.set fd (some vfd) := by
  obtain ⟨i, hi, heq⟩ := Option.map_eq_some_iff.1 h
  simp only [Prod.mk.injEq] at heq
  obtain ⟨rfl, rfl⟩ := heq
  have hfree := List.find?_some hi
  simp only [Bool.and_eq_true, decide_eq_true_eq, Option.isNone_iff_eq_none] at hfree
  exact ⟨⟨i, hfree⟩, hfree.2, rfl⟩

/-! ### Clients of one server -/

/-- The server, and for each process its descriptors and the paths that it has opened them with. -/
structure Clients where
  server : Server
  tables : Nat → FdTable
  paths : Nat → Fin openMax → Bytes

/-- A process opens or closes a descriptor, or makes any request to the server that opens none: `read` and `write` are made
of such requests, and an open that finds no slot makes one to close the server's descriptor again. -/
inductive ClientOp where
  | open (pid : Nat) (path : Bytes) (flags : Byte)
  | close (pid fd : Nat)
  | request (pid : Nat) (req : Vfs.Request)

namespace Clients

def boot : Clients := ⟨Server.new, fun _ => .replicate _ none, fun _ _ => []⟩

/-- One request, and what the C library does with its reply; the result is a descriptor, or 0 for a close. -/
def step (env : Env) (x : Clients) : ClientOp → Option (Clients × Option Nat)
  | .open pid path flags =>
    (vfsOpen env x.server pid path (flags &&& 0x1F)).map fun out =>
      match out.2.bind (allocFd (x.tables pid)) with
      | none => ({ x with server := out.1 }, none)
      | some (t, fd) =>
        (⟨out.1, Function.update x.tables pid t,
          Function.update x.paths pid (Function.update (x.paths pid) fd path)⟩, some fd.val)
  | .close pid fd =>
    (close env pid (x.server, x.tables pid) fd).map fun out =>
      ({ x with server := out.1.1, tables := Function.update x.tables pid out.1.2 }, if out.2 then some 0 else none)
  | .request _ (.open _ _) => none
  | .request pid req => (x.server.handle env pid req).map fun out => ({ x with server := out.1 }, none)

/-- Two descriptors of a process have different numbers, and what the server has for the number of a descriptor has the path
that the descriptor was opened with. -/
structure Faithful (x : Clients) : Prop where
  distinct : ∀ pid i j n, (x.tables pid).get i = some n → (x.tables pid).get j = some n → i = j
  named : ∀ pid i n, (x.tables pid).get i = some n →
    ∀ k, FdEntry.isFor pid n (x.server.table.get k) = true → (x.server.table.get k).path = x.paths pid i

/-- The path that the server is asked for. -/
def arrives (path : Bytes) : Bytes := trimNull (packPath path)

/-- If the server hands out the number `n`, no descriptor of the process holds it, and the path arrives whole; where the
process has no slot left, a descriptor may hold the number for the same path. -/
def NumberFits (x : Clients) (pid : Nat) (path : Bytes) (n : Nat) : Prop :=
  (∀ i, (x.tables pid).get i = some n → ¬ HasFree (x.tables pid) ∧ x.paths pid i = arrives path) ∧
    (HasFree (x.tables pid) → arrives path = path)

/-- An open that succeeds gets a number that fits. -/
def Fresh (env : Env) (x : Clients) : ClientOp → Prop
  | .open pid path flags => ∀ n, x.server.OpensAs env pid (flags &&& 0x1F) (packPath path) n → x.NumberFits pid path n
  | _ => True

/-- The step leads to tables that are in step. -/
def Keeps (env : Env) (x : Clients) (op : ClientOp) : Prop := ∀ y r, x.step env op = some (y, r) → y.Faithful

/-! ### One request -/

variable {env : Env} {x y : Clients}

/-- Losing entries on either side keeps the tables in step. -/
theorem Faithful.of_kept (h : x.Faithful) (hkept : Vfs.Fd.Kept x.server.table y.server.table) (hpaths : y.paths = x.paths)
    (htables : ∀ pid i n, (y.tables pid).get i = some n → (x.tables pid).get i = some n) : y.Faithful := by
  refine ⟨fun pid i j n hi hj => h.distinct pid i j n (htables pid i n hi) (htables pid j n hj), ?_⟩
  intro pid i n hi k hfor
  obtain ⟨hfor', hpath⟩ := hkept.isFor hfor
  rw [hpath, hpaths]
  exact h.named pid i n (htables pid i n hi) k hfor'

/-- A request that opens nothing keeps the tables in step. -/
theorem keeps_request (h : x.Faithful) (pid : Nat) (req : Vfs.Request) : x.Keeps env (.request pid req) := by
  intro y r hstep
  unfold step at hstep
  split at hstep
  · rename_i heq
    cases heq
  · rename_i heq
    cases heq
  · cases hstep
  · rename_i q req' hreq heq
    cases heq
    obtain ⟨out, hout, heq⟩ := Option.map_eq_some_iff.1 hstep
    cases heq
    exact h.of_kept ((Server.handled_of_handle hout).kept hreq) rfl fun _ _ _ hi => hi

theorem vfsClose_kept {s s' : Server} {pid vfd : Nat} {ok : Bool} (h : vfsClose env s pid vfd = some (s', ok)) :
    Vfs.Fd.Kept s.table s'.table := by
  unfold vfsClose vfsCall at h
  obtain ⟨⟨t, reply⟩, hcall, heq⟩ := Option.map_eq_some_iff.1 h
  obtain ⟨out, hout, hhead⟩ := Option.bind_eq_some_iff.1 hcall
  obtain ⟨r, -, hr⟩ := Option.map_eq_some_iff.1 hhead
  cases hr
  cases heq
  exact (Server.handled_of_handle hout).kept fun _ _ hreq => by cases hreq

/-- A close keeps the tables in step: the entry goes when the server has closed the descriptor, and stays otherwise. -/
theorem keeps_close (h : x.Faithful) (pid fd : Nat) : x.Keeps env (.close pid fd) := by
  intro y r hstep
  obtain ⟨⟨⟨s', t⟩, ok⟩, hclose, heq⟩ := Option.map_eq_some_iff.1 hstep
  simp only [Prod.mk.injEq] at heq
  obtain ⟨rfl, -⟩ := heq
  have hparts : Vfs.Fd.Kept x.server.table s'.table ∧ ∀ i n, t.get i = some n → (x.tables pid).get i = some n := by
    unfold close at hclose
    split at hclose
    · cases hclose
      exact ⟨.refl _, fun _ _ hi => hi⟩
    · obtain ⟨⟨s₁, ok₁⟩, hcall, heq⟩ := Option.map_eq_some_iff.1 hclose
      simp only [Prod.mk.injEq] at heq
      obtain ⟨⟨rfl, rfl⟩, rfl⟩ := heq
      refine ⟨vfsClose_kept hcall, fun i n hi => ?_⟩
      split at hi
      · unfold releaseFd at hi
        split at hi
        · rename_i hrange
          by_cases hij : i = ⟨fd, hrange.2⟩
          · rw [hij, Slots.get_set_self] at hi
            cases hi
          · rw [Slots.get_set_of_ne _ hij] at hi
            exact hi
        · exact hi
      · exact hi
  refine h.of_kept hparts.1 rfl fun q i n hi => ?_
  dsimp only at hi
  by_cases hq : q = pid
  · subst hq
    rw [Function.update_self] at hi
    exact hparts.2 i n hi
  · rw [Function.update_of_ne hq] at hi
    exact hi

/-- What an open comes to. -/
theorem open_cases (env : Env) (x : Clients) (pid : Nat) (path : Bytes) (flags : Byte) :
    ((∀ n, ¬ x.server.OpensAs env pid (flags &&& 0x1F) (packPath path) n) ∧ ∃ s',
      x.step env (.open pid path flags) = some ({ x with server := s' }, none) ∧ Vfs.Fd.Kept x.server.table s'.table) ∨
    ∃ n t s', x.server.OpensAs env pid (flags &&& 0x1F) (packPath path) n ∧
      Vfs.Fd.alloc x.server.table pid (arrives path) (flags &&& 0x1F) = some (t, n) ∧ Vfs.Fd.Kept t s'.table ∧
      (∃ e, Vfs.Fd.get s'.table pid n = some e ∧ e.path = arrives path) ∧
      ((¬ HasFree (x.tables pid) ∧ x.step env (.open pid path flags) = some ({ x with server := s' }, none)) ∨
        ∃ fd, HasFree (x.tables pid) ∧ (x.tables pid).get fd = none ∧ x.step env (.open pid path flags) =
          some (⟨s', Function.update x.tables pid ((x.tables pid).set fd (some n)),
            Function.update x.paths pid (Function.update (x.paths pid) fd path)⟩, some fd.val)) := by
  have hcall : vfsCall env x.server pid (.open (flags &&& 0x1F) (packPath path)) =
      some (x.server.handleOpen env pid (flags &&& 0x1F) (packPath path)) := rfl
  rcases x.server.handleOpen_cases env pid (flags &&& 0x1F) (packPath path) with
    ⟨hno, ⟨e, herror⟩, hkept⟩ | ⟨n, t, hopens, halloc, hreply, hkept, hfound⟩
  · refine .inl ⟨hno, _, ?_, hkept⟩
    unfold step vfsOpen
    dsimp only
    rw [hcall, Option.map_some, herror]
    rfl
  · refine .inr ⟨n, t, _, hopens, halloc, hkept, hfound, ?_⟩
    cases hslot : allocFd (x.tables pid) n with
    | none =>
      refine .inl ⟨allocFd_eq_none_iff.1 hslot, ?_⟩
      unfold step vfsOpen
      dsimp only
      rw [hcall, Option.map_some, hreply]
      simp only [Option.map_some, Option.bind_some, hslot]
    | some out =>
      obtain ⟨t', fd⟩ := out
      obtain ⟨hfree, hnone, rfl⟩ := allocFd_spec hslot
      refine .inr ⟨fd, hfree, hnone, ?_⟩
      unfold step vfsOpen
      dsimp only
      rw [hcall, Option.map_some, hreply]
      simp only [Option.map_some, Option.bind_some, hslot]

/-- After an open the server has, for the numbers of a process, what it had and the new descriptor. -/
theorem isFor_open {s s' : Server} {t : Vfs.FdTable} {pid n q m : Nat} {path : Bytes} {oflags : Byte} {k : Fin Vfs.maxFds}
    (halloc : Vfs.Fd.alloc s.table pid path oflags = some (t, n)) (hkept : Vfs.Fd.Kept t s'.table)
    (hfor : FdEntry.isFor q m (s'.table.get k) = true) :
    (q = pid ∧ m = n ∧ (s'.table.get k).path = path) ∨
      (FdEntry.isFor q m (s.table.get k) = true ∧ (s'.table.get k).path = (s.table.get k).path) := by
  obtain ⟨hfor', hpath⟩ := hkept.isFor hfor
  rw [hpath]
  exact Vfs.Fd.isFor_alloc halloc hfor'

/-- The descriptor `fd` of process `pid` has got number `n`. -/
def opened (x : Clients) (s' : Server) (pid : Nat) (path : Bytes) (fd : Fin openMax) (n : Nat) : Clients :=
  ⟨s', Function.update x.tables pid ((x.tables pid).set fd (some n)),
    Function.update x.paths pid (Function.update (x.paths pid) fd path)⟩

section Opened

variable {s' : Server} {t : Vfs.FdTable} {pid n q m : Nat} {path : Bytes} {oflags : Byte} {fd i : Fin openMax}

private theorem tables_opened_self (x : Clients) (s' : Server) (pid : Nat) (path : Bytes) (fd : Fin openMax) (n : Nat) :
    ((x.opened s' pid path fd n).tables pid).get fd = some n := by
  unfold opened
  dsimp only
  rw [Function.update_self, Slots.get_set_self]

private theorem paths_opened_self (x : Clients) (s' : Server) (pid : Nat) (path : Bytes) (fd : Fin openMax) (n : Nat) :
    (x.opened s' pid path fd n).paths pid fd = path := by
  unfold opened
  dsimp only
  rw [Function.update_self, Function.update_self]

/-- The other descriptors are as before. -/
private theorem get_opened_of_ne (x : Clients) (s' : Server) (path : Bytes) (n : Nat) (h : q = pid → i ≠ fd) :
    ((x.opened s' pid path fd n).tables q).get i = (x.tables q).get i ∧
      (x.opened s' pid path fd n).paths q i = x.paths q i := by
  unfold opened
  dsimp only
  by_cases hq : q = pid
  · subst hq
    rw [Function.update_self, Function.update_self, Slots.get_set_of_ne _ (h rfl), Function.update_of_ne (h rfl)]
    exact ⟨rfl, rfl⟩
  · rw [Function.update_of_ne hq, Function.update_of_ne hq]
    exact ⟨rfl, rfl⟩

/-- A descriptor is the new one, or was there before; one of the same process is another, and has another number if no
descriptor of the process had the new one. -/
private theorem opened_cases (hheld : ∀ i, (x.tables pid).get i ≠ some n)
    (hi : ((x.opened s' pid path fd n).tables q).get i = some m) :
    (q = pid ∧ i = fd ∧ m = n) ∨
      ((x.tables q).get i = some m ∧ (x.opened s' pid path fd n).paths q i = x.paths q i ∧ (q = pid → i ≠ fd ∧ m ≠ n)) := by
  by_cases hnew : q = pid ∧ i = fd
  · obtain ⟨rfl, rfl⟩ := hnew
    rw [tables_opened_self] at hi
    exact .inl ⟨rfl, rfl, (Option.some.inj hi).symm⟩
  · have hne : q = pid → i ≠ fd := fun hq hif => hnew ⟨hq, hif⟩
    obtain ⟨hget, hpaths⟩ := get_opened_of_ne x s' path n hne
    rw [hget] at hi
    refine .inr ⟨hi, hpaths, fun hq => ⟨hne hq, ?_⟩⟩
    rintro rfl
    subst hq
    exact hheld i hi

/-- An open whose number no descriptor of the process holds, and whose path arrives whole, keeps the tables in step. -/
private theorem Faithful.opened (h : x.Faithful)
    (halloc : Vfs.Fd.alloc x.server.table pid (arrives path) oflags = some (t, n)) (hkept : Vfs.Fd.Kept t s'.table)
    (hheld : ∀ i, (x.tables pid).get i ≠ some n) (harrives : arrives path = path) :
    (x.opened s' pid path fd n).Faithful := by
  constructor
  · intro q i j m hi hj
    rcases opened_cases hheld hi with ⟨rfl, rfl, rfl⟩ | ⟨hi, -, hnew⟩
    · rcases opened_cases hheld hj with ⟨-, rfl, -⟩ | ⟨-, -, hnew'⟩
      · rfl
      · exact absurd rfl (hnew' rfl).2
    · rcases opened_cases hheld hj with ⟨rfl, rfl, rfl⟩ | ⟨hj, -⟩
      · exact absurd rfl (hnew rfl).2
      · exact h.distinct q i j m hi hj
  · intro q i m hi k hfor
    have hentry := isFor_open halloc hkept hfor
    rcases opened_cases hheld hi with ⟨rfl, rfl, rfl⟩ | ⟨hi, hpaths, hnew⟩
    · rw [paths_opened_self]
      rcases hentry with ⟨-, -, hpath⟩ | ⟨hold, -⟩
      · exact hpath.trans harrives
      · -- the server has no other entry for the number
        have hslot := Slots.first_eq_none_iff.1 (Vfs.Fd.alloc_spec halloc).2.1 k
        rw [hold] at hslot
        cases hslot
    · rw [hpaths]
      rcases hentry with ⟨rfl, rfl, -⟩ | ⟨hold, hsame⟩
      · exact absurd rfl (hnew rfl).2
      · exact hsame.trans (h.named q i m hi k hold)

/-- And no other open does. -/
private theorem Faithful.of_opened (h : (x.opened s' pid path fd n).Faithful) (hnone : (x.tables pid).get fd = none)
    {k : Fin Vfs.maxFds} (hfor : FdEntry.isFor pid n (s'.table.get k) = true)
    (hpath : (s'.table.get k).path = arrives path) :
    (∀ i, (x.tables pid).get i ≠ some n) ∧ arrives path = path := by
  have hself := tables_opened_self x s' pid path fd n
  refine ⟨fun i hi => ?_, ?_⟩
  · have hne : i ≠ fd := by
      rintro rfl
      rw [hnone] at hi
      cases hi
    obtain ⟨hget, -⟩ := get_opened_of_ne x s' path n fun _ => hne
    exact hne (h.distinct pid i fd n (hget.trans hi) hself)
  · have hnamed := h.named pid fd n hself k hfor
    rw [paths_opened_self] at hnamed
    exact hpath.symm.trans hnamed

end Opened

/-- An open keeps the tables in step exactly when the number that it gets fits. -/
theorem keeps_open_iff (h : x.Faithful) (pid : Nat) (path : Bytes) (flags : Byte) :
    x.Keeps env (.open pid path flags) ↔ x.Fresh env (.open pid path flags) := by
  rcases open_cases env x pid path flags with
    ⟨hno, s', hstep, hkept⟩ | ⟨n, t, s', hopens, halloc, hkept, hfound, ⟨hfull, hstep⟩ | ⟨fd, hfree, hnone, hstep⟩⟩
  · refine ⟨fun _ n hopens => absurd hopens (hno n), fun _ y r hy => ?_⟩
    rw [hstep] at hy
    cases hy
    exact h.of_kept hkept rfl fun _ _ _ hi => hi
  · obtain ⟨e, hget, hpath⟩ := hfound
    obtain ⟨k, hfor, rfl⟩ := Vfs.Fd.exists_isFor hget
    constructor
    · intro hkeeps m hm
      cases Option.some.inj (hopens.2.1.symm.trans hm.2.1)
      refine ⟨fun i hi => ⟨hfull, ?_⟩, fun hfree => absurd hfree hfull⟩
      rw [← hpath]
      exact ((hkeeps _ _ hstep).named pid i n hi k hfor).symm
    · intro hfresh y r hy
      rw [hstep] at hy
      cases hy
      refine ⟨h.distinct, fun q i m hi k' hfor' => ?_⟩
      rcases isFor_open halloc hkept hfor' with ⟨rfl, rfl, hnew⟩ | ⟨hold, hsame⟩
      · exact hnew.trans ((hfresh m hopens).1 i hi).2.symm
      · exact hsame.trans (h.named q i m hi k' hold)
  · obtain ⟨e, hget, hpath⟩ := hfound
    obtain ⟨k, hfor, rfl⟩ := Vfs.Fd.exists_isFor hget
    constructor
    · intro hkeeps m hm
      cases Option.some.inj (hopens.2.1.symm.trans hm.2.1)
      have hy : (x.opened s' pid path fd n).Faithful := hkeeps _ _ hstep
      obtain ⟨hheld, harrives⟩ := hy.of_opened hnone hfor hpath
      exact ⟨fun i hi => absurd hi (hheld i), fun _ => harrives⟩
    · intro hfresh y r hy
      rw [hstep] at hy
      cases hy
      obtain ⟨hfit, harrives⟩ := hfresh n hopens
      exact h.opened halloc hkept (fun i hi => (hfit i hi).1 hfree) (harrives hfree)

theorem keeps_iff (h : x.Faithful) (op : ClientOp) : x.Keeps env op ↔ x.Fresh env op := by
  cases op with
  | «open» pid path flags => exact keeps_open_iff h pid path flags
  | close pid fd => exact ⟨fun _ => trivial, fun _ => keeps_close h pid fd⟩
  | request pid req => exact ⟨fun _ => trivial, fun _ => keeps_request h pid req⟩

/-! ### `read` and `write` -/

/-- A call to the server that opens nothing is a step. -/
theorem run_call {s s' : Server} {t : Nat → FdTable} {paths : Nat → Fin openMax → Bytes} {pid : Nat}
    {req : Vfs.Request} {r : Reply} (hcall : vfsCall env s pid req = some (s', r))
    (hreq : ∀ oflags path, req ≠ .open oflags path) :
    ∃ es, Run (step env) (Fresh env) ⟨s, t, paths⟩ es ⟨s', t, paths⟩ := by
  obtain ⟨⟨s₁, rs⟩, hout, hhead⟩ := Option.bind_eq_some_iff.1 hcall
  obtain ⟨r', -, heq⟩ := Option.map_eq_some_iff.1 hhead
  cases heq
  have hstep : step env ⟨s, t, paths⟩ (.request pid req) = some (⟨s₁, t, paths⟩, none) := by
    cases req with
    | «open» oflags path => exact absurd rfl (hreq oflags path)
    | _ =>
      unfold step
      dsimp only
      rw [hout]
      rfl
  have hfresh : Fresh env ⟨s, t, paths⟩ (.request pid req) := trivial
  exact ⟨_, Run.single hfresh hstep⟩

/-- `read` makes requests that open nothing. -/
theorem run_readLoop {s s' : Server} {t : Nat → FdTable} {paths : Nat → Fin openMax → Bytes} {pid vfd fuel rem : Nat}
    {r : Option Bytes} (h : readLoop env pid vfd fuel s rem = some (s', r)) :
    ∃ es, Run (step env) (Fresh env) ⟨s, t, paths⟩ es ⟨s', t, paths⟩ := by
  induction fuel generalizing s rem r with
  | zero =>
    cases h
    exact ⟨[], .nil _⟩
  | succ fuel ih =>
    have hchunk : ∀ {n : Nat} {out : Server × Option Bytes}, vfsReadChunk env s pid vfd n = some out →
        ∃ es, Run (step env) (Fresh env) ⟨s, t, paths⟩ es ⟨out.1, t, paths⟩ := by
      intro n out hout
      obtain ⟨⟨s₁, reply⟩, hcall, rfl⟩ := Option.map_eq_some_iff.1 hout
      exact run_call hcall fun _ _ hreq => by cases hreq
    unfold readLoop at h
    split at h
    · cases h
      exact ⟨[], .nil _⟩
    · split at h
      · cases h
      · rename_i hout
        cases h
        exact hchunk hout
      · rename_i hout
        cases h
        exact hchunk hout
      · rename_i hout
        obtain ⟨⟨s₂, rest⟩, hrest, heq⟩ := Option.map_eq_some_iff.1 h
        cases heq
        obtain ⟨es, hrun⟩ := hchunk hout
        obtain ⟨fs, hrun'⟩ := ih hrest
        exact ⟨_, hrun.append hrun'⟩

/-- So does `write`. -/
theorem run_writeLoop {s s' : Server} {t : Nat → FdTable} {paths : Nat → Fin openMax → Bytes} {pid vfd fuel : Nat}
    {data : Bytes} {r : Option Nat} (h : writeLoop env pid vfd fuel s data = some (s', r)) :
    ∃ es, Run (step env) (Fresh env) ⟨s, t, paths⟩ es ⟨s', t, paths⟩ := by
  induction fuel generalizing s data r with
  | zero =>
    cases h
    exact ⟨[], .nil _⟩
  | succ fuel ih =>
    have hchunk : ∀ {bytes : Bytes} {out : Server × Option Nat}, vfsWriteChunk env s pid vfd bytes = some out →
        ∃ es, Run (step env) (Fresh env) ⟨s, t, paths⟩ es ⟨out.1, t, paths⟩ := by
      intro bytes out hout
      unfold vfsWriteChunk at hout
      obtain ⟨⟨s₁, reply⟩, hcall, rfl⟩ := Option.map_eq_some_iff.1 hout
      exact run_call hcall fun _ _ hreq => by cases hreq
    unfold writeLoop at h
    split at h
    · cases h
      exact ⟨[], .nil _⟩
    · split at h
      · cases h
      · rename_i hout
        cases h
        exact hchunk hout
      · rename_i hout
        obtain ⟨⟨s₂, rest⟩, hrest, heq⟩ := Option.map_eq_some_iff.1 h
        cases heq
        obtain ⟨es, hrun⟩ := hchunk hout
        obtain ⟨fs, hrun'⟩ := ih hrest
        exact ⟨_, hrun.append hrun'⟩

/-! ### Every run -/

theorem faithful_boot : boot.Faithful := by
  constructor
  · intro pid i j n hi
    cases hi
  · intro pid i n hi
    cases hi

/-- The tables are in step in every state of a run exactly when every open of the run gets a number that fits. -/
theorem descriptors_faithful (env : Env) {es : List (ClientOp × Option Nat)} {y : Clients} :
    Run (step env) (Keeps env) boot es y ↔ Run (step env) (Fresh env) boot es y := by
  constructor
  · intro hrun
    have hboth : y.Faithful ∧ Run (step env) (Fresh env) boot es y := by
      induction hrun with
      | nil => exact ⟨faithful_boot, .nil _⟩
      | snoc _ hkeeps hstep ih => exact ⟨hkeeps _ _ hstep, ih.2.snoc ((keeps_iff ih.1 _).1 hkeeps) hstep⟩
    exact hboth.2
  · intro hrun
    have hboth : y.Faithful ∧ Run (step env) (Keeps env) boot es y := by
      induction hrun with
      | nil => exact ⟨faithful_boot, .nil _⟩
      | snoc _ hfresh hstep ih =>
        have hkeeps := (keeps_iff ih.1 _).2 hfresh
        exact ⟨hkeeps _ _ hstep, ih.2.snoc hkeeps hstep⟩
    exact hboth.2

/-- Process 9 opens `/f`, process 10 removes it, and process 9 opens `/g`: its two descriptors have the number 0. -/
theorem descriptor_renamed : ∃ es y, Run (step Server.bareEnv) (fun _ _ => True) boot es y ∧ ¬ y.Faithful := by
  have hexec : (exec (step Server.bareEnv) (fun _ _ => True) boot
      [.open 9 (Vfs.ascii "/f") 5, .request 10 (.unlink (Vfs.ascii "/f")), .open 9 (Vfs.ascii "/g") 5]).any (fun out =>
      decide ((out.1.tables 9).get ⟨3, by decide⟩ = some 0 ∧ (out.1.tables 9).get ⟨4, by decide⟩ = some 0)) = true := by decide
  obtain ⟨⟨y, es⟩, hrun, hout⟩ := (Option.any_eq_true _ _).1 hexec
  obtain ⟨hthree, hfour⟩ := of_decide_eq_true hout
  refine ⟨es, y, run_of_exec hrun, fun hfaithful => ?_⟩
  exact absurd (hfaithful.distinct 9 _ _ 0 hthree hfour) (by decide)

end Clients

end Rost.Libc
