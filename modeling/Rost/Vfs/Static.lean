import Rost.Vfs.Path

/-!
# The static tree

The read-only directory tree that is compiled into the server.  The two demo programs under `/bin` are files of the
build, so their contents are parameters.
-/

namespace Rost.Vfs

/-- A node of the static tree. -/
inductive Node where
  | file (data : Bytes) (flags : Nat)
  | dir (children : List (Bytes × Node))

namespace Node

def isDir : Node → Bool
  | file _ _ => false
  | dir _ => true

def size : Node → Nat
  | file data _ => data.length
  | dir children => children.length

/-- Bit 0 for a directory, bit 1 for an executable. -/
def flags : Node → Nat
  | file _ flags => flags
  | dir _ => 1

end Node

namespace Static

/-! ### Contents -/

def fVersion : Node := .file (ascii "rost-kernel   0.1.0\nrost-shell    0.1.0\nrost-vfs      0.1.0\n") 0

def fMotdRoot : Node := .file (ascii <|
  "Welcome to Rost OS!\nType 'help' for available commands.\n" ++
  "Use 'ls [path]' to list files, 'cat <path>' to read them.\n") 0

def fMotdEtc : Node := .file
  (ascii "Rost Microkernel " ++ [0xE2, 0x80, 0x94] ++ ascii (" UEFI x86_64\n" ++
    "Kernel ring-0; all servers run ring-3 (hardware via IPC only).\n")) 0

def fPasswd : Node := .file (ascii "root:x:0:0:root:/root:/bin/sh\nuser:x:1000:1000::/home/user:/bin/sh\n") 0

def fHosts : Node := .file (ascii "127.0.0.1   localhost\n::1         localhost\n") 0

def fProfile : Node := .file (ascii "# Root login profile\nPATH=/bin\nexport PATH\n") 0

def fReadme : Node := .file (ascii <|
  "Rost Microkernel v0.1.0\n=======================\n\nArchitecture:\n" ++
  "  crates/kernel       ring-0 kernel  (UEFI, x86_64-unknown-uefi)\n" ++
  "  crates/arch-x86_64  GDT/IDT/syscall/paging\n" ++
  "  crates/core-kernel  scheduler, IPC, process table\n" ++
  "  crates/hal          UART COM1 driver\n" ++
  "  servers/shell       ring-3 interactive shell  (rost-shell)\n" ++
  "  servers/vfs         ring-3 VFS/RAM-disk server (rost-vfs)\n\n" ++
  "Syscall table:\n" ++
  "  0 SYS_YIELD      cooperative yield\n" ++
  "  1 SYS_EXIT       terminate process\n" ++
  "  2 SYS_GETPID     return own PID\n" ++
  "  3 SYS_SEND       send 2-word message (uart-drv I/O)\n" ++
  "  4 SYS_RECV       receive word0\n" ++
  "  5 SYS_NOTIFY     lightweight notification bitmask\n" ++
  "  6 SYS_RECV_MSG   receive full 72-byte Message\n" ++
  "  7 SYS_SEND_MSG   send full 72-byte Message\n\n" ++
  "Next steps: ELF loader, block driver, uart-drv server.\n") 0

def fNotes : Node := .file (ascii <|
  "Remaining work\n==============\n" ++
  "[x] ELF loader (SYS_SPAWN_ELF = 26 - loads ELF from user buffer)\n" ++
  "[x] uart-drv server (PID 3, ring-3, owns COM1 port I/O via SYS_IOPORT)\n" ++
  "[x] VFS RAM-disk server (PID 4, IPC: READDIR / READ / STAT / MOUNT)\n" ++
  "[x] service registry (SYS_REGISTER = 10, SYS_LOOKUP = 11)\n" ++
  "[x] SYS_SPAWN_ELF (26): spawn ring-3 ELF from user buffer\n" ++
  "[x] SYS_RESTART_SERVER (27): re-spawn named server via init (PID 1)\n" ++
  "[x] SYS_LIST_PROCS (28): snapshot process table for ps command\n" ++
  "[x] init server (PID 1): heartbeat watchdog + fault/restart handling\n" ++
  "[x] hello-world demo ELF at /bin/hello (exec /bin/hello to test)\n" ++
  "[x] hello-c demo ELF at /bin/hello-c (freestanding C, no libc)\n" ++
  "[ ] block-drv server (virtio-blk or IDE port-I/O)\n" ++
  "[ ] FAT32 parser on top of block-drv\n" ++
  "[ ] True preemptive ISR scheduling (currently deferred at hlt boundaries)\n" ++
  "[ ] SYS_MAP: map physical frames into an arbitrary process address space\n") 0

/-! ### Directories -/

/-- The programs that the build compiles into the tree. -/
structure Programs where
  hello : Bytes
  helloC : Bytes

def dBin (progs : Programs) : Node := .dir [(ascii "hello", .file progs.hello 2), (ascii "hello-c", .file progs.helloC 2)]

def dEtc : Node := .dir [(ascii "hosts", fHosts), (ascii "motd", fMotdEtc), (ascii "passwd", fPasswd)]

def dHomeUser : Node := .dir [(ascii "notes.txt", fNotes), (ascii "readme.txt", fReadme)]

def dHome : Node := .dir [(ascii "user", dHomeUser)]

def dRootHome : Node := .dir [(ascii ".profile", fProfile)]

def dVarLog : Node := .dir []

def dVar : Node := .dir [(ascii "log", dVarLog)]

def root (progs : Programs) : Node := .dir
  [(ascii "bin", dBin progs), (ascii "etc", dEtc), (ascii "home", dHome), (ascii "root", dRootHome), (ascii "var", dVar),
   (ascii "motd.txt", fMotdRoot), (ascii "version.txt", fVersion)]

/-! ### Lookup -/

/-- The walk down the tree; every step takes a byte of the path at least. -/
def walkFrom : Nat → Node → Bytes → Option Node
  | 0, _, _ => none
  | fuel + 1, node, remaining =>
    if remaining = [] then some node
    else
      match node with
      | .file _ _ => none
      | .dir children =>
        -- an empty component is taken for a trailing slash
        if (splitFirst remaining).1 = [] then some (.dir children)
        else
          match children.find? fun entry => decide (trimNull entry.1 = (splitFirst remaining).1) with
          | some entry => walkFrom fuel entry.2 (splitFirst remaining).2
          | none => none

def walk (node : Node) (remaining : Bytes) : Option Node := walkFrom (remaining.length + 1) node remaining

/-- An absolute path, or one relative to the root. -/
def lookup (progs : Programs) (path : Bytes) : Option Node :=
  let p := trimNull path
  walk (root progs) (if p.head? = some slash then p.tail else p)

theorem lookup_trimNull (progs : Programs) (path : Bytes) : lookup progs (trimNull path) = lookup progs path := by
  unfold lookup
  rw [trimNull_trimNull]

@[simp] theorem lookup_nil (progs : Programs) : lookup progs [] = some (root progs) := rfl

/-! ### The walk -/

/-- More steps than the path has bytes make no difference. -/
theorem walkFrom_eq {n m : Nat} {node : Node} {p : Bytes} (hn : p.length < n) (hm : p.length < m) :
    walkFrom n node p = walkFrom m node p := by
  induction n generalizing m node p with
  | zero => omega
  | succ n ih =>
    cases m with
    | zero => omega
    | succ m =>
      unfold walkFrom
      by_cases hp : p = []
      · rw [if_pos hp, if_pos hp]
      · rw [if_neg hp, if_neg hp]
        cases node with
        | file data flags => rfl
        | dir children =>
          simp only
          by_cases hc : (splitFirst p).1 = []
          · rw [if_pos hc, if_pos hc]
          · rw [if_neg hc, if_neg hc]
            have hlt := length_splitFirst_lt hc
            cases children.find? fun entry => decide (trimNull entry.1 = (splitFirst p).1) with
            | none => rfl
            | some entry => exact ih (by omega) (by omega)

/-- One step of the walk. -/
theorem walk_dir {children : List (Bytes × Node)} {p : Bytes} (hp : p ≠ []) (hc : (splitFirst p).1 ≠ []) :
    walk (.dir children) p =
      (children.find? fun entry => decide (trimNull entry.1 = (splitFirst p).1)).bind fun entry =>
        walk entry.2 (splitFirst p).2 := by
  have hlt := length_splitFirst_lt hc
  unfold walk
  rw [walkFrom, if_neg hp, if_neg hc]
  cases children.find? fun entry => decide (trimNull entry.1 = (splitFirst p).1) with
  | none => rfl
  | some entry => exact walkFrom_eq (by omega) (by omega)

@[simp] theorem walk_nil (node : Node) : walk node [] = some node := rfl

theorem walk_file {data : Bytes} {flags : Nat} {p : Bytes} (hp : p ≠ []) : walk (.file data flags) p = none := by
  unfold walk walkFrom
  rw [if_neg hp]

/-- The walk to a path and then to a name there. -/
theorem walk_joinPath {node : Node} {p name : Bytes} (hp : p ≠ []) (hname : name ≠ []) (hempty : ¬ HasEmpty (slash :: p)) :
    walk node (joinPath p name) = (walk node p).bind fun d => walk d name := by
  generalize hlen : p.length = len
  induction len using Nat.strong_induction_on generalizing node p with
  | _ len ih =>
    have hjoin : joinPath p name ≠ [] := joinPath_ne_nil hname
    have hsplit := splitFirst_joinPath name (p := p)
    cases node with
    | file data flags =>
      rw [walk_file hjoin, walk_file hp]
      rfl
    | dir children =>
      have hfirst := splitFirst_ne_nil hp hempty
      have hlt := length_splitFirst_lt hfirst
      rw [walk_dir hjoin (by rw [hsplit]; exact hfirst), walk_dir hp hfirst, Option.bind_assoc, hsplit]
      congr 1
      funext entry
      by_cases hrest : (splitFirst p).2 = []
      · simp [hrest]
      · simp only [if_neg hrest]
        have hrestEmpty : ¬ HasEmpty (slash :: (splitFirst p).2) :=
          fun h => hempty ((hasEmpty_of_splitFirst hrest h).trans (List.suffix_cons _ _).isInfix)
        exact ih _ (by omega) hrest hrestEmpty rfl

/-- The walk to a name in a directory. -/
theorem walk_name {children : List (Bytes × Node)} {name : Bytes} (h : Plain name) :
    walk (.dir children) name = (children.find? fun entry => decide (trimNull entry.1 = name)).map Prod.snd := by
  have hsplit := splitFirst_of_not_mem h.no_slash
  rw [walk_dir h.ne_nil (by rw [hsplit]; exact h.ne_nil), hsplit]
  cases children.find? fun entry => decide (trimNull entry.1 = name) <;> rfl

/-- What stands at a name in a directory of the tree. -/
theorem lookup_joinPath (progs : Programs) {p name : Bytes} (hp : p ≠ []) (hnull : (0 : Byte) ∉ p) (hname : Plain name)
    (hempty : ¬ HasEmpty p) :
    lookup progs (joinPath p name) = (lookup progs p).bind fun d => walk d name := by
  have hjoin : (0 : Byte) ∉ joinPath p name := not_mem_joinPath (by decide) hnull hname.no_null
  unfold lookup
  simp only
  rw [trimNull_of_not_mem hjoin, trimNull_of_not_mem hnull]
  by_cases hhead : p.head? = some slash
  · obtain ⟨q, rfl⟩ : ∃ q, p = slash :: q := List.head?_eq_some_iff.1 hhead
    by_cases hq : q = []
    · rw [hq, joinPath_slash]
      simp
    · rw [joinPath_cons hq]
      simp only [List.head?_cons, if_true, List.tail_cons]
      exact walk_joinPath hq hname.ne_nil hempty
  · rw [if_neg hhead, if_neg (by rw [head?_joinPath hp]; exact hhead)]
    exact walk_joinPath hp hname.ne_nil fun h => hempty (hasEmpty_cons hhead h)

end Static

end Rost.Vfs
