import Rost.Vfs.Path

/-!
# Variables, aliases and history of the shell

Variables and aliases are kept in arrays of the same form: a name counts up to 32 bytes and a value up to 128.  The
history is a ring of the last 32 lines, read by age.
-/

namespace Rost.Shell

open Vfs (Bytes ascii)

def lineMax : Nat := 256
def maxVars : Nat := 48
def maxAliases : Nat := 16
def nameMax : Nat := 32
def valMax : Nat := 128
def historyCap : Nat := 32

/-! ### Stores -/

/-- `VarStore` and `AliasStore`: names with their values, in the order of the array. -/
structure Store (cap : Nat) where
  entries : List (Bytes × Bytes)
  length_le : entries.length ≤ cap
deriving DecidableEq

namespace Store

variable {cap : Nat}

def new (cap : Nat) : Store cap := ⟨[], Nat.zero_le cap⟩

def hasName (name : Bytes) (e : Bytes × Bytes) : Bool := e.1 == name.take nameMax

/-- Bind a name: its first entry is changed, else there must be room for a new one. -/
def set (s : Store cap) (name val : Bytes) : Store cap × Bool :=
  if s.entries.any (hasName name) then
    (⟨s.entries.modify (s.entries.findIdx (hasName name)) fun e => (e.1, val.take valMax), by
      rw [List.length_modify]; exact s.length_le⟩, true)
  else if h : s.entries.length < cap then
    (⟨s.entries ++ [(name.take nameMax, val.take valMax)], by
      rw [List.length_append]; exact h⟩, true)
  else (s, false)

def get (s : Store cap) (name : Bytes) : Option Bytes := (s.entries.find? (hasName name)).map Prod.snd

/-- `unset` and `remove`: the last entry moves into the place of the one that goes. -/
def remove (s : Store cap) (name : Bytes) : Store cap :=
  match s.entries.findIdx? (hasName name), s.entries.getLast? with
  | some i, some last =>
    ⟨(s.entries.set i last).dropLast, by
      have := s.length_le
      rw [List.length_dropLast, List.length_set]
      omega⟩
  | _, _ => s

end Store

abbrev VarStore := Store maxVars
abbrev AliasStore := Store maxAliases

def VarStore.initDefaults : VarStore :=
  [("HOME", "/home/user"), ("USER", "rost"), ("SHELL", "/bin/rost-shell"), ("HOSTNAME", "local"),
    ("TERM", "xterm-256color"), ("PATH", "/bin:/usr/bin"), ("PWD", "/"), ("OLDPWD", "/"), ("IFS", " \t\n"),
    ("LANG", "en_US.UTF-8")].foldl (fun s e => (s.set (ascii e.1) (ascii e.2)).1) (Store.new maxVars)

def AliasStore.initDefaults : AliasStore :=
  [("ll", "ls"), ("la", "ls"), ("h", "history"), ("quit", "exit"), (".", "source")].foldl
    (fun s e => (s.set (ascii e.1) (ascii e.2)).1) (Store.new maxAliases)

/-! ### History -/

structure History where
  entries : Vector Bytes historyCap
  count : Nat
  next : Nat
  next_lt : next < historyCap

namespace History

def new : History := ⟨Vector.replicate historyCap [], 0, 0, by decide⟩

/-- The line entered `age` lines before the last one. -/
def get (h : History) (age : Nat) : Option Bytes :=
  if h.count ≤ age then none
  else some (h.entries.get ⟨(h.next + historyCap - 1 - age) % historyCap, Nat.mod_lt _ (by decide)⟩)

/-- Empty lines and a repetition of the last line are ignored. -/
def push (h : History) (line : Bytes) : History :=
  if line = [] then h
  else if 0 < h.count ∧ h.get 0 = some line then h
  else
    { entries := h.entries.set h.next (line.take lineMax) h.next_lt
      count := if h.count < historyCap then h.count + 1 else h.count
      next := (h.next + 1) % historyCap
      next_lt := Nat.mod_lt _ (by decide) }

end History

end Rost.Shell
