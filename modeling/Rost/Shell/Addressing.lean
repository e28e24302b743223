import Rost.Lib.Words
import Rost.Libc.VfsClient
import Rost.Shell.Normal
import Rost.Shell.Requests

/-!
# The path that a request names

A command resolves its argument in a buffer of 64 bytes and packs what it gets into the 48 bytes of a request; the C library
packs a path into the same 48 bytes and keeps one for a NUL.  Nobody looks at what has been cut off.  So a request names the
whole path exactly if that fits, with no NUL in it (`addresses_iff`).
-/

namespace Rost.Libc

open Vfs (Bytes)

/-- The request of `vfs_open`. -/
def openMessage (path : Bytes) (oflags : Byte) : Message := Shell.request 0x30 (oflags.setWidth 64) (packPath path)

/-- The request of `vfs_stat`. -/
def statMessage (path : Bytes) : Message := Shell.request 0x23 0 (packPath path)

end Rost.Libc

namespace Rost.Shell

open Vfs (Bytes ascii slash trimNull unpackPath unpackByte packedWord)
open Libc (packPath openMessage statMessage)

/-! ### What the commands send -/

/-- A command that needs an argument and resolves it. -/
def onPath (make : Bytes → Command) (args : List Bytes) (cwd : Bytes) : Option Command :=
  if arg args 1 = [] then none else some (make (resolve cwd (arg args 1)))

def cmdCatSends : List Bytes → Bytes → Option Command := onPath (.read .cat)
def cmdExecSends : List Bytes → Bytes → Option Command := onPath (.read .exec)
def cmdSourceSends : List Bytes → Bytes → Option Command := onPath (.read .source)
def cmdRmSends : List Bytes → Bytes → Option Command := onPath .rm
def cmdMkdirSends : List Bytes → Bytes → Option Command := onPath .mkdir
def cmdTouchSends : List Bytes → Bytes → Option Command := onPath fun path => .writeFile 0 path []

/-- `cmd_ls`, which lists the working directory if there is no argument. -/
def cmdLsSends (args : List Bytes) (cwd : Bytes) : Option Command :=
  some (.readdir (if arg args 1 = [] then cwd else resolve cwd (arg args 1)))

/-- The words behind the path with a blank between them and a newline, as far as 4096 bytes hold them. -/
def writeText (args : List Bytes) : Bytes := (List.intercalate [0x20] (args.drop 2) ++ [0x0A]).take 4096

def cmdWriteSends (args : List Bytes) (cwd : Bytes) : Option Command :=
  if args.length < 2 then none else some (.writeFile 0 (resolve cwd (arg args 1)) (writeText args))

/-- `eval_test`: only `-f` and `-d` ask the server. -/
def evalTestSends (args : List Bytes) (cwd : Bytes) : Option Command :=
  if args.length = 3 ∧ (arg args 1 = ascii "-f" ∨ arg args 1 = ascii "-d") then some (.stat (resolve cwd (arg args 2)))
  else none

inductive PathTool where
  | ls | cat | rm | mkdir | touch | write | exec | source | test | bracket
deriving DecidableEq

def PathTool.sends : PathTool → List Bytes → Bytes → Option Command
  | .ls => cmdLsSends
  | .cat => cmdCatSends
  | .rm => cmdRmSends
  | .mkdir => cmdMkdirSends
  | .touch => cmdTouchSends
  | .write => cmdWriteSends
  | .exec => cmdExecSends
  | .source => cmdSourceSends
  | .test => evalTestSends
  | .bracket => fun args => evalTestSends (withoutBracket args)

/-- What is sent after the first request, when these messages of the server arrive. -/
def sentAfter : Wait → List Message → List Message
  | _, [] => []
  | w, msg :: msgs =>
    match w.reply msg with
    | .finish => []
    | .again => sentAfter w msgs
    | .send req w => req :: sentAfter w msgs

def Command.requests (c : Command) (msgs : List Message) : List Message := c.start.1 :: sentAfter c.start.2 msgs

/-! ### What the server is asked about -/

/-- The path of a request, if it has one. -/
def addressed : Vfs.Request → Option Bytes
  | .readdir path | .read _ path | .stat path | .writeOpen _ path | .mkdir path | .unlink path | .open _ path =>
    some (trimNull path)
  | .mount | .writeData .. | .writeClose | .close _ | .readFd _ | .writeFd .. | .seek .. | .fstat _ | .unknown => none

/-- The path that `resolve` is after, with as much room as it takes. -/
def wholePath (cwd input : Bytes) : Bytes :=
  let cwd := uptoZero cwd
  if input.head? = some slash then
    if 1 < input.length ∧ input.getLast? = some slash then input.dropLast else input
  else if input = ascii ".." then cwd.take (parentOf cwd)
  else if input = ascii "." then cwd
  else (if cwd ≠ [] ∧ cwd.getLast? ≠ some slash then cwd ++ [slash] else cwd) ++ input

/-- The path that a command is about. -/
def PathTool.target (tool : PathTool) (args : List Bytes) (cwd : Bytes) : Bytes :=
  match tool with
  | .ls => if arg args 1 = [] then uptoZero cwd else wholePath cwd (arg args 1)
  | .test => wholePath cwd (arg args 2)
  | .bracket => wholePath cwd (arg (withoutBracket args) 2)
  | _ => wholePath cwd (arg args 1)

/-- Whatever the server answers, each request with a path is about this one. -/
def Command.Addresses (c : Command) (path : Bytes) : Prop :=
  ∀ msgs, ∀ req ∈ c.requests msgs, ∀ p, addressed (.decode req.data) = some p → p = path

/-- What the command sends is about the path that was meant. -/
def PathTool.Addresses (tool : PathTool) (args : List Bytes) (cwd : Bytes) : Prop :=
  ∀ c, tool.sends args cwd = some c → c.Addresses (tool.target args cwd)

/-- A path of at most `n` bytes, none of which is a NUL. -/
def Fits (n : Nat) (path : Bytes) : Prop := 0 ∉ path ∧ path.length ≤ n

/-! ### Packing and unpacking -/

private theorem unpackByte_request (opcode arg : Word) (bytes : Bytes) {i : Nat} (hi : i < 48) :
    unpackByte (request opcode arg bytes).data 2 i = bytes.getD i 0 := by
  have hword : ∀ k (h : 2 + k < dataFields), (request opcode arg bytes).data[2 + k] = Lib.packWord bytes k := by
    intro k h
    match k with
    | 0 | 1 | 2 | 3 | 4 | 5 => rfl
    | k + 6 => exact absurd h (by unfold dataFields; omega)
  have hbyte : Lib.byteOf (Lib.packWord bytes (i / 8)) (i % 8) = bytes.getD (8 * (i / 8) + i % 8) 0 :=
    Lib.byteOf_packWord bytes (i / 8) (Nat.mod_lt _ (by decide))
  rw [Nat.div_add_mod] at hbyte
  rw [unpackByte, dif_pos (show 2 + i / 8 < dataFields by unfold dataFields; omega), hword]
  exact hbyte

/-- The server unpacks the bytes that were packed, and zeros behind them. -/
theorem unpackPath_request (opcode arg : Word) {bytes : Bytes} (hlen : bytes.length ≤ 48) :
    unpackPath (request opcode arg bytes).data = bytes ++ List.replicate (48 - bytes.length) 0 := by
  refine List.ext_getElem? fun i => ?_
  unfold unpackPath Vfs.pathBytes
  by_cases hi : i < 48
  · rw [List.getElem?_map, List.getElem?_range hi, Option.map_some, unpackByte_request opcode arg bytes hi]
    by_cases hin : i < bytes.length
    · rw [List.getElem?_append_left hin, List.getD_eq_getElem?_getD, List.getElem?_eq_getElem hin, Option.getD_some]
    · rw [List.getElem?_append_right (by omega), List.getElem?_replicate_of_lt (by omega), List.getD_eq_getElem?_getD,
        List.getElem?_eq_none (by omega), Option.getD_none]
  · rw [List.getElem?_eq_none (by simpa using hi),
      List.getElem?_eq_none (by rw [List.length_append, List.length_replicate]; omega)]

private theorem trimNull_padded (bytes : Bytes) (n : Nat) : trimNull (bytes ++ List.replicate n 0) = trimNull bytes := by
  induction bytes with
  | nil => cases n <;> rfl
  | cons b bytes ih =>
    unfold trimNull at ih ⊢
    rw [List.cons_append, List.takeWhile_cons, List.takeWhile_cons, ih]

/-- A request about a path names what `path_as_words` leaves of it. -/
private theorem trimNull_pathRequest (opcode arg : Word) (path : Bytes) :
    trimNull (unpackPath (pathRequest opcode arg path).data) = pathAsWords path := by
  have hzero : (0 : Byte) ∉ (trimNull path).take 48 := fun h => Vfs.not_mem_trimNull path (List.mem_of_mem_take h)
  rw [pathRequest, unpackPath_request _ _ (by simp), trimNull_padded, Vfs.trimNull_of_not_mem hzero]
  rfl

/-- A path is packed whole by the library exactly if a NUL fits behind it. -/
private theorem trimNull_packPath (path : Bytes) : trimNull (packPath path) = path ↔ Fits 47 path := by
  have hpack : packPath path = path.take 47 ++ List.replicate (48 - min path.length 47) 0 := by
    by_cases hlen : path.length < 47
    · rw [packPath, List.take_of_length_le (by rw [List.length_append, List.length_singleton]; omega),
        List.take_of_length_le (by omega), List.append_assoc, ← List.replicate_one, List.replicate_append_replicate]
      congr 2
      omega
    · rw [packPath, List.take_append_of_le_length (by omega)]
      congr 2
      omega
  rw [hpack, trimNull_padded]
  constructor
  · intro heq
    have hlen := congrArg List.length heq
    have hle := Vfs.length_trimNull_le (path.take 47)
    rw [List.length_take] at hle
    refine ⟨?_, by omega⟩
    rw [← heq]
    exact Vfs.not_mem_trimNull _
  · rintro ⟨hzero, hlen⟩
    rw [List.take_of_length_le hlen, Vfs.trimNull_of_not_mem hzero]

/-! ### Resolving -/

/-- The limit of `resolve` does nothing to a path that fits into the words. -/
private theorem resolve_eq_wholePath {cwd input : Bytes} (hlen : (wholePath cwd input).length ≤ 48) :
    resolve cwd input = wholePath cwd input := by
  rw [wholePath] at hlen
  rw [resolve, wholePath]
  simp only at hlen ⊢
  by_cases habs : input.head? = some slash
  · -- an absolute path is at most one slash longer than what is left of it
    rw [if_pos habs] at hlen
    have htake : input.take pathCap = input := by
      apply List.take_of_length_le
      unfold pathCap
      split at hlen
      · rw [List.length_dropLast] at hlen
        omega
      · omega
    rw [if_pos habs, if_pos habs, htake]
  rw [if_neg habs] at hlen
  rw [if_neg habs, if_neg habs]
  by_cases hup : input = ascii ".."
  · rw [if_pos hup, if_pos hup]
  rw [if_neg hup] at hlen
  rw [if_neg hup, if_neg hup]
  by_cases hhere : input = ascii "."
  · rw [if_pos hhere, if_pos hhere]
  rw [if_neg hhere] at hlen
  rw [if_neg hhere, if_neg hhere]
  rw [List.length_append] at hlen
  by_cases hslash : uptoZero cwd ≠ [] ∧ (uptoZero cwd).getLast? ≠ some slash
  · rw [if_pos hslash, List.length_append, List.length_singleton] at hlen
    have htake : (uptoZero cwd).take pathCap = uptoZero cwd := List.take_of_length_le (by unfold pathCap; omega)
    rw [htake, if_pos ⟨hslash.1, hslash.2, by unfold pathCap; omega⟩, if_pos hslash,
      List.take_of_length_le (by rw [List.length_append, List.length_singleton]; unfold pathCap; omega)]
  · rw [if_neg hslash] at hlen
    have htake : (uptoZero cwd).take pathCap = uptoZero cwd := List.take_of_length_le (by unfold pathCap; omega)
    rw [htake, if_neg fun h => hslash ⟨h.1, h.2.1⟩, if_neg hslash,
      List.take_of_length_le (by unfold pathCap; omega)]

/-- A request about a resolved path names the whole path exactly if this fits into its words. -/
theorem pathAsWords_resolve_iff {cwd input : Bytes} :
    pathAsWords (resolve cwd input) = wholePath cwd input ↔ Fits 48 (wholePath cwd input) := by
  constructor
  · intro heq
    rw [← heq]
    refine ⟨fun h => Vfs.not_mem_trimNull (resolve cwd input) (List.mem_of_mem_take h), ?_⟩
    rw [pathAsWords, List.length_take]
    exact Nat.min_le_left _ _
  · intro hfits
    rw [resolve_eq_wholePath hfits.2]
    exact pathAsWords_eq_self_iff.2 hfits

/-! ### What is sent during a command -/

/-- The path a command is given, if it has one. -/
def Command.path? : Command → Option Bytes
  | .readdir path | .read _ path | .stat path | .mkdir path | .rm path | .writeFile _ path _ => some path
  | .mount => none

/-- The path that is asked for again during a wait. -/
private def Wait.path? : Wait → Option Bytes
  | .reading r => some r.path
  | .listing _ | .writing _ | .once => none

private theorem addressed_request (r : Reading) : addressed (.decode r.request.data) = some (pathAsWords r.path) :=
  congrArg some (trimNull_pathRequest 0x22 r.offset r.path)

/-- One reply: a request with a path is the next one of a reading. -/
private theorem addressed_of_reply {w w' : Wait} {msg req : Message} (h : w.reply msg = .send req w') :
    (∀ p, addressed (.decode req.data) = some p → ∃ path ∈ w.path?, p = pathAsWords path) ∧ ∀ p ∈ w'.path?, p ∈ w.path? := by
  cases w with
  | listing entry =>
    simp only [Wait.reply] at h
    split at h <;> cases h
  | once => cases h
  | reading r =>
    have hreply : Wait.reply (.reading r) msg = r.reply msg := rfl
    rw [hreply] at h
    rcases r.reply_cases msg with hfinish | ⟨r', hsend, hpath⟩
    · rw [hfinish] at h
      cases h
    · rw [hsend] at h
      cases h
      refine ⟨fun p hp => ⟨r.path, rfl, ?_⟩, fun p hp => ?_⟩
      · rw [addressed_request, hpath] at hp
        exact (Option.some.inj hp).symm
      · have hsame : (Wait.reading r').path? = (Wait.reading r).path? := congrArg some hpath
        rwa [hsame] at hp
  | writing rest =>
    unfold Wait.reply at h
    simp only at h
    split at h
    · cases h
    · split at h
      · cases h
        exact ⟨fun p hp => (by cases hp), fun p hp => (by cases hp)⟩
      · cases h
        exact ⟨fun p hp => (by cases hp), fun p hp => (by cases hp)⟩

/-- Every request with a path that follows is about the path of the wait. -/
private theorem addressed_of_mem {w : Wait} {msgs : List Message} {req : Message} {p : Bytes}
    (hreq : req ∈ sentAfter w msgs) (hp : addressed (.decode req.data) = some p) :
    ∃ path ∈ w.path?, p = pathAsWords path := by
  induction msgs generalizing w with
  | nil => cases hreq
  | cons msg msgs ih =>
    unfold sentAfter at hreq
    rcases hreply : w.reply msg with _ | _ | ⟨req', w'⟩
    · rw [hreply] at hreq
      cases hreq
    · rw [hreply] at hreq
      exact ih hreq
    · rw [hreply] at hreq
      obtain ⟨hfirst, hlater⟩ := addressed_of_reply hreply
      rcases List.mem_cons.1 hreq with rfl | hreq
      · exact hfirst p hp
      · obtain ⟨path, hpath, heq⟩ := ih hreq
        exact ⟨path, hlater path hpath, heq⟩

/-- A command about a path names it whole in all its requests exactly if `path_as_words` keeps all of it. -/
theorem Command.asks_iff {c : Command} {path target : Bytes} (hpath : c.path? = some path) :
    c.Addresses target ↔ pathAsWords path = target := by
  have hstart : addressed (.decode c.start.1.data) = some (pathAsWords path) ∧ ∀ p ∈ c.start.2.path?, p = path := by
    cases c with
    | mount => cases hpath
    | readdir | stat | mkdir | rm =>
      cases hpath
      exact ⟨congrArg some (trimNull_pathRequest ..), fun p hp => (by cases hp)⟩
    | writeFile =>
      cases hpath
      exact ⟨congrArg some (trimNull_pathRequest ..), fun p hp => (by cases hp)⟩
    | read reader path =>
      cases hpath
      exact ⟨addressed_request _, fun p hp => (Option.some.inj hp).symm⟩
  constructor
  · exact fun h => h [] _ (List.mem_cons_self ..) _ hstart.1
  · rintro rfl msgs req hreq p hp
    rcases List.mem_cons.1 hreq with rfl | hreq
    · exact Option.some.inj (hp.symm.trans hstart.1)
    · obtain ⟨path', hmem, rfl⟩ := addressed_of_mem hreq hp
      rw [hstart.2 path' hmem]

/-! ### The commands -/

private theorem onPath_path {make : Bytes → Command} (hmake : ∀ path, (make path).path? = some path) {args : List Bytes}
    {cwd : Bytes} {c : Command} (h : onPath make args cwd = some c) : c.path? = some (resolve cwd (arg args 1)) := by
  unfold onPath at h
  split at h
  · cases h
  · cases h
    exact hmake _

private theorem evalTestSends_path {args : List Bytes} {cwd : Bytes} {c : Command} (h : evalTestSends args cwd = some c) :
    c.path? = some (resolve cwd (arg args 2)) := by
  unfold evalTestSends at h
  split at h
  · cases h
    rfl
  · cases h

/-- What a command sends is about a path of which as much is kept as of the whole one. -/
private theorem sends_path {tool : PathTool} {args : List Bytes} {cwd : Bytes} {c : Command}
    (h : tool.sends args cwd = some c) :
    ∃ path, c.path? = some path ∧ (pathAsWords path = tool.target args cwd ↔ Fits 48 (tool.target args cwd)) := by
  cases tool with
  | ls =>
    obtain rfl : .readdir (if arg args 1 = [] then cwd else resolve cwd (arg args 1)) = c := Option.some.inj h
    refine ⟨_, rfl, ?_⟩
    simp only [PathTool.target]
    by_cases harg : arg args 1 = []
    · rw [if_pos harg, if_pos harg]
      have hself : pathAsWords cwd = pathAsWords (uptoZero cwd) := by
        have hcut : uptoZero (uptoZero cwd) = uptoZero cwd := Vfs.trimNull_trimNull cwd
        rw [pathAsWords, pathAsWords, hcut]
      rw [hself]
      exact pathAsWords_eq_self_iff
    · rw [if_neg harg, if_neg harg]
      exact pathAsWords_resolve_iff
  | cat | exec | source =>
    simp only [PathTool.sends, cmdCatSends, cmdExecSends, cmdSourceSends] at h
    exact ⟨_, onPath_path (fun _ => rfl) h, pathAsWords_resolve_iff⟩
  | rm | mkdir | touch =>
    simp only [PathTool.sends, cmdRmSends, cmdMkdirSends, cmdTouchSends] at h
    exact ⟨_, onPath_path (fun _ => rfl) h, pathAsWords_resolve_iff⟩
  | write =>
    have hwrite : cmdWriteSends args cwd = some c := h
    unfold cmdWriteSends at hwrite
    split at hwrite
    · cases hwrite
    · cases hwrite
      exact ⟨_, rfl, pathAsWords_resolve_iff⟩
  | test | bracket => exact ⟨_, evalTestSends_path h, pathAsWords_resolve_iff⟩

/-- The requests of `vfs_open` and `vfs_stat` are the ones that the library's client makes. -/
theorem decode_messages (path : Bytes) (oflags : Byte) :
    Vfs.Request.decode (openMessage path oflags).data = .open oflags (packPath path) ∧
      Vfs.Request.decode (statMessage path).data = .stat (packPath path) := by
  have hlen : (packPath path).length = 48 := by
    rw [packPath, List.length_append, List.length_take, List.length_append, List.length_replicate, List.length_singleton]
    omega
  have hpath : ∀ opcode arg, unpackPath (request opcode arg (packPath path)).data = packPath path := by
    intro opcode arg
    rw [unpackPath_request _ _ (le_of_eq hlen), hlen]
    exact List.append_nil _
  have hflags : (oflags.setWidth 64).setWidth 8 = oflags := BitVec.setWidth_setWidth_of_le _ (by decide)
  constructor
  · have hopen : Vfs.Request.decode (openMessage path oflags).data =
        .open ((oflags.setWidth 64).setWidth 8) (unpackPath (openMessage path oflags).data) := rfl
    rw [hopen, hflags, openMessage, hpath]
  · have hstat : Vfs.Request.decode (statMessage path).data = .stat (unpackPath (statMessage path).data) := rfl
    rw [hstat, statMessage, hpath]

/-- A command is about the path that was meant exactly if it sends nothing or the path has no NUL and at most 48 bytes; a
request of the library is exactly if its path has no NUL and at most 47 bytes. -/
theorem addresses_iff (tool : PathTool) (args : List Bytes) (cwd path : Bytes) (oflags : Byte) :
    (tool.Addresses args cwd ↔ tool.sends args cwd = none ∨ Fits 48 (tool.target args cwd)) ∧
      (addressed (.decode (openMessage path oflags).data) = some path ↔ Fits 47 path) ∧
      (addressed (.decode (statMessage path).data) = some path ↔ Fits 47 path) := by
  obtain ⟨hopen, hstat⟩ := decode_messages path oflags
  refine ⟨?_, ?_, ?_⟩
  · rcases hsends : tool.sends args cwd with _ | c
    · refine iff_of_true (fun c hc => ?_) (.inl rfl)
      rw [hsends] at hc
      cases hc
    · obtain ⟨sent, hpath, hiff⟩ := sends_path hsends
      have hnot : (some c : Option Command) ≠ none := Option.some_ne_none c
      rw [or_iff_right hnot, ← hiff, ← Command.asks_iff hpath]
      constructor
      · exact fun h => h c hsends
      · intro h c' hc'
        rw [hsends] at hc'
        exact Option.some.inj hc' ▸ h
  · rw [hopen, addressed, Option.some_inj, trimNull_packPath]
  · rw [hstat, addressed, Option.some_inj, trimNull_packPath]

/-- `rm` of a path of 49 bytes in the root asks for the removal of another path, and `open` with one of 48 bytes opens
another file. -/
theorem rm_addresses_another :
    ¬ PathTool.rm.Addresses [ascii "rm", slash :: List.replicate 48 0x61] [slash] ∧
      addressed (.decode (openMessage (slash :: List.replicate 47 0x61) 0).data) =
        some (slash :: List.replicate 46 0x61) := by
  refine ⟨fun h => ?_, by decide +kernel⟩
  have hrm : addressed (.decode (pathRequest 0x29 0 (resolve [slash] (slash :: List.replicate 48 0x61))).data) =
      some (slash :: List.replicate 47 0x61) := by decide +kernel
  have hsame := h (.rm (resolve [slash] (slash :: List.replicate 48 0x61))) rfl [] _ (List.mem_cons_self ..) _ hrm
  exact absurd hsame (by decide +kernel)

end Rost.Shell
