import Rost.Vfs.Streaming

/-!
# The requests of the shell

The commands that talk to the file server, as what they send and what they do with a reply.  A listing is answered by an
entry for each name and an end; the shell goes on receiving after an entry.  Everything else is answered by one message
(`length_handle_le`), after which the shell sends its next request or is done.  So the shell goes on receiving after every
reply but the last (`Command.fits_start`, `Wait.fits_reply`).
-/

namespace Rost.Shell

open Vfs (Bytes Env Server Reply packedWord trimNull chunkSize)

/-! ### What a command sends -/

/-- A request with its argument, and up to 48 bytes. -/
def request (opcode arg : Word) (bytes : Bytes) : Message :=
  ⟨0, #v[opcode, arg, packedWord bytes 0, packedWord bytes 1, packedWord bytes 2, packedWord bytes 3,
    packedWord bytes 4, packedWord bytes 5]⟩

/-- A request about a path, which `path_as_words` cuts at the first NUL and after 48 bytes. -/
def pathRequest (opcode arg : Word) (path : Bytes) : Message := request opcode arg ((trimNull path).take 48)

/-- `EXEC_BUF_CAP` -/
def execBufCap : Nat := 512 * 1024

/-- `BUF_CAP` of `cmd_source` -/
def sourceBufCap : Nat := 2048

inductive Reader where
  | cat | exec | source
deriving DecidableEq

/-- The loop of a command that reads a file: the next offset, the size once it is known, and the bytes kept so far. -/
structure Reading where
  reader : Reader
  path : Bytes
  offset : Word
  total : Word
  fileLen : Nat

def Reading.start (reader : Reader) (path : Bytes) : Reading := ⟨reader, path, 0, BitVec.ofNat 64 u64Max, 0⟩

def Reading.request (r : Reading) : Message := pathRequest 0x22 r.offset r.path

/-- What the shell waits for: entries with the opcode `entry` or their end, the next part of a file, the acknowledgement of a
write after which `rest` is to be written, or a reply that is the last one. -/
inductive Wait where
  | listing (entry : Word)
  | reading (r : Reading)
  | writing (rest : Bytes)
  | once

/-- What a command does after a reply. -/
inductive Next where
  | finish
  | again
  | send (req : Message) (w : Wait)

/-- `cat`, `exec` and `source`. -/
def Reading.reply (r : Reading) (msg : Message) : Next :=
  if msg.getData 0 = 0x82 then
    let total := if r.total = BitVec.ofNat 64 u64Max then msg.getData 1 else r.total
    let chunk := msg.getData 2
    if chunk = 0 then .finish
    else if r.reader = .exec ∧ execBufCap < r.fileLen + chunk.toNat then .finish
    else
      let kept := if r.reader = .source then min chunk.toNat (sourceBufCap - r.fileLen) else chunk.toNat
      let r := { r with offset := r.offset + chunk, total := total, fileLen := r.fileLen + kept }
      if (r.reader = .source ∧ sourceBufCap ≤ r.fileLen) ∨ total ≤ r.offset then .finish
      else .send r.request (.reading r)
  else .finish

/-- What is done when the message `msg` of the server arrives. -/
def Wait.reply (w : Wait) (msg : Message) : Next :=
  match w with
  | .listing entry => if msg.getData 0 = entry then .again else .finish
  | .reading r => r.reply msg
  | .writing rest =>
    if msg.getData 0 ≠ 0x85 then .finish
    else if rest = [] then .send (request 0x27 0 []) .once
    else
      let chunk := rest.take chunkSize
      .send (request 0x26 (BitVec.ofNat 64 chunk.length) chunk) (.writing (rest.drop chunkSize))
  | .once => .finish

/-- The commands, with the path they are about: `ls` and the completion of a path list, `test` and `which` ask for the kind
of a file, `touch` and `write` write one. -/
inductive Command where
  | readdir (path : Bytes)
  | mount
  | read (reader : Reader) (path : Bytes)
  | stat (path : Bytes)
  | mkdir (path : Bytes)
  | rm (path : Bytes)
  | writeFile (flags : Byte) (path data : Bytes)

/-- The first request of a command, and what it waits for then. -/
def Command.start : Command → Message × Wait
  | .readdir path => (pathRequest 0x20 0 path, .listing 0x80)
  | .mount => (request 0x24 0 [], .listing 0x84)
  | .read reader path => ((Reading.start reader path).request, .reading (.start reader path))
  | .stat path => (pathRequest 0x23 0 path, .once)
  | .mkdir path => (pathRequest 0x28 0 path, .once)
  | .rm path => (pathRequest 0x29 0 path, .once)
  | .writeFile flags path data => (pathRequest 0x25 (flags.setWidth 64) path, .writing data)

/-! ### How the server answers -/

/-- The server answers any request that is not a listing by one message. -/
theorem length_handle_le {env : Env} {s s' : Server} {sender : Nat} {req : Vfs.Request} {replies : List Reply}
    (hhandle : s.handle env sender req = some (s', replies)) (hreaddir : ∀ path, req ≠ .readdir path)
    (hmount : req ≠ .mount) : replies.length ≤ 1 := by
  cases req with
  | readdir path => exact absurd rfl (hreaddir path)
  | mount => exact absurd rfl hmount
  | read | stat | fstat | readFd =>
    obtain ⟨out, -, heq⟩ := Option.map_eq_some_iff.1 hhandle
    cases heq
    exact le_refl 1
  | writeOpen | writeData | writeClose | mkdir | unlink | «open» | close | writeFd | seek | unknown =>
    cases hhandle
    exact le_refl 1

/-- The replies to a listing are entries, but for the last one. -/
theorem entries_of_readdir {env : Env} {s : Server} {path : Bytes} {replies : List Reply}
    (hhandle : s.handleReaddir env path = some replies) :
    ∀ r ∈ replies.dropLast, ∃ name flags size, r = .entry name flags size := by
  rw [Server.handleReaddir_eq] at hhandle
  obtain ⟨found, -, heq⟩ := Option.map_eq_some_iff.1 hhandle
  intro r hr
  cases found with
  | error e =>
    subst heq
    cases hr
  | ok l =>
    subst heq
    rw [List.dropLast_concat, List.mem_flatten] at hr
    obtain ⟨layer, hlayer, hr⟩ := hr
    simp only [Server.Listing.layers, List.mem_cons, List.not_mem_nil, or_false] at hlayer
    rcases hlayer with rfl | rfl | rfl
    all_goals
      obtain ⟨x, -, rfl⟩ := List.mem_map.1 hr
      exact ⟨_, _, _, rfl⟩

/-- Whatever the server makes of the request, the shell receives again after every reply but the last. -/
def Wait.Fits (w : Wait) (req : Message) : Prop :=
  ∀ (env : Env) (s : Server) (sender vfs : Nat) (s' : Server) (replies : List Reply),
    s.handle env sender (.decode req.data) = some (s', replies) →
      ∀ r ∈ replies.dropLast, w.reply (r.message vfs) = .again

/-- A request that is answered by one message fits every wait. -/
theorem fits_of_single (w : Wait) {req : Message} (hreaddir : ∀ path, Vfs.Request.decode req.data ≠ .readdir path)
    (hmount : Vfs.Request.decode req.data ≠ .mount) : w.Fits req := by
  intro env s sender vfs s' replies hhandle r hr
  have hle := length_handle_le hhandle hreaddir hmount
  have hnil : replies.dropLast = [] := by
    apply List.eq_nil_of_length_eq_zero
    rw [List.length_dropLast]
    omega
  rw [hnil] at hr
  cases hr

/-- A reading goes on with the same file, or is over. -/
theorem Reading.reply_cases (r : Reading) (msg : Message) :
    r.reply msg = .finish ∨ ∃ r' : Reading, r.reply msg = .send r'.request (.reading r') ∧ r'.path = r.path := by
  unfold Reading.reply
  dsimp only
  by_cases hdata : msg.getData 0 = 0x82
  · rw [if_pos hdata]
    by_cases hchunk : msg.getData 2 = 0
    · rw [if_pos hchunk]
      exact .inl rfl
    · rw [if_neg hchunk]
      by_cases hlarge : r.reader = .exec ∧ execBufCap < r.fileLen + (msg.getData 2).toNat
      · rw [if_pos hlarge]
        exact .inl rfl
      · rw [if_neg hlarge]
        generalize (if r.reader = .source then min (msg.getData 2).toNat (sourceBufCap - r.fileLen)
          else (msg.getData 2).toNat) = kept
        generalize (if r.total = BitVec.ofNat 64 u64Max then msg.getData 1 else r.total) = total
        by_cases hend : (r.reader = .source ∧ sourceBufCap ≤ r.fileLen + kept) ∨ total ≤ r.offset + msg.getData 2
        · rw [if_pos hend]
          exact .inl rfl
        · rw [if_neg hend]
          exact .inr ⟨_, rfl, rfl⟩
  · rw [if_neg hdata]
    exact .inl rfl

/-- The request after a reply fits what the shell waits for then. -/
theorem Wait.fits_reply {w w' : Wait} {msg req : Message} (h : w.reply msg = .send req w') : w'.Fits req := by
  have hsingle : (∀ path, Vfs.Request.decode req.data ≠ .readdir path) ∧ Vfs.Request.decode req.data ≠ .mount := by
    cases w with
    | listing entry =>
      by_cases hentry : msg.getData 0 = entry <;> simp [Wait.reply, hentry] at h
    | once => cases h
    | reading r =>
      rcases r.reply_cases msg with hfinish | ⟨r', hsend, -⟩
      · rw [show Wait.reply (.reading r) msg = r.reply msg from rfl, hfinish] at h
        cases h
      · rw [show Wait.reply (.reading r) msg = r.reply msg from rfl, hsend] at h
        cases h
        exact ⟨fun path hdec => (by cases hdec), fun hdec => (by cases hdec)⟩
    | writing rest =>
      by_cases hok : msg.getData 0 = 0x85
      · by_cases hrest : rest = []
        · rw [show Wait.reply (.writing rest) msg = .send (request 0x27 0 []) .once by
            simp [Wait.reply, hok, hrest]] at h
          cases h
          exact ⟨fun path hdec => (by cases hdec), fun hdec => (by cases hdec)⟩
        · rw [show Wait.reply (.writing rest) msg = .send (request 0x26 (BitVec.ofNat 64 (rest.take chunkSize).length)
            (rest.take chunkSize)) (.writing (rest.drop chunkSize)) by simp [Wait.reply, hok, hrest]] at h
          cases h
          exact ⟨fun path hdec => (by cases hdec), fun hdec => (by cases hdec)⟩
      · rw [show Wait.reply (.writing rest) msg = .finish from if_pos hok] at h
        cases h
  exact fits_of_single w' hsingle.1 hsingle.2

theorem Command.fits_start (c : Command) : c.start.2.Fits c.start.1 := by
  cases c with
  | readdir path =>
    intro env s sender vfs s' replies hhandle r hr
    obtain ⟨out, hout, heq⟩ := Option.map_eq_some_iff.1
      (show (s.handleReaddir env _).map (fun rs => (s, rs)) = some (s', replies) from hhandle)
    cases heq
    obtain ⟨name, flags, size, rfl⟩ := entries_of_readdir hout r hr
    rfl
  | mount =>
    intro env s sender vfs s' replies hhandle r hr
    cases hhandle
    simp only [Server.handleMount, List.dropLast, List.mem_singleton] at hr
    rw [hr]
    rfl
  | read | stat | mkdir | rm | writeFile =>
    exact fits_of_single _ (fun path hdec => by cases hdec) fun hdec => by cases hdec

end Rost.Shell
