import Rost.Shell.Expand

/-!
# The expansion of variables

`expand_vars` writes what the line stands for into a buffer that takes 255 bytes, and stops when this is full.  The line is
a row of tokens, each of them as long as it can be, and a token stands for itself if it is a single byte.  What is written
is the beginning of what the tokens stand for, but for a `$` at the very end, which is left out (`expandVars_iff`).
-/

namespace Rost.Shell

open Vfs (Bytes ascii)

/-! ### The buffer -/

/-- The bytes in `out`. -/
structure OutLine where
  bytes : Bytes
  length_lt : bytes.length < lineMax

namespace OutLine

def empty : OutLine := ⟨[], by decide⟩

/-- `if o < LINE_MAX - 1 { out[o] = b; o += 1 }` -/
def put (out : OutLine) (b : Byte) : OutLine :=
  if h : out.bytes.length < lineMax - 1 then ⟨out.bytes ++ [b], by
    rw [List.length_append, List.length_singleton]
    omega⟩
  else out

def puts (out : OutLine) (bs : Bytes) : OutLine := bs.foldl put out

/-- The digits of `n`, from the last one on, as far as there are places before those that are filled. -/
def digitLoop : Nat → Nat → Bytes → Bytes
  | 0, _, filled => filled
  | pos + 1, n, filled => if n = 0 then filled else digitLoop pos (n / 10) (BitVec.ofNat 8 (0x30 + n % 10) :: filled)

def emitU64 (out : OutLine) (n : Nat) : OutLine :=
  if n = 0 then out.put 0x30
  else
    let digits := digitLoop 20 n []
    let avail := lineMax - 1 - out.bytes.length
    ⟨out.bytes ++ digits.take avail, by
      have h := out.length_lt
      rw [List.length_append, List.length_take]
      omega⟩

/-! ### What has been written -/

/-- What is cut once more is what the whole is cut to. -/
private theorem take_take_append (n : Nat) (xs ys : Bytes) : (xs.take n ++ ys).take n = (xs ++ ys).take n := by
  rw [List.take_append, List.take_append, List.take_take, Nat.min_self, List.length_take]
  rcases Nat.le_total n xs.length with hle | hle
  · rw [Nat.min_eq_left hle, Nat.sub_self, Nat.sub_eq_zero_of_le hle]
  · rw [Nat.min_eq_right hle]

theorem take_bytes (out : OutLine) : out.bytes.take (lineMax - 1) = out.bytes :=
  List.take_of_length_le (Nat.le_sub_one_of_lt out.length_lt)

theorem bytes_put (out : OutLine) (b : Byte) : (out.put b).bytes = (out.bytes ++ [b]).take (lineMax - 1) := by
  have h := out.length_lt
  unfold put
  split
  · rw [List.take_of_length_le]
    rw [List.length_append, List.length_singleton]
    omega
  · rw [List.take_append_of_le_length (by omega), out.take_bytes]

theorem bytes_puts (out : OutLine) (bs : Bytes) : (out.puts bs).bytes = (out.bytes ++ bs).take (lineMax - 1) := by
  induction bs generalizing out with
  | nil => rw [List.append_nil, out.take_bytes]; rfl
  | cons b bs ih =>
    have hstep : out.puts (b :: bs) = (out.put b).puts bs := rfl
    rw [hstep, ih, bytes_put, take_take_append, List.append_assoc, List.singleton_append]

private theorem digitLoop_eq {pos n : Nat} (hpos : 0 < n) (hlt : n < 10 ^ pos) (filled : Bytes) :
    digitLoop pos n filled = decimal n ++ filled := by
  have hdigit : ∀ d < 10, BitVec.ofNat 8 (Nat.digitChar d).toNat = BitVec.ofNat 8 (0x30 + d) := by decide
  induction pos generalizing n filled with
  | zero =>
    rw [Nat.pow_zero] at hlt
    omega
  | succ pos ih =>
    rw [digitLoop, if_neg (by omega), decimal, Nat.toDigits_eq_if (by decide)]
    by_cases hsmall : n < 10
    · have hstop : ∀ buf, digitLoop pos 0 buf = buf := by
        intro buf
        cases pos <;> rfl
      rw [if_pos hsmall, Nat.div_eq_of_lt hsmall, hstop, Nat.mod_eq_of_lt hsmall, List.map_singleton, hdigit n hsmall]
      rfl
    · have hrest : n / 10 < 10 ^ pos := by
        rw [Nat.pow_succ] at hlt
        omega
      rw [if_neg hsmall, ih (by omega) hrest, List.map_append, List.map_singleton, hdigit _ (Nat.mod_lt n (by decide)),
        List.append_assoc]
      rfl

theorem bytes_emitU64 (out : OutLine) {n : Nat} (hn : n < 2 ^ 64) :
    (out.emitU64 n).bytes = (out.bytes ++ decimal n).take (lineMax - 1) := by
  have hlen := out.length_lt
  unfold emitU64
  split
  · rename_i hzero
    rw [hzero, bytes_put]
    rfl
  · rename_i hpos
    have hdigits := digitLoop_eq (Nat.pos_of_ne_zero hpos) (show n < 10 ^ 20 by omega) []
    rw [List.append_nil] at hdigits
    have hbytes : out.bytes ++ (digitLoop 20 n []).take (lineMax - 1 - out.bytes.length) =
        (out.bytes ++ decimal n).take (lineMax - 1) := by
      rw [hdigits, List.take_append, out.take_bytes]
    exact hbytes

end OutLine

/-! ### The loop -/

/-- The loop of `expand_vars` from `input[i]` on, in at most so many rounds. -/
def expandLoop (vars : VarStore) (pid : BitVec 32) (lastExit : Word) (input : Bytes) : Nat → Nat → OutLine → OutLine
  | 0, _, out => out
  | rounds + 1, i, out =>
    let loop := expandLoop vars pid lastExit input rounds
    match input[i]? with
    | none => out
    | some b =>
      if lineMax - 1 ≤ out.bytes.length then out
      -- ~ at the start of a word
      else if b = tilde ∧ (i = 0 ∨ input[i - 1]? = some space) then
        loop (i + 1) (out.puts ((vars.get (ascii "HOME")).getD (ascii "/home/user")))
      else if b ≠ dollar then loop (i + 1) (out.put b)
      else
        match input[i + 1]? with
        | none => out
        | some c =>
          if c = dollar then loop (i + 2) (out.emitU64 pid.toNat)
          -- $?
          else if c = 0x3F then loop (i + 2) (out.emitU64 lastExit.toNat)
          -- $0
          else if c = 0x30 then loop (i + 2) (out.puts (ascii "rost-shell"))
          -- ${name}
          else if c = 0x7B then
            let name := (input.drop (i + 2)).takeWhile fun b => b != 0x7D
            let stop := i + 2 + name.length
            loop (if stop < input.length then stop + 1 else stop) (out.puts ((vars.get name).getD []))
          else if isIdChar c then
            let name := (input.drop (i + 1)).takeWhile isIdChar
            loop (i + 1 + name.length) (out.puts ((vars.get name).getD []))
          else loop (i + 1) (out.put dollar)

/-- `expand_vars`, which makes at most one round for each byte of the line. -/
def expandVarsInto (vars : VarStore) (pid : BitVec 32) (lastExit : Word) (input : Bytes) : Bytes :=
  (expandLoop vars pid lastExit input input.length 0 OutLine.empty).bytes

variable {vars : VarStore} {pid : BitVec 32} {lastExit : Word}

/-- The bytes that belong to a token that has been replaced. -/
theorem varLoop_skip (pid lastExit : Nat) (seen us rest : Bytes) :
    varLoop vars pid lastExit seen.getLast? us.length (us ++ rest) =
      varLoop vars pid lastExit (seen ++ us).getLast? 0 rest := by
  induction us generalizing seen with
  | nil => rw [List.append_nil, List.nil_append, List.length_nil]
  | cons u us ih =>
    have hlast : some u = (seen ++ [u]).getLast? := by simp
    rw [List.length_cons, List.cons_append, varLoop, if_pos (Nat.succ_pos _), Nat.add_sub_cancel, hlast, ih,
      List.append_assoc, List.singleton_append]

/-- The loop goes on behind `b` and the `k` bytes after it, with `text` written. -/
private theorem expandLoop_behind {rounds : Nat} (hloop : ∀ seen rest : Bytes, rest.length ≤ rounds → ∀ out : OutLine,
    (expandLoop vars pid lastExit (seen ++ rest) rounds seen.length out).bytes =
      (out.bytes ++ varLoop vars pid.toNat lastExit.toNat seen.getLast? 0 rest).take (lineMax - 1))
    {seen rest : Bytes} {b : Byte} (hrounds : rest.length ≤ rounds) {k : Nat} (hk : k ≤ rest.length) {out : OutLine}
    (text : Bytes) (out' : OutLine) (hout' : out'.bytes = (out.bytes ++ text).take (lineMax - 1)) :
    (expandLoop vars pid lastExit (seen ++ b :: rest) rounds (seen.length + 1 + k) out').bytes =
      (out.bytes ++ (text ++ varLoop vars pid.toNat lastExit.toNat (some b) k rest)).take (lineMax - 1) := by
  have hlen : (rest.take k).length = k := List.length_take_of_le hk
  have hskip : varLoop vars pid.toNat lastExit.toNat (seen ++ [b]).getLast? (rest.take k).length
      (rest.take k ++ rest.drop k) = _ := varLoop_skip ..
  rw [List.take_append_drop, hlen, List.getLast?_concat] at hskip
  have hinput : seen ++ b :: rest = (seen ++ [b] ++ rest.take k) ++ rest.drop k := by simp
  have hplace : seen.length + 1 + k = (seen ++ [b] ++ rest.take k).length := by
    rw [List.length_append, List.length_append, hlen, List.length_singleton]
  rw [hskip, hinput, hplace, hloop _ _ (by rw [List.length_drop]; omega), hout', OutLine.take_take_append,
    List.append_assoc]

/-- In `rest.length` rounds the loop writes what stands for `rest`, as far as there is room. -/
theorem expandLoop_eq (rounds : Nat) (seen rest : Bytes) (hrounds : rest.length ≤ rounds) (out : OutLine) :
    (expandLoop vars pid lastExit (seen ++ rest) rounds seen.length out).bytes =
      (out.bytes ++ varLoop vars pid.toNat lastExit.toNat seen.getLast? 0 rest).take (lineMax - 1) := by
  induction rounds generalizing seen rest out with
  | zero =>
    have hempty : rest = [] := List.eq_nil_of_length_eq_zero (Nat.le_zero.1 hrounds)
    subst hempty
    rw [varLoop, List.append_nil, List.append_nil, out.take_bytes]
    rfl
  | succ rounds ih =>
    rw [expandLoop]
    cases rest with
    | nil =>
      rw [List.append_nil, List.getElem?_eq_none (le_refl _), varLoop, List.append_nil, out.take_bytes]
    | cons b rest =>
      rw [List.length_cons] at hrounds
      have hgo : ∀ k ≤ rest.length, ∀ (text : Bytes) (out' : OutLine),
          out'.bytes = (out.bytes ++ text).take (lineMax - 1) →
          (expandLoop vars pid lastExit (seen ++ b :: rest) rounds (seen.length + 1 + k) out').bytes =
            (out.bytes ++ (text ++ varLoop vars pid.toNat lastExit.toNat (some b) k rest)).take (lineMax - 1) :=
        fun _ hk => expandLoop_behind ih (Nat.le_of_succ_le_succ hrounds) hk
      have hget : (seen ++ b :: rest)[seen.length]? = some b := by simp
      have hnext : (seen ++ b :: rest)[seen.length + 1]? = rest[0]? := by simp [List.getElem?_append_right]
      have hword : (seen.length = 0 ∨ (seen ++ b :: rest)[seen.length - 1]? = some space) ↔
          (seen.getLast? = none ∨ seen.getLast? = some space) := by
        rcases List.eq_nil_or_concat' seen with rfl | ⟨before, c, rfl⟩
        · simp
        · simp [List.append_assoc]
      have hstep : varLoop vars pid.toNat lastExit.toNat seen.getLast? 0 (b :: rest) = _ := varLoop.eq_2 ..
      rw [hget, hstep, if_neg (Nat.lt_irrefl 0)]
      dsimp only
      by_cases hfull : lineMax - 1 ≤ out.bytes.length
      · rw [if_pos hfull, List.take_append_of_le_length hfull, out.take_bytes]
      rw [if_neg hfull, if_congr (and_congr_right fun _ => hword) rfl rfl]
      by_cases hhome : b = tilde ∧ (seen.getLast? = none ∨ seen.getLast? = some space)
      · rw [if_pos hhome, if_pos hhome]
        exact hgo 0 (Nat.zero_le _) _ _ (out.bytes_puts _)
      rw [if_neg hhome, if_neg hhome]
      by_cases hbyte : b ≠ dollar
      · rw [if_pos hbyte, if_pos hbyte]
        exact hgo 0 (Nat.zero_le _) [b] _ (out.bytes_put b)
      rw [if_neg hbyte, if_neg hbyte, hnext]
      cases rest with
      | nil =>
        rw [List.getElem?_nil, dollarRef, varLoop, List.append_nil, List.append_nil, out.take_bytes]
      | cons c tail =>
        have hdrop : (seen ++ b :: c :: tail).drop (seen.length + 1) = c :: tail := by simp [List.drop_append]
        have hdrop' : (seen ++ b :: c :: tail).drop (seen.length + 2) = tail := by simp [List.drop_append]
        rw [List.getElem?_cons_zero, dollarRef, hdrop, hdrop']
        dsimp only
        by_cases hpid : c = dollar
        · rw [if_pos hpid, if_pos hpid]
          exact hgo 1 (by simp) _ _ (out.bytes_emitU64 (by have := pid.isLt; omega))
        rw [if_neg hpid, if_neg hpid]
        by_cases hstatus : c = 0x3F
        · rw [if_pos hstatus, if_pos hstatus]
          exact hgo 1 (by simp) _ _ (out.bytes_emitU64 lastExit.isLt)
        rw [if_neg hstatus, if_neg hstatus]
        by_cases hshell : c = 0x30
        · rw [if_pos hshell, if_pos hshell]
          exact hgo 1 (by simp) _ _ (out.bytes_puts _)
        rw [if_neg hshell, if_neg hshell]
        by_cases hbrace : c = 0x7B
        · rw [if_pos hbrace, if_pos hbrace]
          generalize hname : (tail.takeWhile fun b => b != 0x7D) = name
          have hle : name.length ≤ tail.length := by
            rw [← hname]
            exact (List.takeWhile_sublist _).length_le
          have hlen : (seen ++ b :: c :: tail).length = seen.length + 2 + tail.length := by simp; omega
          have hstop : (if seen.length + 2 + name.length < (seen ++ b :: c :: tail).length then
              seen.length + 2 + name.length + 1 else seen.length + 2 + name.length) =
              seen.length + 1 + (1 + name.length + if name.length < tail.length then 1 else 0) := by
            rw [hlen]
            split_ifs <;> omega
          rw [hstop]
          refine hgo _ ?_ _ _ (out.bytes_puts _)
          rw [List.length_cons]
          split_ifs <;> omega
        rw [if_neg hbrace, if_neg hbrace]
        by_cases hid : isIdChar c = true
        · rw [if_pos hid, if_pos hid]
          exact hgo _ (List.takeWhile_sublist _).length_le _ _ (out.bytes_puts _)
        · rw [if_neg hid, if_neg hid]
          exact hgo 0 (Nat.zero_le _) _ _ (out.bytes_put _)

/-- What the loop writes is what stands for the line, cut to 255 bytes. -/
theorem expandVarsInto_eq (input : Bytes) :
    expandVarsInto vars pid lastExit input = expandVars input vars pid.toNat lastExit.toNat :=
  expandLoop_eq input.length [] input (le_refl _) OutLine.empty

/-! ### Tokens -/

inductive Token where
  /-- `~` at the start of a word -/
  | home
  /-- `$$` -/
  | pid
  /-- `$?` -/
  | status
  /-- `$0` -/
  | shell
  /-- `$name` and `${name}` -/
  | var (name : Bytes)
  | byte (b : Byte)
deriving DecidableEq

/-- What a token stands for. -/
def Token.expand (vars : VarStore) (pid lastExit : Nat) : Token → Bytes
  | .home => (vars.get (ascii "HOME")).getD (ascii "/home/user")
  | .pid => decimal pid
  | .status => decimal lastExit
  | .shell => ascii "rost-shell"
  | .var name => (vars.get name).getD []
  | .byte b => [b]

/-- A word starts behind these bytes. -/
def WordStart (seen : Bytes) : Prop := seen = [] ∨ seen.getLast? = some space

/-- A byte that makes a token of a `$` before it. -/
def StartsForm (c : Byte) : Prop := c = dollar ∨ c = 0x3F ∨ c = 0x7B ∨ isIdChar c = true

/-- A name between braces, of which the second may be missing at the end of the line. -/
def Braced (name text rest : Bytes) : Prop :=
  0x7D ∉ name ∧ (text = dollar :: 0x7B :: name ++ [0x7D] ∨ text = dollar :: 0x7B :: name ∧ rest = [])

/-- A name that is as long as it can be, and does not start with a zero. -/
def Bare (name text rest : Bytes) : Prop :=
  text = dollar :: name ∧ name ≠ [] ∧ name.head? ≠ some 0x30 ∧ (∀ b ∈ name, isIdChar b = true) ∧
    ∀ c ∈ rest.head?, isIdChar c = false

/-- The token with which a line goes on behind `seen`, with its text and what follows it. -/
def Token.Starts (t : Token) (seen text rest : Bytes) : Prop :=
  match t with
  | .home => text = [tilde] ∧ WordStart seen
  | .pid => text = [dollar, dollar]
  | .status => text = [dollar, 0x3F]
  | .shell => text = [dollar, 0x30]
  | .var name => Braced name text rest ∨ Bare name text rest
  | .byte b => text = [b] ∧ (b = tilde → ¬ WordStart seen) ∧ (b = dollar → ∀ c ∈ rest.head?, ¬ StartsForm c)

/-- A line, read behind `seen`, is a row of tokens. -/
inductive Reads : Bytes → Bytes → List Token → Prop
  | done (seen : Bytes) : Reads seen [] []
  | token {t : Token} {seen text rest : Bytes} {ts : List Token} (h : t.Starts seen text rest)
      (hrest : Reads (seen ++ text) rest ts) : Reads seen (text ++ rest) (t :: ts)

/-- The token with which `b :: rest` starts, and how many bytes of `rest` it takes. -/
def nextToken (seen : Bytes) (b : Byte) (rest : Bytes) : Token × Nat :=
  if b = tilde ∧ (seen.getLast? = none ∨ seen.getLast? = some space) then (.home, 0)
  else if b ≠ dollar then (.byte b, 0)
  else
    match rest with
    | [] => (.byte dollar, 0)
    | c :: tail =>
      if c = dollar then (.pid, 1)
      else if c = 0x3F then (.status, 1)
      else if c = 0x30 then (.shell, 1)
      else if c = 0x7B then
        let name := tail.takeWhile fun b => b != 0x7D
        (.var name, 1 + name.length + if name.length < tail.length then 1 else 0)
      else if isIdChar c then (.var (rest.takeWhile isIdChar), (rest.takeWhile isIdChar).length)
      else (.byte dollar, 0)

theorem wordStart_iff (seen : Bytes) : WordStart seen ↔ seen.getLast? = none ∨ seen.getLast? = some space := by
  rw [WordStart, List.getLast?_eq_none_iff]

private theorem takeWhile_name {p : Byte → Bool} {name rest : Bytes} (hname : ∀ b ∈ name, p b = true)
    (hrest : ∀ c ∈ rest.head?, p c = false) : (name ++ rest).takeWhile p = name := by
  rw [List.takeWhile_append_of_pos hname]
  cases rest with
  | nil => simp
  | cons c rest =>
    have hc : p c = false := hrest c rfl
    rw [List.takeWhile_cons_of_neg (by simp [hc]), List.append_nil]

private theorem nextToken_brace (seen tail : Bytes) : nextToken seen dollar (0x7B :: tail) =
    (.var (tail.takeWhile fun b => b != 0x7D), 1 + (tail.takeWhile fun b => b != 0x7D).length +
      if (tail.takeWhile fun b => b != 0x7D).length < tail.length then 1 else 0) := rfl

private theorem nextToken_name (seen tail : Bytes) {c : Byte} (hid : isIdChar c = true) (hzero : c ≠ 0x30) :
    nextToken seen dollar (c :: tail) =
      (.var ((c :: tail).takeWhile isIdChar), ((c :: tail).takeWhile isIdChar).length) := by
  have hne : ∀ d, isIdChar d = false → c ≠ d := by
    rintro d hd rfl
    rw [hd] at hid
    cases hid
  unfold nextToken
  rw [if_neg (by rintro ⟨h, -⟩; revert h; decide), if_neg (not_not.2 rfl)]
  dsimp only
  rw [if_neg (hne dollar rfl), if_neg (hne 0x3F rfl), if_neg hzero, if_neg (hne 0x7B rfl), if_pos hid]

/-- Where a name ends, and what follows it. -/
private theorem takeWhile_cut (p : Byte → Bool) (l : Bytes) : l.take (l.takeWhile p).length = l.takeWhile p ∧
    l.drop (l.takeWhile p).length = l.dropWhile p ∧ ∀ c ∈ (l.dropWhile p).head?, p c = false := by
  have hsplit := List.takeWhile_append_dropWhile (p := p) (l := l)
  refine ⟨?_, ?_, fun c hc => ?_⟩
  · calc l.take (l.takeWhile p).length
        = (l.takeWhile p ++ l.dropWhile p).take (l.takeWhile p).length := by rw [hsplit]
      _ = l.takeWhile p := List.take_left
  · calc l.drop (l.takeWhile p).length
        = (l.takeWhile p ++ l.dropWhile p).drop (l.takeWhile p).length := by rw [hsplit]
      _ = l.dropWhile p := List.drop_left
  · have hhead := List.head?_dropWhile_not p l
    rw [hc] at hhead
    exact hhead

/-- No other token can start the line. -/
theorem nextToken_of_starts {t : Token} {seen text rest : Bytes} (h : t.Starts seen text rest) :
    ∃ b us, text = b :: us ∧ nextToken seen b (us ++ rest) = (t, us.length) := by
  have hword := wordStart_iff seen
  cases t with
  | home =>
    obtain ⟨rfl, hstart⟩ := h
    refine ⟨tilde, [], rfl, ?_⟩
    unfold nextToken
    rw [if_pos ⟨rfl, hword.1 hstart⟩]
    rfl
  | pid =>
    obtain rfl : text = [dollar, dollar] := h
    exact ⟨dollar, [dollar], rfl, rfl⟩
  | status =>
    obtain rfl : text = [dollar, 0x3F] := h
    exact ⟨dollar, [0x3F], rfl, rfl⟩
  | shell =>
    obtain rfl : text = [dollar, 0x30] := h
    exact ⟨dollar, [0x30], rfl, rfl⟩
  | var name =>
    rcases h with ⟨hname, hform⟩ | ⟨rfl, hne, hzero, hid, hlongest⟩
    · have hfree : ∀ b ∈ name, (b != 0x7D) = true := by
        intro b hb
        rw [bne_iff_ne]
        rintro rfl
        exact hname hb
      rcases hform with rfl | ⟨rfl, rfl⟩
      · refine ⟨dollar, 0x7B :: name ++ [0x7D], rfl, ?_⟩
        have htake : (name ++ 0x7D :: rest).takeWhile (fun b => b != 0x7D) = name := takeWhile_name hfree (by simp)
        rw [List.cons_append, List.cons_append, List.append_assoc, List.singleton_append, nextToken_brace, htake, if_pos]
        · simp [Nat.add_comm]
        · simp
      · refine ⟨dollar, 0x7B :: name, rfl, ?_⟩
        have htake : (name ++ []).takeWhile (fun b => b != 0x7D) = name := takeWhile_name hfree (by simp)
        rw [List.cons_append, nextToken_brace, htake, if_neg]
        · simp [Nat.add_comm]
        · simp
    · obtain ⟨c, name, rfl⟩ := List.exists_cons_of_ne_nil hne
      refine ⟨dollar, c :: name, rfl, ?_⟩
      have htake : (c :: (name ++ rest)).takeWhile isIdChar = c :: name := takeWhile_name hid hlongest
      have hzero' : c ≠ 0x30 := by
        rintro rfl
        exact hzero rfl
      rw [List.cons_append, nextToken_name _ _ (hid c List.mem_cons_self) hzero', htake]
  | byte b =>
    obtain ⟨rfl, htilde, hdollar⟩ := h
    refine ⟨b, [], rfl, ?_⟩
    unfold nextToken
    rw [if_neg (by rintro ⟨hb, hstart⟩; exact htilde hb (hword.2 hstart))]
    by_cases hb : b ≠ dollar
    · rw [if_pos hb]
      rfl
    · rw [if_neg hb]
      have hb' : b = dollar := not_not.1 hb
      subst hb'
      cases rest with
      | nil => rfl
      | cons c tail =>
        have hform := hdollar rfl c rfl
        unfold StartsForm at hform
        push Not at hform
        obtain ⟨hpid, hstatus, hbrace, hid⟩ := hform
        have hzero : c ≠ 0x30 := by
          rintro rfl
          exact hid rfl
        rw [List.nil_append]
        dsimp only
        rw [if_neg hpid, if_neg hstatus, if_neg hzero, if_neg hbrace, if_neg hid]
        rfl

/-- What the braces take is a name between braces, or behind the first of them up to the end of the line. -/
private theorem starts_brace (seen tail : Bytes) {name : Bytes} {k : Nat}
    (hname : tail.takeWhile (fun b => b != 0x7D) = name)
    (hk : k = 1 + name.length + if name.length < tail.length then 1 else 0) : k ≤ (0x7B :: tail).length ∧
      (Token.var name).Starts seen (dollar :: (0x7B :: tail).take k) ((0x7B :: tail).drop k) := by
  have hend := (takeWhile_cut (fun b => b != 0x7D) tail).2.2
  have hsplit := List.takeWhile_append_dropWhile (p := fun b => b != 0x7D) (l := tail)
  have hfree : 0x7D ∉ name := fun hmem => by
    rw [← hname] at hmem
    have h := List.mem_takeWhile_imp hmem
    simp at h
  rw [hname] at hsplit
  generalize (tail.dropWhile fun b => b != 0x7D) = more at hend hsplit
  subst hsplit
  cases more with
  | nil =>
    rw [List.append_nil, if_neg (Nat.lt_irrefl _)] at hk
    have hall : (0x7B :: (name ++ [])).length ≤ k := by
      rw [List.append_nil, List.length_cons]
      omega
    refine ⟨?_, Or.inl ⟨hfree, Or.inr ⟨?_, List.drop_eq_nil_of_le hall⟩⟩⟩
    · rw [List.append_nil, List.length_cons]
      omega
    · rw [List.take_of_length_le hall, List.append_nil]
  | cons d more =>
    have hclose : d = 0x7D := by
      have h := hend d rfl
      simpa using h
    subst hclose
    rw [if_pos (by simp)] at hk
    have hlen : k = (0x7B :: name ++ [0x7D]).length := by
      rw [hk, List.length_append, List.length_cons, List.length_singleton]
      omega
    have hline : 0x7B :: (name ++ 0x7D :: more) = (0x7B :: name ++ [0x7D]) ++ more := by simp
    rw [hline, hlen]
    refine ⟨(List.prefix_append _ _).length_le, Or.inl ⟨hfree, Or.inl ?_⟩⟩
    rw [List.take_left]
    rfl

/-- What a letter takes is a name that is as long as it can be. -/
private theorem starts_name (seen tail : Bytes) {c : Byte} (hid : isIdChar c = true) (hzero : c ≠ 0x30) :
    ((c :: tail).takeWhile isIdChar).length ≤ (c :: tail).length ∧ (Token.var ((c :: tail).takeWhile isIdChar)).Starts seen
      (dollar :: (c :: tail).take ((c :: tail).takeWhile isIdChar).length)
      ((c :: tail).drop ((c :: tail).takeWhile isIdChar).length) := by
  obtain ⟨htake, hdrop, hend⟩ := takeWhile_cut isIdChar (c :: tail)
  rw [htake, hdrop]
  refine ⟨(List.takeWhile_sublist _).length_le, Or.inr ⟨rfl, ?_, ?_, fun d hd => List.mem_takeWhile_imp hd, hend⟩⟩
  · rw [List.takeWhile_cons_of_pos hid]
    exact List.cons_ne_nil _ _
  · rw [List.takeWhile_cons_of_pos hid, List.head?_cons]
    exact fun h => hzero (Option.some.inj h)

/-- There is always a token. -/
theorem starts_nextToken (seen : Bytes) (b : Byte) (rest : Bytes) : (nextToken seen b rest).2 ≤ rest.length ∧
    (nextToken seen b rest).1.Starts seen (b :: rest.take (nextToken seen b rest).2)
      (rest.drop (nextToken seen b rest).2) := by
  have hword := wordStart_iff seen
  unfold nextToken
  by_cases hhome : b = tilde ∧ (seen.getLast? = none ∨ seen.getLast? = some space)
  · rw [if_pos hhome]
    obtain ⟨rfl, hstart⟩ := hhome
    exact ⟨Nat.zero_le _, rfl, hword.2 hstart⟩
  have htilde : b = tilde → ¬ WordStart seen := fun hb hstart => hhome ⟨hb, hword.1 hstart⟩
  rw [if_neg hhome]
  by_cases hbyte : b ≠ dollar
  · rw [if_pos hbyte]
    exact ⟨Nat.zero_le _, rfl, htilde, fun hb => absurd hb hbyte⟩
  rw [if_neg hbyte]
  obtain rfl : b = dollar := not_not.1 hbyte
  cases rest with
  | nil => exact ⟨Nat.zero_le _, rfl, htilde, fun _ c hc => by cases hc⟩
  | cons c tail =>
    dsimp only
    by_cases hpid : c = dollar
    · rw [if_pos hpid]
      exact ⟨by simp, by rw [hpid]; rfl⟩
    rw [if_neg hpid]
    by_cases hstatus : c = 0x3F
    · rw [if_pos hstatus]
      exact ⟨by simp, by rw [hstatus]; rfl⟩
    rw [if_neg hstatus]
    by_cases hshell : c = 0x30
    · rw [if_pos hshell]
      exact ⟨by simp, by rw [hshell]; rfl⟩
    rw [if_neg hshell]
    by_cases hbrace : c = 0x7B
    · rw [if_pos hbrace, hbrace]
      exact starts_brace seen tail rfl rfl
    rw [if_neg hbrace]
    by_cases hid : isIdChar c = true
    · rw [if_pos hid]
      exact starts_name seen tail hid hshell
    · rw [if_neg hid]
      refine ⟨Nat.zero_le _, rfl, htilde, fun _ d hd => ?_⟩
      cases hd
      unfold StartsForm
      push Not
      exact ⟨hpid, hstatus, hbrace, hid⟩

/-- How a line is read, token by token. -/
theorem reads_cons_iff {seen : Bytes} {b : Byte} {rest : Bytes} {ts : List Token} : Reads seen (b :: rest) ts ↔
    ∃ ts', ts = (nextToken seen b rest).1 :: ts' ∧
      Reads (seen ++ b :: rest.take (nextToken seen b rest).2) (rest.drop (nextToken seen b rest).2) ts' := by
  constructor
  · intro h
    generalize hline : b :: rest = line at h
    cases h with
    | done => cases hline
    | @token t _ text rest' ts h hrest =>
      obtain ⟨b', us, rfl, hnext⟩ := nextToken_of_starts h
      rw [List.cons_append, List.cons.injEq] at hline
      obtain ⟨rfl, rfl⟩ := hline
      rw [hnext, List.take_left, List.drop_left]
      exact ⟨ts, rfl, hrest⟩
  · rintro ⟨ts', rfl, h⟩
    have htoken := Reads.token (starts_nextToken seen b rest).2 h
    rwa [List.cons_append, List.take_append_drop] at htoken

theorem Reads.tokens_nil {seen : Bytes} {ts : List Token} (h : Reads seen [] ts) : ts = [] := by
  generalize hline : ([] : Bytes) = line at h
  cases h with
  | done => rfl
  | token h _ =>
    obtain ⟨b, us, rfl, -⟩ := nextToken_of_starts h
    cases hline

/-- Every line is a row of tokens, and of only one. -/
theorem exists_unique_reads (seen line : Bytes) : ∃ ts, Reads seen line ts ∧ ∀ us, Reads seen line us → us = ts := by
  generalize hn : line.length = n
  induction n using Nat.strongRecOn generalizing seen line with
  | ind n ih =>
    cases line with
    | nil =>
      exact ⟨[], Reads.done seen, fun us h => h.tokens_nil⟩
    | cons b rest =>
      rw [List.length_cons] at hn
      obtain ⟨ts, hts, hunique⟩ := ih (rest.drop (nextToken seen b rest).2).length
        (by rw [List.length_drop]; omega) (seen ++ b :: rest.take (nextToken seen b rest).2) _ rfl
      refine ⟨_ :: ts, reads_cons_iff.2 ⟨ts, rfl, hts⟩, fun us h => ?_⟩
      obtain ⟨us', rfl, hrest⟩ := reads_cons_iff.1 h
      rw [hunique us' hrest]

/-! ### The line and its tokens -/

/-- A `$` at the end that is no part of another token. -/
def EndsInDollar (ts : List Token) : Prop := ts.getLast? = some (.byte dollar)

instance (ts : List Token) : Decidable (EndsInDollar ts) := inferInstanceAs (Decidable (_ = _))

/-- The first token of a line, and the rest, as the loop reads them. -/
private theorem varLoop_cons (pid lastExit : Nat) (seen : Bytes) (b : Byte) (rest : Bytes) :
    varLoop vars pid lastExit seen.getLast? 0 (b :: rest) =
      (if (nextToken seen b rest).1 = .byte dollar ∧ rest = [] then []
        else (nextToken seen b rest).1.expand vars pid lastExit) ++
      varLoop vars pid lastExit (some b) (nextToken seen b rest).2 rest := by
  rw [varLoop, if_neg (Nat.lt_irrefl 0)]
  unfold nextToken
  by_cases hhome : b = tilde ∧ (seen.getLast? = none ∨ seen.getLast? = some space)
  · rw [if_pos hhome, if_pos hhome, if_neg (by rintro ⟨h, -⟩; cases h)]
    rfl
  rw [if_neg hhome, if_neg hhome]
  by_cases hbyte : b ≠ dollar
  · rw [if_pos hbyte, if_pos hbyte, if_neg (by rintro ⟨h, -⟩; exact hbyte (Token.byte.inj h))]
    rfl
  rw [if_neg hbyte, if_neg hbyte]
  unfold dollarRef
  cases rest with
  | nil => rw [if_pos ⟨rfl, rfl⟩]
  | cons c tail =>
    simp only [reduceCtorEq, and_false, if_false]
    split_ifs <;> rfl

/-- The loop writes what the tokens stand for, but for the `$` at the end. -/
theorem Reads.varLoop_eq {seen line : Bytes} {ts : List Token} (h : Reads seen line ts) (pid lastExit : Nat) :
    ts.flatMap (Token.expand vars pid lastExit) =
      varLoop vars pid lastExit seen.getLast? 0 line ++ if EndsInDollar ts then [dollar] else [] := by
  induction h with
  | done seen => rfl
  | @token t seen text rest ts h hrest ih =>
    obtain ⟨b, us, rfl, hnext⟩ := nextToken_of_starts h
    have hskip : varLoop vars pid lastExit (seen ++ [b]).getLast? us.length (us ++ rest) = _ := varLoop_skip ..
    rw [List.getLast?_concat, List.append_assoc, List.singleton_append] at hskip
    rw [List.flatMap_cons, ih, List.cons_append, varLoop_cons, hnext, hskip]
    dsimp only
    by_cases hlone : t = .byte dollar ∧ us ++ rest = []
    · obtain ⟨rfl, hend⟩ := hlone
      obtain ⟨rfl, rfl⟩ := List.append_eq_nil_iff.1 hend
      obtain rfl := hrest.tokens_nil
      rfl
    · have hlast : EndsInDollar (t :: ts) ↔ EndsInDollar ts := by
        unfold EndsInDollar
        cases ts with
        | cons t' ts => rw [List.getLast?_cons_cons]
        | nil =>
          refine iff_of_false (fun hdollar => hlone ?_) (by simp)
          -- the last token is a `$`, and nothing follows it
          cases hrest with
          | done =>
            obtain rfl := Option.some.inj hdollar
            obtain ⟨htext, -⟩ := h
            cases htext
            exact ⟨rfl, rfl⟩
      rw [if_neg hlone, List.append_assoc, if_congr hlast rfl rfl]

/-- The line is a row of tokens in just one way, and the shell writes the first 255 bytes of what they stand for, unless the
last one is a `$` that there is room for. -/
theorem expandVars_iff (vars : VarStore) (pid : BitVec 32) (lastExit : Word) (line : Bytes) :
    ∃ ts, Reads [] line ts ∧ (∀ us, Reads [] line us → us = ts) ∧
      (expandVarsInto vars pid lastExit line =
          (ts.flatMap (Token.expand vars pid.toNat lastExit.toNat)).take (lineMax - 1) ↔
        (EndsInDollar ts →
          lineMax - 1 ≤ (ts.dropLast.flatMap (Token.expand vars pid.toNat lastExit.toNat)).length)) := by
  obtain ⟨ts, hts, hunique⟩ := exists_unique_reads [] line
  refine ⟨ts, hts, hunique, ?_⟩
  have hloop : ts.flatMap (Token.expand vars pid.toNat lastExit.toNat) = _ := hts.varLoop_eq ..
  rw [expandVarsInto_eq, expandVars, hloop]
  rw [List.getLast?_nil] at *
  generalize varLoop vars pid.toNat lastExit.toNat none 0 line = written at *
  by_cases hdollar : EndsInDollar ts
  · -- what is written are the tokens before the `$`
    have hsplit : ts = ts.dropLast ++ [.byte dollar] := (List.dropLast_append_getLast? _ hdollar).symm
    have hwritten : written = ts.dropLast.flatMap (Token.expand vars pid.toNat lastExit.toNat) := by
      rw [if_pos hdollar, hsplit, List.flatMap_append] at hloop
      exact (List.append_cancel_right hloop).symm
    rw [if_pos hdollar, ← hwritten]
    constructor
    · intro hcut _
      by_contra hshort
      have hlen := congrArg List.length hcut
      rw [List.length_take, List.length_take, List.length_append, List.length_singleton] at hlen
      omega
    · intro hfull
      rw [List.take_append_of_le_length (hfull hdollar)]
  · rw [if_neg hdollar, List.append_nil]
    exact iff_of_true rfl fun h => absurd h hdollar

/-- The line `$` is a token that stands for itself, and nothing is written. -/
theorem dollar_at_end_is_lost : Reads [] [dollar] [.byte dollar] ∧
    ([Token.byte dollar].flatMap (Token.expand VarStore.initDefaults 1 0)).take (lineMax - 1) = [dollar] ∧
    expandVarsInto VarStore.initDefaults 1 0 [dollar] = [] := by
  refine ⟨?_, rfl, by decide +kernel⟩
  have htilde : dollar ≠ tilde := by decide
  have hstarts : (Token.byte dollar).Starts [] [dollar] [] :=
    ⟨rfl, fun h => absurd h htilde, fun _ c hc => by cases hc⟩
  exact Reads.token hstarts (Reads.done _)

end Rost.Shell
