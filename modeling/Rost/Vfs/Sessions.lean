import Rost.Vfs.Files

/-!
# Two write sessions

The server has one write session, whoever has opened it: a second client that opens another file takes it over, and its
`OP_WRITE_CLOSE` takes it away from both.  So of two sessions that overlap one is answered with an error, and if every
request of two clients succeeds one session stands behind the other (`Server.sessions_serial`).  The paths have to name
different files for this to keep the files apart: `/f` and `/f/` are one file (`Server.sessions_mix`).
-/

namespace Rost.Vfs

open Lib (Slots Run exec run_of_exec)

namespace Server

/-- The requests that write a file. -/
def session (flags : Byte) (path : Bytes) (chunks : List (Nat × Bytes)) : List Request :=
  .writeOpen flags path :: chunks.map (fun c => .writeData c.1 c.2) ++ [.writeClose]

/-- The bytes that the chunks carry. -/
def written (chunks : List (Nat × Bytes)) : Bytes := chunks.flatMap fun c => c.2.take (min c.1 chunkSize)

/-- The part of a history that is a client's. -/
def ofClient (client : Nat) (es : List (Message × List Reply)) : List (Message × List Reply) :=
  es.filter fun e => e.1.sender == client

/-- The requests in a history. -/
def requests (es : List (Message × List Reply)) : List Request := es.map fun e => .decode e.1.data

/-- The path names a file with these contents. -/
def HoldsFile (s : Server) (path data : Bytes) : Prop :=
  ∃ i, Mutable.find s.nodes path = some i ∧ (s.nodes.get i).isDir = false ∧ (s.nodes.get i).contents = data

/-- Clients read these contents from the path. -/
def ReadsFile (env : Env) (s : Server) (path data : Bytes) : Prop :=
  s.HoldsFile path data ∧ ∀ offset, s.handleRead env offset path = some (dataReply data offset)

/-- The path without a trailing slash does not end in another one. -/
def OneSlash (path : Bytes) : Prop := canon (canon (trimNull path)) = canon (trimNull path)

instance decidableOneSlash (path : Bytes) : Decidable (OneSlash path) := inferInstanceAs (Decidable (_ = _))

variable {env : Env} {s s' : Server} {p q data : Bytes}

@[simp] theorem find_trimNull {nodes : Nodes} (path : Bytes) :
    Mutable.find nodes (trimNull path) = Mutable.find nodes path := by
  unfold Mutable.find
  rw [trimNull_trimNull]

theorem HoldsFile.reads (h : s.HoldsFile p data) : ReadsFile env s p data := by
  refine ⟨h, fun offset => ?_⟩
  obtain ⟨i, hfind, hdir, hcontents⟩ := h
  unfold handleRead
  rw [find_trimNull, hfind]
  simp only [hdir, Bool.false_eq_true, if_false, hcontents]

/-! ### One session -/

/-- The session writes the file at the path, and has written `data` so far. -/
structure Writing (s : Server) (path data : Bytes) (i : Fin maxNodes) : Prop where
  ws : s.ws = some ⟨i, data.length⟩
  find : Mutable.find s.nodes path = some i
  isDir : (s.nodes.get i).isDir = false
  contents : (s.nodes.get i).contents = data

/-- The files at other names are left alone. -/
def KeepsOthers (path : Bytes) (s s' : Server) : Prop :=
  ∀ q data, canon (trimNull q) ≠ canon (trimNull path) → s.HoldsFile q data → s'.HoldsFile q data

theorem KeepsOthers.trans {s₁ s₂ s₃ : Server} (h₁ : KeepsOthers p s₁ s₂) (h₂ : KeepsOthers p s₂ s₃) :
    KeepsOthers p s₁ s₃ := fun q data hne h => h₂ q data hne (h₁ q data hne h)

/-- A new node at another name changes nothing at this one. -/
theorem holdsFile_set {nodes : Nodes} {table : FdTable} {ws : Option WriteSession} {i : Fin maxNodes} {n : MutNode}
    (h : s.HoldsFile q data) (hnodes : nodes = s.nodes.set i n) (hold : Mutable.isAt (canon (trimNull q)) (s.nodes.get i) = false)
    (hnew : Mutable.isAt (canon (trimNull q)) n = false) : HoldsFile ⟨nodes, table, ws⟩ q data := by
  obtain ⟨j, hfind, hdir, hcontents⟩ := h
  have hne : j ≠ i := by
    rintro rfl
    rw [Slots.first_spec hfind] at hold
    cases hold
  have hsame : Mutable.find nodes q = Mutable.find s.nodes q := by
    unfold Mutable.find
    refine Slots.first_congr fun k => ?_
    rw [hnodes, Slots.get_set]
    split
    · rename_i hk
      rw [hk, hnew, hold]
    · rfl
  refine ⟨j, hsame.trans hfind, ?_, ?_⟩
  · simp only [hnodes, Slots.get_set_of_ne _ hne]
    exact hdir
  · simp only [hnodes, Slots.get_set_of_ne _ hne]
    exact hcontents

theorem isAt_eq_false {n : MutNode} (h : canon n.path ≠ p) : Mutable.isAt p n = false := by
  unfold Mutable.isAt
  simp [h]

/-- The node of a path does not stand at another name. -/
theorem isAt_of_find {nodes : Nodes} {i : Fin maxNodes} (h : Mutable.find nodes p = some i)
    (hne : canon (trimNull q) ≠ canon (trimNull p)) : Mutable.isAt (canon (trimNull q)) (nodes.get i) = false := by
  have hat := Slots.first_spec h
  unfold Mutable.isAt at hat
  rw [Bool.and_eq_true, decide_eq_true_eq] at hat
  exact isAt_eq_false (hat.2 ▸ hne.symm)

/-- A node that takes the place of the one at the path is the one at the path. -/
theorem find_set_self {nodes : Nodes} {i : Fin maxNodes} {n : MutNode} (h : Mutable.find nodes p = some i)
    (hn : Mutable.isAt (canon (trimNull p)) n = true) : Mutable.find (nodes.set i n) p = some i := by
  unfold Mutable.find at h ⊢
  rw [← h]
  refine Slots.first_congr fun k => ?_
  rw [Slots.get_set]
  split
  · rename_i hk
    rw [hk, hn, Slots.first_spec h]
  · rfl

/-- Opening a session empties the file, or makes one. -/
theorem writeOpen_ok {flags : Byte} (h : s.handleWriteOpen env flags p = (s', .ok)) (hp : OneSlash p) :
    (∃ i, s'.Writing p [] i) ∧ KeepsOthers p s s' := by
  unfold handleWriteOpen at h
  split at h
  · cases h
  · split at h
    · cases h
    · rename_i hdir
      split at h
      · cases h
      · rename_i nodes i halloc
        rw [Prod.mk.injEq] at h
        obtain ⟨rfl, -⟩ := h
        have hnil : (nodes.get i).truncate.contents = [] := rfl
        cases hfind : Mutable.find s.nodes (trimNull p) with
        | some j =>
          rw [Mutable.alloc_of_find hfind, Option.some.injEq, Prod.mk.injEq] at halloc
          obtain ⟨rfl, rfl⟩ := halloc
          rw [hfind, Option.any_some, Bool.not_eq_true] at hdir
          rw [find_trimNull] at hfind
          have hat : Mutable.isAt (canon (trimNull p)) (s.nodes.get j).truncate = true := Slots.first_spec hfind
          refine ⟨⟨j, rfl, find_set_self hfind hat, ?_, ?_⟩, fun q data hne hq => ?_⟩
          · simp only [Mutable.truncate, Slots.get_set_self]
            exact hdir
          · simp only [Mutable.truncate, Slots.get_set_self]
            exact hnil
          · have hold := isAt_of_find hfind hne
            exact holdsFile_set hq rfl hold hold
        | none =>
          obtain ⟨-, hfree, n, rfl, hpath, hflags, -, hused, -⟩ := Mutable.alloc_of_find_none hfind halloc
          rw [trimNull_trimNull] at hpath
          rw [find_trimNull] at hfind
          have hset : Mutable.truncate (s.nodes.set i n) i = s.nodes.set i n.truncate := by
            unfold Mutable.truncate
            rw [Slots.get_set_self, Slots.set_set]
          have hat : Mutable.isAt (canon (trimNull p)) n.truncate = true := by
            unfold Mutable.isAt MutNode.truncate
            simp only [hused, hpath, Bool.true_and, decide_eq_true_eq]
            exact hp
          refine ⟨⟨i, rfl, ?_, ?_, ?_⟩, fun q data hne hq => ?_⟩
          · simp only [hset]
            refine Slots.first_eq_some_of_unique (by rw [Slots.get_set_self]; exact hat) fun j hj => ?_
            by_contra hji
            rw [Slots.get_set_of_ne _ hji, Slots.first_eq_none_iff.1 hfind j] at hj
            cases hj
          · simp only [hset, Slots.get_set_self]
            unfold MutNode.isDir MutNode.truncate
            simp only [hflags, flagDir]
            generalize flags = f
            revert f
            decide
          · simp only [hset, Slots.get_set_self]
            rfl
          · have hold : Mutable.isAt (canon (trimNull q)) (s.nodes.get i) = false := by
              unfold Mutable.isAt
              rw [hfree]
              rfl
            have hnew : Mutable.isAt (canon (trimNull q)) n.truncate = false := by
              refine isAt_eq_false ?_
              change canon n.path ≠ _
              rw [hpath]
              exact fun heq => hne (heq.symm.trans hp)
            exact holdsFile_set hq hset hold hnew

/-- A write at the end of a file appends. -/
theorem contents_write_end (n : MutNode) (src : Bytes) (h : n.dlen + src.length ≤ maxData) :
    (n.write n.dlen src h).contents = n.contents ++ src := by
  have hlen : (n.write n.dlen src h).dlen = n.dlen + src.length := by
    rw [MutNode.dlen_write]
    split <;> omega
  refine List.ext_getElem (by simp) fun k hk hk' => ?_
  simp only [MutNode.length_contents, hlen] at hk
  rw [List.getElem_append]
  simp only [MutNode.contents, List.getElem_map, List.getElem_range, List.length_map, List.length_range, MutNode.write]
  by_cases hlt : k < n.dlen
  · rw [dif_pos hlt, if_neg (by omega)]
  · have hin : k - n.dlen < src.length := by omega
    rw [dif_neg hlt, if_pos (by omega), List.getD_eq_getElem?_getD, List.getElem?_eq_getElem hin]
    rfl

/-- A chunk is added at the end. -/
theorem Writing.writeData {i : Fin maxNodes} {chunkLen : Nat} {bytes : Bytes} (h : s.Writing p data i)
    (hbytes : bytes.length = chunkSize) (hok : s.handleWriteData chunkLen bytes = (s', .ok)) :
    s'.Writing p (data ++ bytes.take (min chunkLen chunkSize)) i ∧ KeepsOthers p s s' := by
  unfold handleWriteData at hok
  rw [h.ws] at hok
  dsimp only at hok
  split at hok
  · cases hok
  · rename_i nodes hwrite
    rw [Prod.mk.injEq] at hok
    obtain ⟨rfl, -⟩ := hok
    have hlen : (s.nodes.get i).dlen = data.length := by rw [← h.contents, MutNode.length_contents]
    have hvalid : (bytes.take (min chunkLen chunkSize)).length = min chunkLen chunkSize := by
      rw [List.length_take, hbytes]
      omega
    unfold Mutable.writeChunk at hwrite
    rw [← hlen] at hwrite
    split at hwrite
    · rename_i hfits
      rw [Option.some.injEq] at hwrite
      subst hwrite
      have hat : Mutable.isAt (canon (trimNull p)) (s.nodes.get i) = true := Slots.first_spec h.find
      refine ⟨⟨?_, find_set_self h.find hat, ?_, ?_⟩, fun q d hne hq => ?_⟩
      · rw [List.length_append, hvalid]
      · simp only [Slots.get_set_self]
        exact h.isDir
      · simp only [Slots.get_set_self]
        rw [contents_write_end, h.contents]
      · have hold := isAt_of_find h.find hne
        exact holdsFile_set hq rfl hold hold
    · cases hwrite

theorem writeClose_ok (h : s.handleWriteClose = (s', .ok)) :
    s.ws.isSome = true ∧ s'.ws = none ∧ ∀ q data, s.HoldsFile q data → s'.HoldsFile q data := by
  unfold handleWriteClose at h
  split at h
  · cases h
  · rename_i w hws
    rw [Prod.mk.injEq] at h
    obtain ⟨rfl, -⟩ := h
    exact ⟨by rw [hws]; rfl, rfl, fun q data hq => hq⟩

/-! ### Runs -/

variable {es : List (Message × List Reply)} {req : Message} {chunks : List (Nat × Bytes)} {a b : Nat}

theorem length_of_writeData {words : Vector Word dataFields} {chunkLen : Nat} {bytes : Bytes}
    (h : Request.decode words = .writeData chunkLen bytes) : bytes.length = chunkSize := by
  unfold Request.decode at h
  simp only at h
  split at h <;> cases h
  exact length_unpackBytesFrom words 2

theorem eq_of_map {out : Server × Reply} (h : some (out.map id fun r => [r]) = some (s', [Reply.ok])) : out = (s', .ok) := by
  obtain ⟨t, r⟩ := out
  simp only [Prod.map_apply, id_eq, Option.some.injEq, Prod.mk.injEq, List.cons.injEq, and_true] at h
  rw [h.1, h.2]

/-- The rest of a session, from the middle of it. -/
theorem Writing.run {G : Server → Message → Prop} {i : Fin maxNodes} (h : s.Writing p data i) (hrun : Run (dispatch env) G s es s')
    (hok : ∀ e ∈ es, e.2 = [.ok]) (hreqs : requests es = chunks.map (fun c => .writeData c.1 c.2) ++ [.writeClose]) :
    s'.HoldsFile p (data ++ written chunks) ∧ KeepsOthers p s s' := by
  induction chunks generalizing s data es with
  | nil =>
    obtain ⟨e, rfl, hreq⟩ := List.map_eq_singleton_iff.1 hreqs
    obtain ⟨t, -, hstep, hrest⟩ := hrun.head
    rw [hrest.eq_of_nil]
    rw [hok e List.mem_cons_self] at hstep
    unfold dispatch at hstep
    rw [hreq] at hstep
    obtain ⟨-, -, hkeeps⟩ := writeClose_ok (eq_of_map hstep)
    refine ⟨?_, fun q d _ hq => hkeeps q d hq⟩
    have hnil : written [] = [] := rfl
    rw [hnil, List.append_nil]
    exact hkeeps p data ⟨i, h.find, h.isDir, h.contents⟩
  | cons c chunks ih =>
    rw [List.map_cons, List.cons_append] at hreqs
    obtain ⟨e, es, rfl, hreq, hrest⟩ := List.map_eq_cons_iff.1 hreqs
    obtain ⟨t, -, hstep, hrun'⟩ := hrun.head
    rw [hok e List.mem_cons_self] at hstep
    unfold dispatch at hstep
    rw [hreq] at hstep
    obtain ⟨hwriting, hkeeps⟩ := h.writeData (length_of_writeData hreq) (eq_of_map hstep)
    obtain ⟨hholds, hkeeps'⟩ := ih hwriting hrun' (fun x hx => hok x (List.mem_cons_of_mem e hx)) hrest
    have hcons : written (c :: chunks) = c.2.take (min c.1 chunkSize) ++ written chunks := rfl
    rw [hcons, ← List.append_assoc]
    exact ⟨hholds, hkeeps.trans hkeeps'⟩

/-- A session in which every request succeeds writes its file, and no other. -/
theorem session_ok {G : Server → Message → Prop} {flags : Byte} (hrun : Run (dispatch env) G s es s')
    (hok : ∀ e ∈ es, e.2 = [.ok]) (hreqs : requests es = session flags p chunks) (hp : OneSlash p) :
    s'.HoldsFile p (written chunks) ∧ KeepsOthers p s s' := by
  unfold session at hreqs
  rw [List.cons_append] at hreqs
  obtain ⟨e, es, rfl, hreq, hrest⟩ := List.map_eq_cons_iff.1 hreqs
  obtain ⟨t, -, hstep, hrun'⟩ := hrun.head
  rw [hok e List.mem_cons_self] at hstep
  unfold dispatch at hstep
  rw [hreq] at hstep
  obtain ⟨⟨i, hwriting⟩, hkeeps⟩ := writeOpen_ok (eq_of_map hstep) hp
  obtain ⟨hholds, hkeeps'⟩ := hwriting.run hrun' (fun x hx => hok x (List.mem_cons_of_mem e hx)) hrest
  exact ⟨hholds, hkeeps.trans hkeeps'⟩

/-! ### Sessions do not overlap -/

/-- Without an open a session is closed once at most. -/
theorem closes_le_one {G : Server → Message → Prop} (hrun : Run (dispatch env) G s es s')
    (h : ∀ e ∈ es, e.2 = [.ok] ∧ (Request.decode e.1.data = .writeClose ∨
      ∃ n bytes, Request.decode e.1.data = .writeData n bytes)) :
    (requests es).count .writeClose + (if s'.ws.isSome then 1 else 0) ≤ 1 := by
  induction hrun with
  | nil =>
    simp only [requests, List.map_nil, List.count_nil]
    split <;> omega
  | @snoc t u es req replies hrun hguard hstep ih =>
    have hprev := ih fun e he => h e (List.mem_append_left _ he)
    obtain ⟨hok, hreq⟩ := h (req, replies) (List.mem_append_right _ List.mem_cons_self)
    simp only at hok hreq
    subst hok
    unfold requests at hprev ⊢
    rw [List.map_append, List.count_append, List.map_singleton]
    unfold dispatch at hstep
    rcases hreq with hclose | ⟨n, bytes, hdata⟩
    · rw [hclose] at hstep ⊢
      obtain ⟨hopen, hnone, -⟩ := writeClose_ok (eq_of_map hstep)
      rw [hopen] at hprev
      rw [hnone, List.count_singleton_self]
      simp only [if_true, Option.isSome_none, Bool.false_eq_true, if_false] at hprev ⊢
      omega
    · rw [hdata] at hstep ⊢
      have hsome : u.ws.isSome = true → t.ws.isSome = true := by
        have hwrite := eq_of_map hstep
        unfold handleWriteData at hwrite
        split at hwrite
        · cases hwrite
        · rename_i hws
          intro _
          rw [hws]
          rfl
      have hzero : List.count Request.writeClose [Request.writeData n bytes] = 0 := by simp
      rw [hzero]
      split
      · rename_i hu
        rw [if_pos (hsome hu)] at hprev
        omega
      · omega

theorem ofClient_append (client : Nat) (es fs : List (Message × List Reply)) :
    ofClient client (es ++ fs) = ofClient client es ++ ofClient client fs := List.filter_append ..

theorem ofClient_eq_self (h : ∀ e ∈ es, e.1.sender = a) : ofClient a es = es := by
  unfold ofClient
  rw [List.filter_eq_self]
  intro e he
  simp [h e he]

theorem ofClient_eq_nil (h : ∀ e ∈ es, e.1.sender = b) (hab : a ≠ b) : ofClient a es = [] := by
  unfold ofClient
  rw [List.filter_eq_nil_iff]
  intro e he
  simp [h e he, hab.symm]

theorem mem_requests {e : Message × List Reply} (h : e ∈ es) (ha : e.1.sender = a) :
    Request.decode e.1.data ∈ requests (ofClient a es) :=
  List.mem_map_of_mem (List.mem_filter.2 ⟨h, by simp [ha]⟩)

/-- A request of two clients is counted with one of them. -/
theorem count_requests (hab : a ≠ b) (h : ∀ e ∈ es, e.1.sender = a ∨ e.1.sender = b) (r : Request) :
    (requests es).count r = (requests (ofClient a es)).count r + (requests (ofClient b es)).count r := by
  induction es with
  | nil => rfl
  | cons e es ih =>
    have hrest := ih fun x hx => h x (List.mem_cons_of_mem e hx)
    unfold requests ofClient at hrest ⊢
    rcases h e List.mem_cons_self with ha | hb
    · rw [List.filter_cons_of_pos (by simp [ha]), List.filter_cons_of_neg (by simp [ha, hab])]
      simp only [List.map_cons, List.count_cons]
      omega
    · rw [List.filter_cons_of_neg (by simp [hb, hab.symm]), List.filter_cons_of_pos (by simp [hb])]
      simp only [List.map_cons, List.count_cons]
      omega

/-- What is left of a session after its first request ends in a close, if anything is left, and has no open. -/
theorem rest_of_session {flags : Byte} (r : Request) (pre suf : List Request)
    (h : r :: pre ++ suf = session flags p chunks) :
    (∀ x ∈ suf, x = .writeClose ∨ ∃ n bytes, x = .writeData n bytes) ∧ (suf ≠ [] → 1 ≤ suf.count .writeClose) := by
  unfold session at h
  rw [List.cons_append, List.cons_append, List.cons.injEq] at h
  refine ⟨fun x hx => ?_, fun hne => ?_⟩
  · have hmem : x ∈ chunks.map (fun c => Request.writeData c.1 c.2) ++ [.writeClose] :=
      h.2 ▸ List.mem_append_right pre hx
    rcases List.mem_append.1 hmem with hdata | hclose
    · obtain ⟨c, -, rfl⟩ := List.mem_map.1 hdata
      exact .inr ⟨_, _, rfl⟩
    · exact .inl (List.mem_singleton.1 hclose)
  · have hlast : suf.getLast? = some .writeClose := by
      have hwhole := congrArg List.getLast? h.2
      rw [List.getLast?_append, List.getLast?_append] at hwhole
      obtain ⟨x, hx⟩ := Option.ne_none_iff_exists'.1 (mt List.getLast?_eq_none_iff.1 hne)
      rw [hx] at hwhole ⊢
      simpa using hwhole
    exact List.count_pos_iff.2 (List.mem_of_getLast? hlast)

/-- If a session begins and both succeed, it comes to its end before the other begins. -/
theorem serial_of_head {G : Server → Message → Prop} {e : Message × List Reply} {fa fb : Byte} {ca cb : List (Nat × Bytes)}
    (hrun : Run (dispatch env) G s (e :: es) s') (hok : ∀ x ∈ e :: es, x.2 = [.ok]) (hab : a ≠ b)
    (hsenders : ∀ x ∈ e :: es, x.1.sender = a ∨ x.1.sender = b) (he : e.1.sender = a)
    (ha : requests (ofClient a (e :: es)) = session fa p ca) (hb : requests (ofClient b (e :: es)) = session fb q cb) :
    e :: es = ofClient a (e :: es) ++ ofClient b (e :: es) := by
  cases hfirst : es.find? fun x => x.1.sender == b with
  | none =>
    exfalso
    have hnil : ofClient b (e :: es) = [] := by
      unfold ofClient
      rw [List.filter_eq_nil_iff]
      intro x hx
      rcases List.mem_cons.1 hx with rfl | hx
      · simp [he, hab]
      · exact List.find?_eq_none.1 hfirst x hx
    rw [hnil] at hb
    cases hb
  | some f =>
    obtain ⟨hf, pre, suf, rfl, hpre⟩ := List.find?_eq_some_iff_append.1 hfirst
    have hfb : f.1.sender = b := by simpa using hf
    -- the events before the first one of the other client
    have hhead : ∀ x ∈ e :: pre, x.1.sender = a := by
      intro x hx
      rcases List.mem_cons.1 hx with rfl | hx
      · exact he
      · rcases hsenders x (List.mem_cons_of_mem _ (List.mem_append_left _ hx)) with h | h
        · exact h
        · have := hpre x hx
          simp [h] at this
    have hcut : e :: (pre ++ f :: suf) = (e :: pre) ++ f :: suf := rfl
    have hla : ofClient a (e :: (pre ++ f :: suf)) = (e :: pre) ++ ofClient a suf := by
      have hskip : ofClient a (f :: suf) = ofClient a suf := by
        unfold ofClient
        rw [List.filter_cons_of_neg (by simp [hfb, hab.symm])]
      rw [hcut, ofClient_append, ofClient_eq_self hhead, hskip]
    have hlb : ofClient b (e :: (pre ++ f :: suf)) = f :: ofClient b suf := by
      have hkeep : ofClient b (f :: suf) = f :: ofClient b suf := by
        unfold ofClient
        rw [List.filter_cons_of_pos (by simp [hfb])]
      rw [hcut, ofClient_append, ofClient_eq_nil hhead hab.symm, hkeep, List.nil_append]
    have hsuf : ∀ x ∈ suf, x.1.sender = a ∨ x.1.sender = b := fun x hx =>
      hsenders x (List.mem_cons_of_mem _ (List.mem_append_right _ (List.mem_cons_of_mem _ hx)))
    rw [hla] at ha ⊢
    rw [hlb] at hb ⊢
    obtain ⟨hrestA, hcloseA⟩ := rest_of_session (.decode e.1.data) (requests pre)
      (requests (ofClient a suf)) (by rw [← ha]; simp [requests])
    obtain ⟨hrestB, hcloseB⟩ := rest_of_session (.decode f.1.data) []
      (requests (ofClient b suf)) (by rw [← hb]; simp [requests])
    have hopenB : requests (ofClient b suf) ≠ [] := by
      intro hnil
      have hlen := congrArg List.length hb
      have hnil' := congrArg List.length hnil
      simp only [requests, session, List.length_map, List.length_cons, List.length_append, List.length_nil] at hlen hnil'
      omega
    have hcount := count_requests hab hsuf .writeClose
    have hdone : requests (ofClient a suf) = [] := by
      by_contra hopenA
      have hA := hcloseA hopenA
      have hB := hcloseB hopenB
      obtain ⟨t, -, hrest⟩ := (show Run (dispatch env) G s ((e :: pre ++ [f]) ++ suf) s' by simpa using hrun).split
      have hone := closes_le_one hrest fun x hx => by
        refine ⟨hok x (List.mem_cons_of_mem _ (List.mem_append_right _ (List.mem_cons_of_mem _ hx))), ?_⟩
        rcases hsuf x hx with hxa | hxb
        · exact hrestA _ (mem_requests hx hxa)
        · exact hrestB _ (mem_requests hx hxb)
      omega
    have hnoneA : ofClient a suf = [] := List.map_eq_nil_iff.1 hdone
    have hallB : ofClient b suf = suf := by
      refine ofClient_eq_self fun x hx => ?_
      rcases hsuf x hx with hxa | hxb
      · have hmem := mem_requests hx hxa
        rw [hdone] at hmem
        cases hmem
      · exact hxb
    rw [hnoneA, hallB, List.append_nil]
    rfl

/-- Two sessions that stand one behind the other write both files. -/
theorem both_written {G : Server → Message → Prop} {fa fb : Byte} {ca cb : List (Nat × Bytes)}
    {fs gs : List (Message × List Reply)} (hrun : Run (dispatch env) G s (fs ++ gs) s') (hok : ∀ x ∈ fs ++ gs, x.2 = [.ok])
    (ha : requests fs = session fa p ca) (hb : requests gs = session fb q cb)
    (hne : canon (trimNull p) ≠ canon (trimNull q)) (hp : OneSlash p) (hq : OneSlash q) :
    ReadsFile env s' p (written ca) ∧ ReadsFile env s' q (written cb) := by
  obtain ⟨t, hfirst, hsecond⟩ := hrun.split
  obtain ⟨hpt, -⟩ := session_ok hfirst (fun x hx => hok x (List.mem_append_left _ hx)) ha hp
  obtain ⟨hqs, hkeeps⟩ := session_ok hsecond (fun x hx => hok x (List.mem_append_right _ hx)) hb hq
  exact ⟨(hkeeps p _ hne hpt).reads, hqs.reads⟩

/-- If every request of two clients that write different files succeeds, one session stands behind the other, and each
file contains what its own client has written. -/
theorem sessions_serial (env : Env) {fa fb : Byte} {ca cb : List (Nat × Bytes)}
    (hrun : Run (dispatch env) (fun _ _ => True) s es s') (hab : a ≠ b)
    (hsenders : ∀ x ∈ es, x.1.sender = a ∨ x.1.sender = b)
    (ha : requests (ofClient a es) = session fa p ca) (hb : requests (ofClient b es) = session fb q cb)
    (hok : ∀ x ∈ es, x.2 = [.ok]) (hne : canon (trimNull p) ≠ canon (trimNull q)) (hp : OneSlash p) (hq : OneSlash q) :
    ReadsFile env s' p (written ca) ∧ ReadsFile env s' q (written cb) ∧
      (es = ofClient a es ++ ofClient b es ∨ es = ofClient b es ++ ofClient a es) := by
  cases es with
  | nil => cases ha
  | cons e es =>
    rcases hsenders e List.mem_cons_self with he | he
    · have hserial := serial_of_head hrun hok hab hsenders he ha hb
      rw [hserial] at hrun hok
      obtain ⟨hpr, hqr⟩ := both_written hrun hok ha hb hne hp hq
      exact ⟨hpr, hqr, .inl hserial⟩
    · have hserial := serial_of_head hrun hok hab.symm (fun x hx => (hsenders x hx).symm) he hb ha
      rw [hserial] at hrun hok
      obtain ⟨hqr, hpr⟩ := both_written hrun hok hb ha hne.symm hq hp
      exact ⟨hpr, hqr, .inr hserial⟩

/-- The path in the words of a message. -/
def wordPath (w : Word) : Bytes := unpackPath #v[0, 0, w, 0, 0, 0, 0, 0]

/-- A client writes one byte to the file at the path. -/
def writeByte (client : Nat) (path byte : Word) : List Message :=
  [⟨client, #v[0x25, 0, path, 0, 0, 0, 0, 0]⟩, ⟨client, #v[0x26, 1, byte, 0, 0, 0, 0, 0]⟩,
    ⟨client, #v[0x27, 0, 0, 0, 0, 0, 0, 0]⟩]

/-- The chunk of such a client. -/
def byteChunk (byte : Word) : List (Nat × Bytes) := [(1, unpackBytesFrom #v[0, 0, byte, 0, 0, 0, 0, 0] 2)]

/-- Process 9 writes `a` to one file, and then process 10 writes `b` to another. -/
def oneByOne (p q : Word) : List Message := writeByte 9 p 0x61 ++ writeByte 10 q 0x62

/-- `/f`, `/g` and `/f/`. -/
def pathF : Word := 0x662F
def pathG : Word := 0x672F
def pathF' : Word := 0x2F662F

private def succeeds (p q : Word) (es : List (Message × List Reply)) : Bool :=
  decide (requests (ofClient 9 es) = session 0 (wordPath p) (byteChunk 0x61) ∧
    requests (ofClient 10 es) = session 0 (wordPath q) (byteChunk 0x62)) &&
  es.all fun x => decide ((x.1.sender = 9 ∨ x.1.sender = 10) ∧ x.2 = [.ok])

private theorem run_of_succeeds (p q : Word) (test : Server → Bool)
    (h : (exec (dispatch bareEnv) (fun _ _ => True) new (oneByOne p q)).any
      (fun out => succeeds p q out.2 && test out.1) = true) :
    ∃ es t, Run (dispatch bareEnv) (fun _ _ => True) new es t ∧ (∀ x ∈ es, x.1.sender = 9 ∨ x.1.sender = 10) ∧
      requests (ofClient 9 es) = session 0 (wordPath p) (byteChunk 0x61) ∧
      requests (ofClient 10 es) = session 0 (wordPath q) (byteChunk 0x62) ∧ (∀ x ∈ es, x.2 = [.ok]) ∧ test t = true := by
  obtain ⟨⟨t, es⟩, hrun, hout⟩ := (Option.any_eq_true _ _).1 h
  rw [Bool.and_eq_true] at hout
  unfold succeeds at hout
  rw [Bool.and_eq_true, List.all_eq_true] at hout
  obtain ⟨⟨hreqs, hall⟩, htest⟩ := hout
  obtain ⟨ha, hb⟩ := of_decide_eq_true hreqs
  exact ⟨es, t, run_of_exec hrun, fun x hx => (of_decide_eq_true (hall x hx)).1, ha, hb,
    fun x hx => (of_decide_eq_true (hall x hx)).2, htest⟩

theorem sessions_serial_fg : ∃ es s, Run (dispatch bareEnv) (fun _ _ => True) new es s ∧
    ReadsFile bareEnv s (wordPath pathF) (ascii "a") ∧ ReadsFile bareEnv s (wordPath pathG) (ascii "b") ∧
    (es = ofClient 9 es ++ ofClient 10 es ∨ es = ofClient 10 es ++ ofClient 9 es) := by
  obtain ⟨es, t, hrun, hsenders, ha, hb, hok, -⟩ :=
    run_of_succeeds pathF pathG (fun _ => true) (by decide +kernel)
  obtain ⟨hp, hq, hserial⟩ := sessions_serial bareEnv hrun (by decide) hsenders ha hb hok (by decide +kernel)
    (by decide) (by decide +kernel)
  exact ⟨es, t, hrun, hp, hq, hserial⟩

/-- The sessions of two clients that write to `/f` and `/f/` succeed, and the second has emptied the file of the
first. -/
theorem sessions_mix : ∃ es s, Run (dispatch bareEnv) (fun _ _ => True) new es s ∧
    (∀ x ∈ es, x.1.sender = 9 ∨ x.1.sender = 10) ∧ trimNull (wordPath pathF) ≠ trimNull (wordPath pathF') ∧
    requests (ofClient 9 es) = session 0 (wordPath pathF) (byteChunk 0x61) ∧
    requests (ofClient 10 es) = session 0 (wordPath pathF') (byteChunk 0x62) ∧ (∀ x ∈ es, x.2 = [.ok]) ∧
    ¬ ReadsFile bareEnv s (wordPath pathF) (written (byteChunk 0x61)) := by
  obtain ⟨es, t, hrun, hsenders, ha, hb, hok, htest⟩ :=
    run_of_succeeds pathF pathF' (fun t =>
      (Mutable.find t.nodes (wordPath pathF)).any fun i => decide ((t.nodes.get i).contents = ascii "b")) (by decide +kernel)
  refine ⟨es, t, hrun, hsenders, by decide, ha, hb, hok, ?_⟩
  rintro ⟨⟨i, hfind, -, hcontents⟩, -⟩
  rw [hfind, Option.any_some, decide_eq_true_eq, hcontents] at htest
  exact absurd htest (by decide +kernel)

end Server

end Rost.Vfs
