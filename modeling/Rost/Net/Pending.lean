import Rost.Net.Sides

/-!
# What the handlers do to a connect and to a ping

A request is due until it is answered: `due` counts the answers that a process has got and the one that it waits for.  It
grows with a request and never else.  A SYN goes to the port of the connection, whatever the pending connect says.
-/

namespace Rost.Net

open Lib (unpackWords)
open Segment

theorem TcpConn.connect_open {conn : TcpConn} (h : conn.state ≠ .closed) (ip : Ip) (remotePort localPort : BitVec 16) (pid : Nat) :
    conn.connect ip remotePort localPort pid = (conn, 0xFF) := if_pos h

theorem TcpConn.connect_closed {conn : TcpConn} (h : conn.state = .closed) (ip : Ip) (remotePort localPort : BitVec 16)
    (pid : Nat) :
    conn.connect ip remotePort localPort pid =
      (⟨.synSent, localPort, remotePort, ip, initialSeq, 0, 1, pid, []⟩, 1) := if_neg (not_not.2 h)

/-! ### Requests and answers -/

/-- If `sm'` is pending, then `sm` was, and its deadline stands. -/
def TcpSm.Waits (sm sm' : TcpSm) : Prop := sm'.state ≠ .idle → sm.state ≠ .idle ∧ sm'.deadline = sm.deadline

/-- If `ping'` is pending, then `ping` was, and its deadline stands. -/
def PingSm.Waits (ping ping' : PingSm) : Prop := ping'.state ≠ .idle → ping.state ≠ .idle ∧ ping'.deadline = ping.deadline

/-- How many answers to a connect the process has got or will get. -/
def ConnectSide.due (c : ConnectSide) (pid : Nat) : Nat := c.answers pid + if c.sm.state ≠ .idle ∧ c.sm.sender = pid then 1 else 0

/-- How many answers to a ping the process has got or will get. -/
def PingSide.due (p : PingSide) (pid : Nat) : Nat := p.answers pid + if p.ping.state ≠ .idle ∧ p.ping.sender = pid then 1 else 0

namespace World

theorem answers_replyData (w : World) (sender pid : Nat) (op val : Word) :
    (w.replyData sender op val).answers op pid = w.answers op pid + if sender = pid then 1 else 0 := by
  refine (answers_reply w sender #v[op, val, 0, 0, 0, 0, 0, 0] op pid).trans ?_
  exact congrArg (w.answers op pid + ·) (if_congr (and_iff_left rfl) rfl rfl)

theorem pingDue_replyData (w : World) (sender pid : Nat) (val : Word) :
    (w.replyData sender opNetPing val).pingSide.due pid = w.pingSide.due pid + if sender = pid then 1 else 0 := by
  show (w.replyData sender opNetPing val).answers opNetPing pid + _ = _
  rw [answers_replyData, Nat.add_right_comm]
  rfl

/-- The pending ping is answered. -/
theorem pingDue_settle {w : World} (h : w.server.ping.state ≠ .idle) (pid : Nat) (val : Word) :
    ((w.withPing { w.server.ping with state := .idle }).replyData w.server.ping.sender opNetPing val).pingSide.due pid =
      w.pingSide.due pid := by
  rw [pingDue_replyData]
  simp [PingSide.due, pingSide, withPing, answers, h]

/-- A ping is begun. -/
theorem pingDue_begin {w : World} (h : w.server.ping.state = .idle) {p : PingSm} (hp : p.state ≠ .idle) (pid : Nat) :
    (w.withPing p).pingSide.due pid = w.pingSide.due pid + if p.sender = pid then 1 else 0 := by
  simp [PingSide.due, pingSide, withPing, answers, h, hp]

/-- A ping goes on. -/
theorem pingDue_continue {w : World} {p : PingSm} (h : p.state ≠ .idle ↔ w.server.ping.state ≠ .idle)
    (hp : p.sender = w.server.ping.sender) (pid : Nat) : (w.withPing p).pingSide.due pid = w.pingSide.due pid := by
  show w.answers opNetPing pid + (if p.state ≠ .idle ∧ p.sender = pid then 1 else 0) = _
  rw [hp]
  exact congrArg (w.answers opNetPing pid + ·) (if_congr (and_congr_left' h) rfl rfl)

@[simp] theorem ping_buildAndSendIcmpRequest (e : Env) (w : World) (ip : Ip) (mac : Mac) :
    (w.buildAndSendIcmpRequest e ip mac).1.pingSide = w.pingSide := by
  unfold buildAndSendIcmpRequest
  dsimp only
  rw [pingSide_sendFrame, pingSide_ipFrame]

theorem ping_of_pingSide {w v : World} (h : w.pingSide = v.pingSide) : w.server.ping = v.server.ping := congrArg PingSide.ping h

theorem pingDue_handlePing (e : Env) (w : World) (msg : Message) (pid : Nat) :
    (w.handlePing e msg).pingSide.due pid = w.pingSide.due pid + if msg.sender = pid then 1 else 0 := by
  unfold handlePing
  dsimp only
  split
  · exact pingDue_replyData ..
  · rename_i hidle
    rw [not_not] at hidle
    split
    · rename_i mac _
      have hside := ping_buildAndSendIcmpRequest e w.advancePingSeq (toLeBytes ((msg.getData 1).setWidth 32)) mac
      have hping := ping_of_pingSide hside
      have hdue : w.advancePingSeq.pingSide.due pid = w.pingSide.due pid := pingDue_continue Iff.rfl rfl pid
      split
      · refine (pingDue_begin ?_ ?_ pid).trans ?_
        · rw [hping]
          exact hidle
        · exact PingState.noConfusion
        · rw [hside, hdue]
      · rw [pingDue_replyData, hside, hdue]
    · split
      · exact pingDue_replyData ..
      · refine (pingDue_begin ?_ ?_ pid).trans ?_
        · exact hidle
        · exact PingState.noConfusion
        · rw [pingSide_sendPacket]

theorem pingDue_resumePing (e : Env) (w : World) (pid : Nat) : (w.resumePing e).pingSide.due pid = w.pingSide.due pid := by
  unfold resumePing
  dsimp only
  split
  · rfl
  · rename_i hwait
    rw [not_not] at hwait
    split
    · rfl
    · rename_i mac _
      have hside := ping_buildAndSendIcmpRequest e w.advancePingSeq (toLeBytes w.server.ping.targetIp) mac
      have hping := ping_of_pingSide hside
      have hdue : w.advancePingSeq.pingSide.due pid = w.pingSide.due pid := pingDue_continue Iff.rfl rfl pid
      have hpending : (w.advancePingSeq.buildAndSendIcmpRequest e (toLeBytes w.server.ping.targetIp) mac).1.server.ping.state ≠
          .idle := by
        rw [hping]
        show w.server.ping.state ≠ _
        rw [hwait]
        exact PingState.noConfusion
      split
      · refine (pingDue_continue ⟨fun _ => hpending, fun _ => PingState.noConfusion⟩ ?_ pid).trans ?_
        · rfl
        · rw [hside, hdue]
      · have hsender : w.server.ping.sender =
            (w.advancePingSeq.buildAndSendIcmpRequest e (toLeBytes w.server.ping.targetIp) mac).1.server.ping.sender := by
          rw [hping]
          rfl
        rw [hsender, pingDue_settle hpending, hside, hdue]

theorem pingDue_handleIcmpPacket (e : Env) (w : World) (srcIp : Ip) (payload : Bytes) (pid : Nat) :
    (w.handleIcmpPacket e srcIp payload).pingSide.due pid = w.pingSide.due pid := by
  unfold handleIcmpPacket
  dsimp only
  split
  · rfl
  · split
    · split
      · rfl
      · split
        · rfl
        · rw [pingSide_sendFrame, pingSide_ipFrame]
    · split
      · split
        · rfl
        · rename_i hwait
          rw [not_not] at hwait
          generalize (if 6 ≤ payload.length then be16At payload 4 else 0) = id
          generalize (if 8 ≤ payload.length then be16At payload 6 else 0) = seq
          split
          · exact pingDue_settle (by rw [hwait]; exact PingState.noConfusion) pid _
          · rfl
      · rfl

theorem pingDue_checkPing (e : Env) (w : World) (pid : Nat) : (w.checkPing e).pingSide.due pid = w.pingSide.due pid := by
  unfold checkPing
  dsimp only
  split
  · rename_i hlate
    exact pingDue_settle hlate.1 pid _
  · rfl

theorem connectDue_replyData (w : World) (sender pid : Nat) (val : Word) :
    (w.replyData sender opNetTcpConnect val).connectSide.due pid = w.connectSide.due pid + if sender = pid then 1 else 0 := by
  show (w.replyData sender opNetTcpConnect val).answers opNetTcpConnect pid + _ = _
  rw [answers_replyData, Nat.add_right_comm]
  rfl

@[simp] theorem connectDue_withConn (w : World) (conn : TcpConn) (pid : Nat) :
    (w.withConn conn).connectSide.due pid = w.connectSide.due pid := rfl

theorem syns_replyData (w : World) (sender : Nat) (op val : Word) :
    (w.replyData sender op val).connectSide.syns = w.connectSide.syns := by
  show (w.out ++ [Output.reply sender _]).filterMap Output.synTarget = _
  rw [List.filterMap_append]
  exact List.append_nil _

theorem connectSide_answer {v w : World} (h : v.connectSide = w.connectSide) (sender : Nat) (val : Word) :
    (v.replyData sender opNetTcpConnect val).connectSide = (w.replyData sender opNetTcpConnect val).connectSide := by
  have hself : ∀ u : World, (u.replyData sender opNetTcpConnect val).connectSide =
      { u.connectSide with answers := fun pid => u.connectSide.answers pid + if sender = pid then 1 else 0 } := by
    intro u
    have hsyns : (u.replyData sender opNetTcpConnect val).connectSide.syns = u.connectSide.syns := syns_replyData ..
    have hanswers := funext fun pid => answers_replyData u sender pid opNetTcpConnect val
    show ConnectSide.mk _ _ (u.replyData sender opNetTcpConnect val).connectSide.syns
      ((u.replyData sender opNetTcpConnect val).answers opNetTcpConnect) = _
    rw [hsyns, hanswers]
    rfl
  rw [hself, hself, h]

/-- The pending connect is answered. -/
theorem connectDue_settle {w : World} (h : w.server.tcpSm.state ≠ .idle) (pid : Nat) (val : Word) :
    ((w.withSm { w.server.tcpSm with state := .idle }).replyData w.server.tcpSm.sender opNetTcpConnect val).connectSide.due pid =
      w.connectSide.due pid := by
  rw [connectDue_replyData]
  simp [ConnectSide.due, connectSide, withSm, answers, h]

/-- The pending connect is refused. -/
theorem connectDue_fail {w : World} (h : w.server.tcpSm.state ≠ .idle) (pid : Nat) :
    ((w.withSm { w.server.tcpSm with state := .idle }).tcpSmFail w.server.tcpSm.sender).connectSide.due pid =
      w.connectSide.due pid := by
  unfold tcpSmFail
  rw [connectDue_replyData, connectDue_withConn, ← connectDue_replyData _ _ _ 0xFF, connectDue_settle h]

/-- A connect is begun. -/
theorem connectDue_begin {w : World} (h : w.server.tcpSm.state = .idle) {sm : TcpSm} (hsm : sm.state ≠ .idle) (pid : Nat) :
    (w.withSm sm).connectSide.due pid = w.connectSide.due pid + if sm.sender = pid then 1 else 0 := by
  simp [ConnectSide.due, connectSide, withSm, answers, h, hsm]

/-- A connect goes on. -/
theorem connectDue_continue {w : World} {sm : TcpSm} (h : sm.state ≠ .idle ↔ w.server.tcpSm.state ≠ .idle)
    (hsm : sm.sender = w.server.tcpSm.sender) (pid : Nat) : (w.withSm sm).connectSide.due pid = w.connectSide.due pid := by
  show w.answers opNetTcpConnect pid + (if sm.state ≠ .idle ∧ sm.sender = pid then 1 else 0) = _
  rw [hsm]
  exact congrArg (w.answers opNetTcpConnect pid + ·) (if_congr (and_congr_left' h) rfl rfl)

/-! ### What a SYN does -/

/-- Between `w` and `v` a SYN has been sent, or none, to the address, and to the port of the connection. -/
structure SynSent (w v : World) (ip : Ip) : Prop where
  conn : ∃ seq, v.server.conn = { w.server.conn with seq := seq }
  sm : v.server.tcpSm = w.server.tcpSm
  answers : v.answers opNetTcpConnect = w.answers opNetTcpConnect
  syns : ∀ t ∈ v.connectSide.syns, t ∈ w.connectSide.syns ∨ t = (ip, w.server.conn.remotePort)

theorem synSent_of_connectSide {w v : World} (h : v.connectSide = w.connectSide) (ip : Ip) : SynSent w v ip where
  conn := ⟨w.server.conn.seq, congrArg ConnectSide.conn h⟩
  sm := congrArg ConnectSide.sm h
  answers := congrArg ConnectSide.answers h
  syns := fun _ ht => .inl (h ▸ ht)

theorem SynSent.congr {u v w : World} {ip : Ip} (hs : SynSent u w ip) (h : u.connectSide = v.connectSide) : SynSent v w ip := by
  have hconn : u.server.conn = v.server.conn := congrArg ConnectSide.conn h
  refine ⟨hconn ▸ hs.conn, hs.sm.trans (congrArg ConnectSide.sm h), hs.answers.trans (congrArg ConnectSide.answers h), ?_⟩
  rw [← h, ← hconn]
  exact hs.syns

theorem SynSent.due {w v : World} {ip : Ip} (h : SynSent w v ip) (pid : Nat) :
    v.connectSide.due pid = w.connectSide.due pid := by
  show v.answers opNetTcpConnect pid + (if v.server.tcpSm.state ≠ .idle ∧ v.server.tcpSm.sender = pid then 1 else 0) = _
  rw [h.answers, h.sm]
  rfl

theorem synSent_tcpSmSendSyn (e : Env) (w : World) (ip : Ip) (mac : Mac) : SynSent w (w.tcpSmSendSyn e ip mac).1 ip := by
  unfold tcpSmSendSyn
  dsimp only
  generalize hseg : fillTcpChecksum ourIp ip _ = seg
  generalize hw : w.withConn _ = v
  have hport : dstPort seg = w.server.conn.remotePort := by
    rw [← hseg, dstPort_fillTcpChecksum, dstPort_buildTcp _ _ _ _ _ _ (by decide)]
  have hv : SynSent w v ip := by
    rw [← hw]
    exact ⟨⟨_, rfl⟩, rfl, rfl, fun t ht => .inl ht⟩
  unfold sendFrame
  split
  · exact ⟨hv.conn, hv.sm, hv.answers, hv.syns⟩
  · refine ⟨hv.conn, hv.sm, ?_, fun t ht => ?_⟩
    · rw [answers_sendPacket]
      exact hv.answers
    · have hmem : t ∈ (v.out ++ [Output.frame (v.ipFrame ipProtoTcp ip mac seg).2]).filterMap Output.synTarget := ht
      rw [List.filterMap_append, List.mem_append] at hmem
      rcases hmem with hold | hnew
      · exact hv.syns t hold
      · rw [List.mem_filterMap] at hnew
        obtain ⟨out, hout, htarget⟩ := hnew
        cases List.mem_singleton.1 hout
        rcases synTarget_ipFrame v ipProtoTcp ip mac seg with hnone | ⟨-, -, hsome⟩
        · have hno : synTarget (v.ipFrame ipProtoTcp ip mac seg).2 = some t := htarget
          rw [hnone] at hno
          cases hno
        · have hyes : synTarget (v.ipFrame ipProtoTcp ip mac seg).2 = some t := htarget
          rw [hsome, hport] at hyes
          exact .inr (Option.some.inj hyes).symm

/-! ### What the handlers do to a connect -/

/-- A connect is refused, or it opens the connection for its address and port. -/
theorem handleTcpConnect_cases (e : Env) (w : World) (msg : Message) :
    (∃ v : World, v.connectSide = w.connectSide ∧
      w.handleTcpConnect e msg = v.replyData msg.sender opNetTcpConnect 0xFF) ∨
    (w.server.tcpSm.state = .idle ∧ ∃ v v' : World, v.server.tcpSm = w.server.tcpSm ∧
      v.answers opNetTcpConnect = w.answers opNetTcpConnect ∧ v.connectSide.syns = w.connectSide.syns ∧
      v.server.conn.state = .synSent ∧ v.server.conn.remoteIp = toLeBytes ((msg.getData 1).setWidth 32) ∧
      v.server.conn.remotePort = (msg.getData 2).setWidth 16 ∧
      SynSent v v' (toLeBytes ((msg.getData 1).setWidth 32)) ∧
      (w.handleTcpConnect e msg = v'.tcpSmFail msg.sender ∨
        ∃ sm : TcpSm, sm.state ≠ .idle ∧ sm.sender = msg.sender ∧ sm.dstIp = (msg.getData 1).setWidth 32 ∧
          sm.dstPort = (msg.getData 2).setWidth 16 ∧ sm.deadline = e.now + 5000000000 ∧
          w.handleTcpConnect e msg = v'.withSm sm)) := by
  unfold handleTcpConnect
  dsimp only
  split
  · exact .inl ⟨w, rfl, rfl⟩
  · rename_i hidle
    rw [not_not] at hidle
    by_cases hclosed : w.server.conn.state = .closed
    · rw [TcpConn.connect_closed hclosed]
      dsimp only
      rw [if_neg (by decide)]
      refine .inr ⟨hidle, ?_⟩
      generalize hv : w.withConn _ = v
      have hresolve := connectSide_resolveMac e v (toLeBytes ((msg.getData 1).setWidth 32))
      have hvsm : v.server.tcpSm = w.server.tcpSm := by rw [← hv]; rfl
      have hvanswers : v.answers opNetTcpConnect = w.answers opNetTcpConnect := by rw [← hv]; rfl
      have hvsyns : v.connectSide.syns = w.connectSide.syns := by rw [← hv]; rfl
      have hvconn : v.server.conn.state = .synSent ∧ v.server.conn.remoteIp = toLeBytes ((msg.getData 1).setWidth 32) ∧
          v.server.conn.remotePort = (msg.getData 2).setWidth 16 := by
        rw [← hv]
        exact ⟨rfl, rfl, rfl⟩
      split
      · rename_i u mac heq
        rw [heq] at hresolve
        have hsyn := (synSent_tcpSmSendSyn e u (toLeBytes ((msg.getData 1).setWidth 32)) mac).congr hresolve
        refine ⟨v, _, hvsm, hvanswers, hvsyns, hvconn.1, hvconn.2.1, hvconn.2.2, hsyn, ?_⟩
        split
        · exact .inr ⟨_, SmState.noConfusion, rfl, rfl, rfl, rfl, rfl⟩
        · exact .inl rfl
      · rename_i u heq
        rw [heq] at hresolve
        refine ⟨v, u, hvsm, hvanswers, hvsyns, hvconn.1, hvconn.2.1, hvconn.2.2, synSent_of_connectSide hresolve _, .inr ?_⟩
        exact ⟨_, SmState.noConfusion, rfl, rfl, rfl, rfl, rfl⟩
    · rw [TcpConn.connect_open hclosed]
      exact .inl ⟨w.withConn w.server.conn, rfl, if_pos rfl⟩

theorem connectDue_handleTcpConnect (e : Env) (w : World) (msg : Message) (pid : Nat) :
    (w.handleTcpConnect e msg).connectSide.due pid = w.connectSide.due pid + if msg.sender = pid then 1 else 0 := by
  rcases handleTcpConnect_cases e w msg with ⟨v, hv, heq⟩ | ⟨hidle, v, v', hsm, hanswers, -, -, -, -, hsyn, hcases⟩
  · rw [heq, connectDue_replyData, hv]
  · have hdue : v'.connectSide.due pid = w.connectSide.due pid := by
      rw [hsyn.due]
      show v.answers opNetTcpConnect pid + (if v.server.tcpSm.state ≠ .idle ∧ v.server.tcpSm.sender = pid then 1 else 0) = _
      rw [hanswers, hsm]
      rfl
    rcases hcases with heq | ⟨sm, hpending, hsender, -, -, -, heq⟩
    · rw [heq]
      unfold tcpSmFail
      rw [connectDue_replyData, connectDue_withConn, hdue]
    · rw [heq, connectDue_begin (by rw [hsyn.sm, hsm, hidle]) hpending, hdue, hsender]

theorem syns_tcpSmFail (w : World) (sender : Nat) : (w.tcpSmFail sender).connectSide.syns = w.connectSide.syns :=
  syns_replyData ..

theorem syns_handleTcpConnect {e : Env} {w : World} {msg : Message} {t : Ip × BitVec 16}
    (ht : t ∈ (w.handleTcpConnect e msg).connectSide.syns) :
    t ∈ w.connectSide.syns ∨
      (w.server.tcpSm.state = .idle ∧ t = (toLeBytes ((msg.getData 1).setWidth 32), (msg.getData 2).setWidth 16)) := by
  rcases handleTcpConnect_cases e w msg with ⟨v, hv, heq⟩ | ⟨hidle, v, v', -, -, hsyns, -, -, hport, hsyn, hcases⟩
  · rw [heq, syns_replyData, hv] at ht
    exact .inl ht
  · have hmem : t ∈ v'.connectSide.syns := by
      rcases hcases with heq | ⟨sm, -, -, -, -, -, heq⟩
      · rw [heq, syns_tcpSmFail] at ht
        exact ht
      · rw [heq] at ht
        exact ht
    rcases hsyn.syns t hmem with hold | hnew
    · exact .inl (hsyns ▸ hold)
    · rw [hport] at hnew
      exact .inr ⟨hidle, hnew⟩

theorem agrees_handleTcpConnect (e : Env) {w : World} (msg : Message) (h : Agrees w.server.conn w.server.tcpSm) :
    Agrees (w.handleTcpConnect e msg).server.conn (w.handleTcpConnect e msg).server.tcpSm := by
  rcases handleTcpConnect_cases e w msg with ⟨v, hv, heq⟩ | ⟨hidle, v, v', hsm, -, -, hstate, hip, hport, hsyn, hcases⟩
  · rw [heq]
    show Agrees v.connectSide.conn v.connectSide.sm
    rw [hv]
    exact h
  · rcases hcases with heq | ⟨sm, -, -, hdst, hdstPort, -, heq⟩
    · rw [heq]
      intro hpending
      have hv' : v'.server.tcpSm.state ≠ .idle := hpending
      rw [hsyn.sm, hsm] at hv'
      exact absurd hidle hv'
    · rw [heq]
      obtain ⟨seq, hconn⟩ := hsyn.conn
      intro _
      show v'.server.conn.state = .synSent ∧ v'.server.conn.remoteIp = toLeBytes sm.dstIp ∧ v'.server.conn.remotePort = sm.dstPort
      rw [hconn, hdst, hdstPort]
      exact ⟨hstate, hip, hport⟩

/-- Nothing happens, or a SYN is sent for the pending connect, which then goes on or is refused. -/
theorem resumeConnect_cases (e : Env) (w : World) :
    w.resumeConnect e = w ∨
    (w.server.tcpSm.state = .waitArp ∧ ∃ v : World, SynSent w v (toLeBytes w.server.tcpSm.dstIp) ∧
      ((∃ mac, w.resumeConnect e = v.withSm { v.server.tcpSm with state := .waitSynAck, dstMac := mac }) ∨
        w.resumeConnect e = (v.withSm { v.server.tcpSm with state := .idle }).tcpSmFail v.server.tcpSm.sender)) := by
  unfold resumeConnect
  dsimp only
  split
  · exact .inl rfl
  · rename_i hwait
    rw [not_not] at hwait
    split
    · exact .inl rfl
    · rename_i mac _
      refine .inr ⟨hwait, _, synSent_tcpSmSendSyn e w (toLeBytes w.server.tcpSm.dstIp) mac, ?_⟩
      unfold tcpSmOnArpResolved
      dsimp only
      split
      · exact .inl ⟨mac, rfl⟩
      · exact .inr rfl

theorem connectDue_resumeConnect (e : Env) (w : World) (pid : Nat) :
    (w.resumeConnect e).connectSide.due pid = w.connectSide.due pid := by
  rcases resumeConnect_cases e w with heq | ⟨hwait, v, hsyn, hcases⟩
  · rw [heq]
  · have hpending : v.server.tcpSm.state ≠ .idle := by
      rw [hsyn.sm, hwait]
      exact SmState.noConfusion
    rcases hcases with ⟨mac, heq⟩ | heq
    · rw [heq]
      refine (connectDue_continue ⟨fun _ => hpending, fun _ => SmState.noConfusion⟩ ?_ pid).trans (hsyn.due pid)
      rfl
    · rw [heq, connectDue_fail hpending, hsyn.due]

theorem syns_resumeConnect {e : Env} {w : World} {t : Ip × BitVec 16} (ht : t ∈ (w.resumeConnect e).connectSide.syns) :
    t ∈ w.connectSide.syns ∨ (w.server.tcpSm.state = .waitArp ∧
      t = (toLeBytes w.server.tcpSm.dstIp, w.server.conn.remotePort)) := by
  rcases resumeConnect_cases e w with heq | ⟨hwait, v, hsyn, hcases⟩
  · rw [heq] at ht
    exact .inl ht
  · have hmem : t ∈ v.connectSide.syns := by
      rcases hcases with ⟨mac, heq⟩ | heq
      · rw [heq] at ht
        exact ht
      · rw [heq, syns_tcpSmFail] at ht
        exact ht
    exact (hsyn.syns t hmem).imp_right fun hnew => ⟨hwait, hnew⟩

theorem agrees_resumeConnect (e : Env) {w : World} (h : Agrees w.server.conn w.server.tcpSm) :
    Agrees (w.resumeConnect e).server.conn (w.resumeConnect e).server.tcpSm := by
  rcases resumeConnect_cases e w with heq | ⟨hwait, v, hsyn, hcases⟩
  · rw [heq]
    exact h
  · rcases hcases with ⟨mac, heq⟩ | heq
    · obtain ⟨seq, hconn⟩ := hsyn.conn
      rw [heq]
      intro _
      show v.server.conn.state = .synSent ∧ v.server.conn.remoteIp = toLeBytes v.server.tcpSm.dstIp ∧
        v.server.conn.remotePort = v.server.tcpSm.dstPort
      rw [hconn, hsyn.sm]
      exact h (by rw [hwait]; exact SmState.noConfusion)
    · rw [heq]
      exact fun hpending => absurd rfl hpending

/-- A send moves our sequence number. -/
theorem connectSide_handleTcpSend (e : Env) (w : World) (msg : Message) :
    ∃ seq, (w.handleTcpSend e msg).connectSide = (w.withConn { w.server.conn with seq := seq }).connectSide := by
  unfold handleTcpSend replyErr
  dsimp only
  split
  · exact ⟨w.server.conn.seq, connectSide_replyData (by decide)⟩
  · split
    · exact ⟨w.server.conn.seq, connectSide_replyData (by decide)⟩
    · refine ⟨w.server.conn.seq +
        BitVec.ofNat 32 ((unpackWords (payloadWords msg) 40).take (min (msg.getData 2).toNat 40)).length, ?_⟩
      rw [connectSide_replyData (by decide), connectSide_sendTcpPacket (by decide)]

/-- A receive empties the buffer. -/
theorem connectSide_handleTcpRecv (w : World) (msg : Message) :
    ∃ buf, (w.handleTcpRecv msg).connectSide = (w.withConn { w.server.conn with rxBuf := buf }).connectSide := by
  unfold handleTcpRecv
  dsimp only
  split
  · exact ⟨[], connectSide_reply (by show opNetTcpRecv ≠ _; decide)⟩
  · exact ⟨w.server.conn.rxBuf, connectSide_replyData (by decide)⟩

/-- A close clears the connection. -/
theorem connectSide_handleTcpClose (e : Env) (w : World) :
    (w.handleTcpClose e).connectSide = (w.withConn .zeroed).connectSide := by
  unfold handleTcpClose
  dsimp only
  split
  · generalize hv : World.sendTcpPacket e _ _ _ _ _ _ _ _ _ _ = v
    have hside := congrArg connectSide hv
    rw [connectSide_sendTcpPacket (by decide)] at hside
    show ConnectSide.mk .zeroed v.connectSide.sm v.connectSide.syns v.connectSide.answers = _
    rw [← hside]
    rfl
  · rfl

/-- What a segment does to a connection that is on its way. -/
theorem handleTcp_synSent {conn : TcpConn} (hstate : conn.state = .synSent) (srcIp : Ip) (seg : Bytes) :
    (conn.accepts srcIp seg = true ∧ isSynAck seg = true ∧ (handleTcp conn srcIp seg).1.state = .established ∧
      (handleTcp conn srcIp seg).2 = some .established) ∨
    (conn.accepts srcIp seg = true ∧ has seg tcpRst = true ∧ (handleTcp conn srcIp seg).2 = some .reset) ∨
    ((conn.accepts srcIp seg = true → isSynAck seg = false ∧ has seg tcpRst = false) ∧
      handleTcp conn srcIp seg = (conn, none)) := by
  by_cases haccepts : conn.accepts srcIp seg = true
  · rw [handleTcp_of_accepts haccepts]
    unfold TcpConn.receive
    rw [hstate]
    dsimp only
    by_cases hsyn : isSynAck seg = true
    · rw [if_pos hsyn]
      exact .inl ⟨haccepts, hsyn, rfl, rfl⟩
    · rw [if_neg hsyn]
      by_cases hrst : has seg tcpRst = true
      · rw [if_pos hrst]
        exact .inr (.inl ⟨haccepts, hrst, rfl⟩)
      · rw [if_neg hrst]
        exact .inr (.inr ⟨fun _ => ⟨Bool.eq_false_of_not_eq_true hsyn, Bool.eq_false_of_not_eq_true hrst⟩, rfl⟩)
  · exact .inr (.inr ⟨fun h => absurd h haccepts, handleTcp_of_not_accepts haccepts⟩)

/-- A segment changes the connection, and nothing else; or the handshake or a reset answers the pending connect. -/
theorem handleTcpIncoming_cases (e : Env) (w : World) (srcIp : Ip) (seg : Bytes) :
    (w.handleTcpIncoming e srcIp seg).connectSide =
        (w.withConn (w.handleTcpIncoming e srcIp seg).server.conn).connectSide ∧
      (w.server.tcpSm.state = .waitSynAck → (handleTcp w.server.conn srcIp seg).2 ≠ some .established ∧
        (handleTcp w.server.conn srcIp seg).2 ≠ some .reset) ∨
    (w.server.tcpSm.state = .waitSynAck ∧ ∃ v : World, v.server.tcpSm = w.server.tcpSm ∧
      v.answers opNetTcpConnect = w.answers opNetTcpConnect ∧ v.connectSide.syns = w.connectSide.syns ∧
      ((∃ val, (w.handleTcpIncoming e srcIp seg).connectSide =
          ((v.withSm { v.server.tcpSm with state := .idle }).replyData v.server.tcpSm.sender opNetTcpConnect val).connectSide) ∨
        w.handleTcpIncoming e srcIp seg =
          (v.withSm { v.server.tcpSm with state := .idle }).tcpSmFail v.server.tcpSm.sender)) := by
  have hack : ∀ v : World, (v.sendAck e).connectSide = v.connectSide := by
    intro v
    unfold sendAck
    dsimp only
    rw [connectSide_sendTcpPacket (by decide)]
  have hconn := conn_handleTcpIncoming e w srcIp seg
  rw [hconn]
  unfold handleTcpIncoming
  dsimp only
  generalize handleTcp w.server.conn srcIp seg = out
  obtain ⟨conn, event⟩ := out
  cases event with
  | none => exact .inl ⟨rfl, fun _ => ⟨(fun h => nomatch h), (fun h => nomatch h)⟩⟩
  | some event =>
    cases event with
    | established =>
      dsimp only
      split
      · rename_i hwait
        refine .inr ⟨hwait, w.withConn conn, rfl, rfl, rfl, .inl ⟨w.server.tcpSm.connId.setWidth 64, ?_⟩⟩
        unfold tcpSmOnEstablished
        dsimp only
        exact connectSide_answer (connectSide_sendTcpPacket (by decide) ..) _ _
      · rename_i hwait
        exact .inl ⟨hack _, fun h => absurd h hwait⟩
    | dataReceived => exact .inl ⟨hack _, fun _ => ⟨(fun h => nomatch h), (fun h => nomatch h)⟩⟩
    | reset =>
      dsimp only
      split
      · rename_i hwait
        exact .inr ⟨hwait, w.withConn conn, rfl, rfl, rfl, .inr rfl⟩
      · rename_i hwait
        exact .inl ⟨rfl, fun h => absurd h hwait⟩
    | closed => exact .inl ⟨rfl, fun _ => ⟨(fun h => nomatch h), (fun h => nomatch h)⟩⟩

theorem connectDue_handleTcpIncoming (e : Env) (w : World) (srcIp : Ip) (seg : Bytes) (pid : Nat) :
    (w.handleTcpIncoming e srcIp seg).connectSide.due pid = w.connectSide.due pid := by
  rcases handleTcpIncoming_cases e w srcIp seg with ⟨hside, -⟩ | ⟨hwait, v, hsm, hanswers, -, hcases⟩
  · rw [hside, connectDue_withConn]
  · have hpending : v.server.tcpSm.state ≠ .idle := by
      rw [hsm, hwait]
      exact SmState.noConfusion
    have hdue : v.connectSide.due pid = w.connectSide.due pid := by
      show v.answers opNetTcpConnect pid + (if v.server.tcpSm.state ≠ .idle ∧ v.server.tcpSm.sender = pid then 1 else 0) = _
      rw [hanswers, hsm]
      rfl
    rcases hcases with ⟨val, hside⟩ | heq
    · rw [hside, connectDue_settle hpending, hdue]
    · rw [heq, connectDue_fail hpending, hdue]

theorem syns_handleTcpIncoming (e : Env) (w : World) (srcIp : Ip) (seg : Bytes) :
    (w.handleTcpIncoming e srcIp seg).connectSide.syns = w.connectSide.syns := by
  rcases handleTcpIncoming_cases e w srcIp seg with ⟨hside, -⟩ | ⟨-, v, -, -, hsyns, hcases⟩
  · rw [hside]
    rfl
  · rcases hcases with ⟨val, hside⟩ | heq
    · rw [hside, syns_replyData, ← hsyns]
      rfl
    · rw [heq, syns_tcpSmFail, ← hsyns]
      rfl

/-- A segment keeps the agreement, unless it answers a SYN that has not been sent. -/
theorem agrees_handleTcpIncoming (e : Env) {w : World} (h : Agrees w.server.conn w.server.tcpSm) (srcIp : Ip) (seg : Bytes) :
    Agrees (w.handleTcpIncoming e srcIp seg).server.conn (w.handleTcpIncoming e srcIp seg).server.tcpSm ↔
      (w.server.tcpSm.state = .waitArp → w.server.conn.accepts srcIp seg = true →
        isSynAck seg = false ∧ has seg tcpRst = false) := by
  rcases handleTcpIncoming_cases e w srcIp seg with ⟨hside, hevent⟩ | ⟨hwait, v, -, -, -, hcases⟩
  · have hsm : (w.handleTcpIncoming e srcIp seg).server.tcpSm = w.server.tcpSm := congrArg ConnectSide.sm hside
    rw [hsm]
    by_cases hidle : w.server.tcpSm.state = .idle
    · refine ⟨fun _ hwait => ?_, fun _ hpending => absurd hidle hpending⟩
      rw [hidle] at hwait
      cases hwait
    · obtain ⟨hstate, hip, hport⟩ := h hidle
      have hconn := conn_handleTcpIncoming e w srcIp seg
      rcases handleTcp_synSent hstate srcIp seg with ⟨haccepts, hsyn, hest, hev⟩ | ⟨haccepts, hrst, hev⟩ | ⟨hneither, hsame⟩
      · rw [hev] at hconn
        dsimp only at hconn
        constructor
        · intro hagrees
          have hstill := (hagrees hidle).1
          rw [hconn, hest] at hstill
          cases hstill
        · intro hguard
          have hwait : w.server.tcpSm.state = .waitArp := by
            cases hsmstate : w.server.tcpSm.state with
            | idle => exact absurd hsmstate hidle
            | waitArp => rfl
            | waitSynAck => exact absurd hev (hevent hsmstate).1
          have hno := (hguard hwait haccepts).1
          rw [hsyn] at hno
          cases hno
      · rw [hev] at hconn
        dsimp only at hconn
        constructor
        · intro hagrees
          have hstill := (hagrees hidle).1
          rw [hconn] at hstill
          cases hstill
        · intro hguard
          have hwait : w.server.tcpSm.state = .waitArp := by
            cases hsmstate : w.server.tcpSm.state with
            | idle => exact absurd hsmstate hidle
            | waitArp => rfl
            | waitSynAck => exact absurd hev (hevent hsmstate).2
          have hno := (hguard hwait haccepts).2
          rw [hrst] at hno
          cases hno
      · rw [hsame] at hconn
        dsimp only at hconn
        rw [hconn]
        exact ⟨fun _ _ => hneither, fun _ => h⟩
  · refine ⟨fun _ hwait' => ?_, fun _ hpending => ?_⟩
    · rw [hwait] at hwait'
      cases hwait'
    · rcases hcases with ⟨val, hside⟩ | heq
      · have hsm := congrArg (fun c => c.sm.state) hside
        exact absurd hsm hpending
      · rw [heq] at hpending
        exact absurd rfl hpending

theorem connectDue_checkConnect (e : Env) (w : World) (pid : Nat) :
    (w.checkConnect e).connectSide.due pid = w.connectSide.due pid := by
  unfold checkConnect
  dsimp only
  split
  · rename_i hlate
    exact connectDue_fail hlate.1 pid
  · rfl

theorem syns_checkConnect (e : Env) (w : World) : (w.checkConnect e).connectSide.syns = w.connectSide.syns := by
  unfold checkConnect
  dsimp only
  split
  · exact syns_tcpSmFail _ _
  · rfl

theorem agrees_checkConnect (e : Env) {w : World} (h : Agrees w.server.conn w.server.tcpSm) :
    Agrees (w.checkConnect e).server.conn (w.checkConnect e).server.tcpSm := by
  unfold checkConnect
  dsimp only
  split
  · exact fun hpending => absurd rfl hpending
  · exact h

/-! ### Deadlines -/

theorem sm_handleTcpConnect (e : Env) (w : World) (msg : Message) :
    (w.handleTcpConnect e msg).server.tcpSm = w.server.tcpSm ∨
      (w.handleTcpConnect e msg).server.tcpSm.deadline = e.now + 5000000000 := by
  rcases handleTcpConnect_cases e w msg with ⟨v, hv, heq⟩ | ⟨-, v, v', hsm, -, -, -, -, -, hsyn, hcases⟩
  · rw [heq]
    exact .inl (congrArg ConnectSide.sm hv)
  · rcases hcases with heq | ⟨sm, -, -, -, -, hdeadline, heq⟩
    · rw [heq]
      exact .inl (hsyn.sm.trans hsm)
    · rw [heq]
      exact .inr hdeadline

theorem waits_resumeConnect (e : Env) (w : World) : w.server.tcpSm.Waits (w.resumeConnect e).server.tcpSm := by
  rcases resumeConnect_cases e w with heq | ⟨hwait, v, hsyn, ⟨mac, heq⟩ | heq⟩
  · rw [heq]
    exact fun h => ⟨h, rfl⟩
  · rw [heq]
    refine fun _ => ⟨?_, ?_⟩
    · rw [hwait]
      exact SmState.noConfusion
    · show v.server.tcpSm.deadline = _
      rw [hsyn.sm]
  · rw [heq]
    exact fun h => absurd rfl h

theorem waits_handleTcpIncoming (e : Env) (w : World) (srcIp : Ip) (seg : Bytes) :
    w.server.tcpSm.Waits (w.handleTcpIncoming e srcIp seg).server.tcpSm := by
  rcases handleTcpIncoming_cases e w srcIp seg with ⟨hside, -⟩ | ⟨-, v, -, -, -, ⟨val, hside⟩ | heq⟩
  · have hsm : (w.handleTcpIncoming e srcIp seg).server.tcpSm = w.server.tcpSm := congrArg ConnectSide.sm hside
    rw [hsm]
    exact fun h => ⟨h, rfl⟩
  · exact fun h => absurd (congrArg (fun c => c.sm.state) hside) h
  · rw [heq]
    exact fun h => absurd rfl h

theorem waits_checkConnect (e : Env) (w : World) : w.server.tcpSm.Waits (w.checkConnect e).server.tcpSm := by
  unfold checkConnect
  dsimp only
  split
  · exact fun h => absurd rfl h
  · exact fun h => ⟨h, rfl⟩

/-- A connect that is late is not pending after the check. -/
theorem state_checkConnect {e : Env} {w : World} (h : w.server.tcpSm.deadline ≤ e.now) :
    (w.checkConnect e).server.tcpSm.state = .idle := by
  unfold checkConnect
  dsimp only
  by_cases hidle : w.server.tcpSm.state = .idle
  · rw [if_neg (fun hlate => hlate.1 hidle)]
    exact hidle
  · rw [if_pos ⟨hidle, h⟩]
    rfl

theorem ping_handlePing (e : Env) (w : World) (msg : Message) :
    (w.handlePing e msg).server.ping.deadline = e.now + 2000000000 ∨
      (w.server.ping.Waits (w.handlePing e msg).server.ping) := by
  unfold handlePing
  dsimp only
  split
  · exact .inr fun h => ⟨h, rfl⟩
  · split
    · rename_i mac _
      have hping := ping_of_pingSide
        (ping_buildAndSendIcmpRequest e w.advancePingSeq (toLeBytes ((msg.getData 1).setWidth 32)) mac)
      generalize w.advancePingSeq.buildAndSendIcmpRequest e (toLeBytes ((msg.getData 1).setWidth 32)) mac = out at hping ⊢
      split
      · exact .inl rfl
      · refine .inr ?_
        show w.server.ping.Waits out.1.server.ping
        rw [hping]
        exact fun h => ⟨h, rfl⟩
    · split
      · exact .inr fun h => ⟨h, rfl⟩
      · exact .inl rfl

theorem waits_resumePing (e : Env) (w : World) : w.server.ping.Waits (w.resumePing e).server.ping := by
  unfold resumePing
  dsimp only
  split
  · exact fun h => ⟨h, rfl⟩
  · rename_i hwait
    rw [not_not] at hwait
    split
    · exact fun h => ⟨h, rfl⟩
    · rename_i mac _
      have hping := ping_of_pingSide (ping_buildAndSendIcmpRequest e w.advancePingSeq (toLeBytes w.server.ping.targetIp) mac)
      generalize w.advancePingSeq.buildAndSendIcmpRequest e (toLeBytes w.server.ping.targetIp) mac = out at hping ⊢
      split
      · refine fun _ => ⟨?_, ?_⟩
        · rw [hwait]
          exact PingState.noConfusion
        · show out.1.server.ping.deadline = w.server.ping.deadline
          rw [hping]
          rfl
      · exact fun h => absurd rfl h

@[simp] theorem ping_sendFrame (e : Env) (w : World) (f : Bytes) : (w.sendFrame e f).1.server.ping = w.server.ping :=
  ping_of_pingSide (pingSide_sendFrame e w f)

theorem waits_handleIcmpPacket (e : Env) (w : World) (srcIp : Ip) (payload : Bytes) :
    w.server.ping.Waits (w.handleIcmpPacket e srcIp payload).server.ping := by
  have hstays : w.server.ping.Waits w.server.ping := fun h => ⟨h, rfl⟩
  unfold handleIcmpPacket
  dsimp only
  split
  · exact hstays
  · split
    · split
      · exact hstays
      · split
        · exact hstays
        · rw [ping_sendFrame]
          exact hstays
    · split
      · split
        · exact hstays
        · generalize (if 6 ≤ payload.length then be16At payload 4 else 0) = id
          generalize (if 8 ≤ payload.length then be16At payload 6 else 0) = seq
          split
          · exact fun h => absurd rfl h
          · exact hstays
      · exact hstays

theorem waits_checkPing (e : Env) (w : World) : w.server.ping.Waits (w.checkPing e).server.ping := by
  unfold checkPing
  dsimp only
  split
  · exact fun h => absurd rfl h
  · exact fun h => ⟨h, rfl⟩

/-- A ping that is late is not pending after the check. -/
theorem state_checkPing {e : Env} {w : World} (h : w.server.ping.deadline ≤ e.now) :
    (w.checkPing e).server.ping.state = .idle := by
  unfold checkPing
  dsimp only
  by_cases hidle : w.server.ping.state = .idle
  · rw [if_neg (fun hlate => hlate.1 hidle)]
    exact hidle
  · rw [if_pos ⟨hidle, h⟩]
    rfl

end World

end Rost.Net
