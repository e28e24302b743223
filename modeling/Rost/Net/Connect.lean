import Rost.Net.Pending

/-!
# The pending connect

While a connect is pending the connection should be on its way to the same address and port, so that a SYN goes nowhere else.
A close clears the connection but not the connect, and so does what the peer answers before the SYN is sent; otherwise the
two agree.  Every connect and every ping is answered once (`Server.connect_agrees`).
-/

namespace Rost.Net

open Lib (Run exec run_of_exec)
open Segment

namespace World

/-! ### Which handler is called -/

/-- The request is handled by the handler of its opcode. -/
theorem handleIpc_cases (e : Env) (w : World) (msg : Message) :
    (msg.getData 0 = opNetPing ∧ w.handleIpc e msg = w.handlePing e msg) ∨
    (msg.getData 0 = opNetTcpConnect ∧ w.handleIpc e msg = w.handleTcpConnect e msg) ∨
    (msg.getData 0 = opNetTcpSend ∧ w.handleIpc e msg = w.handleTcpSend e msg) ∨
    (msg.getData 0 = opNetTcpRecv ∧ w.handleIpc e msg = w.handleTcpRecv msg) ∨
    (msg.getData 0 = opNetTcpClose ∧ w.handleIpc e msg = (w.handleTcpClose e).replyData msg.sender opNetTcpClose 0) ∨
    (msg.getData 0 ≠ opNetPing ∧ msg.getData 0 ≠ opNetTcpConnect ∧ msg.getData 0 ≠ opNetTcpClose ∧
      (w.handleIpc e msg).connectSide = w.connectSide ∧ (w.handleIpc e msg).pingSide = w.pingSide) := by
  unfold handleIpc replyErr
  dsimp only
  by_cases hping : msg.getData 0 = opNetPing
  · rw [if_neg (by rw [hping]; decide), if_pos hping]
    exact .inl ⟨hping, rfl⟩
  by_cases hconnect : msg.getData 0 = opNetTcpConnect
  · rw [hconnect]
    exact .inr (.inl ⟨rfl, rfl⟩)
  by_cases hsend : msg.getData 0 = opNetTcpSend
  · rw [hsend]
    exact .inr (.inr (.inl ⟨rfl, rfl⟩))
  by_cases hrecv : msg.getData 0 = opNetTcpRecv
  · rw [hrecv]
    exact .inr (.inr (.inr (.inl ⟨rfl, rfl⟩)))
  by_cases hclose : msg.getData 0 = opNetTcpClose
  · rw [hclose]
    exact .inr (.inr (.inr (.inr (.inl ⟨rfl, rfl⟩))))
  refine .inr (.inr (.inr (.inr (.inr ⟨hping, hconnect, hclose, ?_⟩))))
  rw [if_neg hping, if_neg hconnect, if_neg hsend, if_neg hrecv, if_neg hclose]
  split
  · exact ⟨connectSide_replyData (by decide), pingSide_replyData (by decide)⟩
  · split
    · exact ⟨connectSide_handleUdpBind w msg, pingSide_handleUdpBind w msg⟩
    · split
      · exact ⟨connectSide_handleUdpSend e w msg, pingSide_handleUdpSend e w msg⟩
      · split
        · exact ⟨connectSide_handleUdpRecv w msg, pingSide_handleUdpRecv w msg⟩
        · exact ⟨connectSide_replyData hconnect, pingSide_replyData hping⟩

end World

/-- The segment in the frame, if it is for us, and who sent it. -/
def tcpSegment (frame : Bytes) : Option (Ip × Bytes) :=
  match parseEth frame with
  | none => none
  | some eth =>
    if eth.ethertype = ethIpv4 then
      match parseIpv4 eth.payload with
      | none => none
      | some (iph, payload) =>
        if (iph.dst = ourIp ∨ iph.dst = World.broadcastIp) ∧ iph.proto = ipProtoTcp then some (iph.src, payload) else none
    else none

namespace World

/-- A packet is a segment, or ARP, or it leaves the pending connect alone. -/
theorem handlePacket_cases (e : Env) (w : World) (frame : Bytes) :
    (∃ srcIp seg, tcpSegment frame = some (srcIp, seg) ∧ w.handlePacket e frame = w.handleTcpIncoming e srcIp seg) ∨
    (tcpSegment frame = none ∧ ∃ payload, w.handlePacket e frame = w.handleArpPacket e payload) ∨
    (tcpSegment frame = none ∧ (w.handlePacket e frame).connectSide = w.connectSide ∧
      w.server.ping.Waits (w.handlePacket e frame).server.ping ∧
      ∀ pid, (w.handlePacket e frame).pingSide.due pid = w.pingSide.due pid) := by
  have hstays : w.server.ping.Waits w.server.ping := fun h => ⟨h, rfl⟩
  unfold handlePacket tcpSegment
  cases parseEth frame with
  | none => exact .inr (.inr ⟨rfl, rfl, hstays, fun _ => rfl⟩)
  | some eth =>
    dsimp only
    by_cases harp : eth.ethertype = ethArp
    · rw [if_pos harp, if_neg (by rw [harp]; decide)]
      exact .inr (.inl ⟨rfl, eth.payload, rfl⟩)
    · rw [if_neg harp]
      by_cases hip : eth.ethertype = ethIpv4
      · rw [if_pos hip, if_pos hip]
        cases parseIpv4 eth.payload with
        | none => exact .inr (.inr ⟨rfl, rfl, hstays, fun _ => rfl⟩)
        | some packet =>
          obtain ⟨iph, payload⟩ := packet
          dsimp only
          unfold handleIpv4Packet
          by_cases hdst : iph.dst = ourIp ∨ iph.dst = broadcastIp
          · have hours : ¬ (iph.dst ≠ ourIp ∧ iph.dst ≠ broadcastIp) := fun h => hdst.elim h.1 h.2
            have hother : iph.proto ≠ ipProtoTcp → ¬ ((iph.dst = ourIp ∨ iph.dst = broadcastIp) ∧ iph.proto = ipProtoTcp) :=
              fun hne h => hne h.2
            rw [if_neg hours]
            by_cases hicmp : iph.proto = ipProtoIcmp
            · rw [if_pos hicmp, if_neg (hother (by rw [hicmp]; decide))]
              exact .inr (.inr ⟨rfl, connectSide_handleIcmpPacket .., waits_handleIcmpPacket e w iph.src payload, fun pid => pingDue_handleIcmpPacket ..⟩)
            · rw [if_neg hicmp]
              by_cases hudp : iph.proto = ipProtoUdp
              · rw [if_pos hudp, if_neg (hother (by rw [hudp]; decide)), pingSide_handleUdpPacket]
                refine .inr (.inr ⟨rfl, connectSide_handleUdpPacket .., ?_, fun _ => rfl⟩)
                rw [ping_of_pingSide (pingSide_handleUdpPacket ..)]
                exact hstays
              · rw [if_neg hudp]
                by_cases htcp : iph.proto = ipProtoTcp
                · have hseg : (iph.dst = ourIp ∨ iph.dst = broadcastIp) ∧ iph.proto = ipProtoTcp := ⟨hdst, htcp⟩
                  rw [if_pos htcp, if_pos hseg]
                  exact .inl ⟨iph.src, payload, rfl, rfl⟩
                · rw [if_neg htcp, if_neg (hother htcp)]
                  exact .inr (.inr ⟨rfl, rfl, hstays, fun _ => rfl⟩)
          · have hforeign : iph.dst ≠ ourIp ∧ iph.dst ≠ broadcastIp := not_or.1 hdst
            have hseg : ¬ ((iph.dst = ourIp ∨ iph.dst = broadcastIp) ∧ iph.proto = ipProtoTcp) := fun h => hdst h.1
            rw [if_pos hforeign, if_neg hseg]
            exact .inr (.inr ⟨rfl, rfl, hstays, fun _ => rfl⟩)
      · rw [if_neg hip, if_neg hip]
        exact .inr (.inr ⟨rfl, rfl, hstays, fun _ => rfl⟩)

end World

/-! ### Every event -/

/-- Whether the event is a request `op` of the process. -/
def NetOp.asks (op : Word) (pid : Nat) : NetOp → Nat
  | .request msg => if msg.getData 0 = op ∧ msg.sender = pid then 1 else 0
  | _ => 0

namespace Server

/-- Whether the process waits for its connect. -/
def connecting (s : Server) (pid : Nat) : Nat := if s.tcpSm.state ≠ .idle ∧ s.tcpSm.sender = pid then 1 else 0

/-- Whether the process waits for its ping. -/
def pinging (s : Server) (pid : Nat) : Nat := if s.ping.state ≠ .idle ∧ s.ping.sender = pid then 1 else 0

theorem connectDue_handle (s : Server) (e : Env) (op : NetOp) (pid : Nat) :
    (s.handle e op).connectSide.due pid = s.connecting pid + op.asks opNetTcpConnect pid := by
  have hstart : s.enter.connectSide.due pid = s.connecting pid := Nat.zero_add _
  cases op with
  | request msg =>
    show (s.enter.handleIpc e msg).connectSide.due pid = _ + if _ then 1 else 0
    rcases World.handleIpc_cases e s.enter msg with
      ⟨hop, heq⟩ | ⟨hop, heq⟩ | ⟨hop, heq⟩ | ⟨hop, heq⟩ | ⟨hop, heq⟩ | ⟨-, hop, -, heq, -⟩
    · rw [heq, World.connectSide_handlePing, hstart, if_neg (by rw [hop]; exact fun h => absurd h.1 (by decide)), Nat.add_zero]
    · rw [heq, World.connectDue_handleTcpConnect, hstart]
      exact congrArg (s.connecting pid + ·) (if_congr (by simp [hop]) rfl rfl)
    · obtain ⟨seq, hside⟩ := World.connectSide_handleTcpSend e s.enter msg
      rw [heq, hside, World.connectDue_withConn, hstart, if_neg (by rw [hop]; exact fun h => absurd h.1 (by decide)), Nat.add_zero]
    · obtain ⟨buf, hside⟩ := World.connectSide_handleTcpRecv s.enter msg
      rw [heq, hside, World.connectDue_withConn, hstart, if_neg (by rw [hop]; exact fun h => absurd h.1 (by decide)), Nat.add_zero]
    · rw [heq, World.connectSide_replyData (by decide), World.connectSide_handleTcpClose, World.connectDue_withConn, hstart,
        if_neg (by rw [hop]; exact fun h => absurd h.1 (by decide)), Nat.add_zero]
    · rw [heq, hstart, if_neg (fun h => hop h.1), Nat.add_zero]
  | packet frame =>
    show (s.enter.handlePacket e frame).connectSide.due pid = _
    rcases World.handlePacket_cases e s.enter frame with ⟨srcIp, seg, -, heq⟩ | ⟨-, payload, heq⟩ | ⟨-, heq, -, -⟩
    · rw [heq, World.connectDue_handleTcpIncoming, hstart]
      rfl
    · rw [heq]
      unfold World.handleArpPacket
      rw [World.connectDue_resumeConnect, World.connectSide_resumePing, World.connectSide_answerArp, hstart]
      rfl
    · rw [heq, hstart]
      rfl
  | deadlines =>
    show ((s.enter.checkPing e).checkConnect e).connectSide.due pid = _
    rw [World.connectDue_checkConnect, World.connectSide_checkPing, hstart]
    rfl

theorem pingDue_handle (s : Server) (e : Env) (op : NetOp) (pid : Nat) :
    (s.handle e op).pingSide.due pid = s.pinging pid + op.asks opNetPing pid := by
  have hstart : s.enter.pingSide.due pid = s.pinging pid := Nat.zero_add _
  cases op with
  | request msg =>
    show (s.enter.handleIpc e msg).pingSide.due pid = _ + if _ then 1 else 0
    rcases World.handleIpc_cases e s.enter msg with
      ⟨hop, heq⟩ | ⟨hop, heq⟩ | ⟨hop, heq⟩ | ⟨hop, heq⟩ | ⟨hop, heq⟩ | ⟨hop, -, -, -, heq⟩
    · rw [heq, World.pingDue_handlePing, hstart]
      exact congrArg (s.pinging pid + ·) (if_congr (by simp [hop]) rfl rfl)
    · rw [heq, World.pingSide_handleTcpConnect, hstart, if_neg (by rw [hop]; exact fun h => absurd h.1 (by decide)), Nat.add_zero]
    · rw [heq, World.pingSide_handleTcpSend, hstart, if_neg (by rw [hop]; exact fun h => absurd h.1 (by decide)), Nat.add_zero]
    · rw [heq, World.pingSide_handleTcpRecv, hstart, if_neg (by rw [hop]; exact fun h => absurd h.1 (by decide)), Nat.add_zero]
    · rw [heq, World.pingSide_replyData (by decide), World.pingSide_handleTcpClose, hstart,
        if_neg (by rw [hop]; exact fun h => absurd h.1 (by decide)), Nat.add_zero]
    · rw [heq, hstart, if_neg (fun h => hop h.1), Nat.add_zero]
  | packet frame =>
    show (s.enter.handlePacket e frame).pingSide.due pid = _
    rcases World.handlePacket_cases e s.enter frame with ⟨srcIp, seg, -, heq⟩ | ⟨-, payload, heq⟩ | ⟨-, -, -, heq⟩
    · rw [heq, World.pingSide_handleTcpIncoming, hstart]
      rfl
    · rw [heq]
      unfold World.handleArpPacket
      rw [World.pingSide_resumeConnect, World.pingDue_resumePing, World.pingSide_answerArp, hstart]
      rfl
    · rw [heq, hstart]
      rfl
  | deadlines =>
    show ((s.enter.checkPing e).checkConnect e).pingSide.due pid = _
    rw [World.pingSide_checkConnect, World.pingDue_checkPing, hstart]
    rfl

/-- The address and the port that a SYN may be sent to: those of the connect that is pending, or else of the request. -/
def target (s : Server) (op : NetOp) : Option (Ip × BitVec 16) :=
  if s.tcpSm.state ≠ .idle then some (toLeBytes s.tcpSm.dstIp, s.tcpSm.dstPort)
  else
    match op with
    | .request msg => some (toLeBytes ((msg.getData 1).setWidth 32), (msg.getData 2).setWidth 16)
    | _ => none

/-- A connect that is pending is not closed, and no segment answers its SYN before that is sent. -/
def Undisturbed (s : Server) (op : Env × NetOp) : Prop :=
  match op.2 with
  | .request msg => msg.getData 0 = opNetTcpClose → s.tcpSm.state = .idle
  | .packet frame => s.tcpSm.state = .waitArp → ∀ srcIp seg, tcpSegment frame = some (srcIp, seg) →
      s.conn.accepts srcIp seg = true → isSynAck seg = false ∧ has seg tcpRst = false
  | .deadlines => True

/-- After the event the connection and the pending connect agree, and SYNs went only where they may. -/
def Meets (s : Server) (op : Env × NetOp) : Prop :=
  ∀ y out, s.step op = some (y, out) → Agrees y.conn y.tcpSm ∧ ∀ t ∈ out.filterMap Output.synTarget, s.target op.2 = some t

/-- A connect that is pending stays in agreement exactly when it is not disturbed. -/
theorem agrees_handle {s : Server} (h : Agrees s.conn s.tcpSm) (e : Env) (op : NetOp) :
    Agrees (s.handle e op).server.conn (s.handle e op).server.tcpSm ↔ s.Undisturbed (e, op) := by
  have hside : ∀ w : World, w.connectSide = s.enter.connectSide → Agrees w.server.conn w.server.tcpSm := by
    intro w hw
    show Agrees w.connectSide.conn w.connectSide.sm
    rw [hw]
    exact h
  cases op with
  | request msg =>
    show Agrees (s.enter.handleIpc e msg).server.conn (s.enter.handleIpc e msg).server.tcpSm ↔
      (msg.getData 0 = opNetTcpClose → s.tcpSm.state = .idle)
    rcases World.handleIpc_cases e s.enter msg with
      ⟨hop, heq⟩ | ⟨hop, heq⟩ | ⟨hop, heq⟩ | ⟨hop, heq⟩ | ⟨hop, heq⟩ | ⟨-, -, hop, heq, -⟩
    · rw [heq, hop]
      exact ⟨fun _ hclose => absurd hclose (by decide), fun _ => hside _ (World.connectSide_handlePing ..)⟩
    · rw [heq, hop]
      exact ⟨fun _ hclose => absurd hclose (by decide), fun _ => World.agrees_handleTcpConnect e msg h⟩
    · rw [heq, hop]
      refine ⟨fun _ hclose => absurd hclose (by decide), fun _ => ?_⟩
      obtain ⟨seq, hsend⟩ := World.connectSide_handleTcpSend e s.enter msg
      show Agrees (World.connectSide _).conn (World.connectSide _).sm
      rw [hsend]
      exact h
    · rw [heq, hop]
      refine ⟨fun _ hclose => absurd hclose (by decide), fun _ => ?_⟩
      obtain ⟨buf, hrecv⟩ := World.connectSide_handleTcpRecv s.enter msg
      show Agrees (World.connectSide _).conn (World.connectSide _).sm
      rw [hrecv]
      exact h
    · rw [heq]
      have hclose : ((s.enter.handleTcpClose e).replyData msg.sender opNetTcpClose 0).connectSide =
          (s.enter.withConn .zeroed).connectSide := by
        rw [World.connectSide_replyData (by decide), World.connectSide_handleTcpClose]
      have hconn : ((s.enter.handleTcpClose e).replyData msg.sender opNetTcpClose 0).server.conn = .zeroed :=
        congrArg ConnectSide.conn hclose
      have hsm : ((s.enter.handleTcpClose e).replyData msg.sender opNetTcpClose 0).server.tcpSm = s.tcpSm :=
        congrArg ConnectSide.sm hclose
      rw [hconn, hsm]
      constructor
      · intro hagrees _
        by_contra hpending
        have hstate := (hagrees hpending).1
        cases hstate
      · exact fun hidle hpending => absurd (hidle hop) hpending
    · exact ⟨fun _ hclose => absurd hclose hop, fun _ => hside _ heq⟩
  | packet frame =>
    show Agrees (s.enter.handlePacket e frame).server.conn (s.enter.handlePacket e frame).server.tcpSm ↔
      (s.tcpSm.state = .waitArp → ∀ srcIp seg, tcpSegment frame = some (srcIp, seg) →
        s.conn.accepts srcIp seg = true → isSynAck seg = false ∧ has seg tcpRst = false)
    rcases World.handlePacket_cases e s.enter frame with ⟨srcIp, seg, hseg, heq⟩ | ⟨hseg, payload, heq⟩ | ⟨hseg, heq, -, -⟩
    · rw [heq, World.agrees_handleTcpIncoming (w := s.enter) e h, hseg]
      constructor
      · rintro hguard hwait srcIp' seg' hsome
        cases hsome
        exact hguard hwait
      · exact fun hguard hwait => hguard hwait srcIp seg rfl
    · rw [heq, hseg]
      refine ⟨fun _ _ _ _ hsome => (nomatch hsome), fun _ => World.agrees_resumeConnect e (hside _ ?_)⟩
      rw [World.connectSide_resumePing, World.connectSide_answerArp]
    · rw [hseg]
      exact ⟨fun _ _ _ _ hsome => (nomatch hsome), fun _ => hside _ heq⟩
  | deadlines => exact ⟨fun _ => trivial, fun _ => World.agrees_checkConnect e (hside _ (World.connectSide_checkPing ..))⟩

/-- Where the connection and the pending connect agree, SYNs go only where they may. -/
theorem syns_handle {s : Server} (h : Agrees s.conn s.tcpSm) (e : Env) (op : NetOp) {t : Ip × BitVec 16}
    (ht : t ∈ (s.handle e op).connectSide.syns) : s.target op = some t := by
  have hstart : ∀ w : World, w.connectSide = s.enter.connectSide → t ∈ w.connectSide.syns → s.target op = some t := by
    intro w hw hmem
    rw [hw] at hmem
    cases hmem
  cases op with
  | request msg =>
    have hmem : t ∈ (s.enter.handleIpc e msg).connectSide.syns := ht
    rcases World.handleIpc_cases e s.enter msg with
      ⟨hop, heq⟩ | ⟨hop, heq⟩ | ⟨hop, heq⟩ | ⟨hop, heq⟩ | ⟨hop, heq⟩ | ⟨-, -, hop, heq, -⟩
    · rw [heq] at hmem
      exact hstart _ (World.connectSide_handlePing ..) hmem
    · rw [heq] at hmem
      rcases World.syns_handleTcpConnect hmem with hold | ⟨hidle, hnew⟩
      · cases hold
      · exact (if_neg (not_not.2 hidle)).trans (congrArg some hnew.symm)
    · obtain ⟨seq, hsend⟩ := World.connectSide_handleTcpSend e s.enter msg
      rw [heq, hsend] at hmem
      cases hmem
    · obtain ⟨buf, hrecv⟩ := World.connectSide_handleTcpRecv s.enter msg
      rw [heq, hrecv] at hmem
      cases hmem
    · rw [heq, World.syns_replyData, World.connectSide_handleTcpClose] at hmem
      cases hmem
    · exact hstart _ heq hmem
  | packet frame =>
    have hmem : t ∈ (s.enter.handlePacket e frame).connectSide.syns := ht
    rcases World.handlePacket_cases e s.enter frame with ⟨srcIp, seg, -, heq⟩ | ⟨-, payload, heq⟩ | ⟨-, heq, -, -⟩
    · rw [heq, World.syns_handleTcpIncoming] at hmem
      cases hmem
    · rw [heq] at hmem
      have hside : ((s.enter.answerArp e payload).resumePing e).connectSide = s.enter.connectSide := by
        rw [World.connectSide_resumePing, World.connectSide_answerArp]
      have hsm : ((s.enter.answerArp e payload).resumePing e).server.tcpSm = s.tcpSm := congrArg ConnectSide.sm hside
      have hconn : ((s.enter.answerArp e payload).resumePing e).server.conn = s.conn := congrArg ConnectSide.conn hside
      rcases World.syns_resumeConnect hmem with hold | ⟨hwait, hnew⟩
      · exact hstart _ hside hold
      · rw [hsm] at hwait hnew
        have hpending : s.tcpSm.state ≠ .idle := by
          rw [hwait]
          exact SmState.noConfusion
        refine (if_pos hpending).trans ?_
        rw [hnew, hconn, (h hpending).2.2]
    · exact hstart _ heq hmem
  | deadlines =>
    have hmem : t ∈ ((s.enter.checkPing e).checkConnect e).connectSide.syns := ht
    rw [World.syns_checkConnect] at hmem
    exact hstart _ (World.connectSide_checkPing ..) hmem

theorem meets_iff {s : Server} (h : Agrees s.conn s.tcpSm) (op : Env × NetOp) : s.Meets op ↔ s.Undisturbed op := by
  constructor
  · exact fun hmeets => (agrees_handle h op.1 op.2).1 (hmeets _ _ rfl).1
  · intro hguard y out hstep
    cases hstep
    exact ⟨(agrees_handle h op.1 op.2).2 hguard, fun t ht => syns_handle h op.1 op.2 ht⟩

/-- How often the process has asked. -/
def asked (op : Word) (pid : Nat) (es : List ((Env × NetOp) × List Output)) : Nat := (es.map fun e => e.1.2.asks op pid).sum

/-- How often the process has been answered. -/
def answered (op : Word) (pid : Nat) (es : List ((Env × NetOp) × List Output)) : Nat :=
  (es.map fun e => e.2.countP (Output.answers op pid)).sum

/-- Every request has been answered, or it is pending. -/
theorem answered_run {mac : Mac} {es : List ((Env × NetOp) × List Output)} {y : Server}
    (h : Run step (fun _ _ => True) (boot mac) es y) (pid : Nat) :
    asked opNetTcpConnect pid es = answered opNetTcpConnect pid es + y.connecting pid ∧
      asked opNetPing pid es = answered opNetPing pid es + y.pinging pid := by
  refine h.history (P := fun es s => asked opNetTcpConnect pid es = answered opNetTcpConnect pid es + s.connecting pid ∧
    asked opNetPing pid es = answered opNetPing pid es + s.pinging pid) ?_ ⟨rfl, rfl⟩
  intro es t u i out ih _ hstep
  cases hstep
  have hconnect := connectDue_handle t i.1 i.2 pid
  have hping := pingDue_handle t i.1 i.2 pid
  have hconnect' : (t.handle i.1 i.2).connectSide.due pid =
      (t.handle i.1 i.2).out.countP (Output.answers opNetTcpConnect pid) + (t.handle i.1 i.2).server.connecting pid := rfl
  have hping' : (t.handle i.1 i.2).pingSide.due pid =
      (t.handle i.1 i.2).out.countP (Output.answers opNetPing pid) + (t.handle i.1 i.2).server.pinging pid := rfl
  obtain ⟨ihconnect, ihping⟩ := ih
  unfold asked answered at ihconnect ihping ⊢
  simp only [List.map_append, List.map_cons, List.map_nil, List.sum_append, List.sum_cons, List.sum_nil]
  omega

/-- A pending connect has been begun by this event, or its deadline stands. -/
theorem connect_deadline (s : Server) (e : Env) (op : NetOp) :
    (s.handle e op).server.tcpSm.deadline = e.now + 5000000000 ∨ s.tcpSm.Waits (s.handle e op).server.tcpSm := by
  have hsame : ∀ sm : TcpSm, sm = s.tcpSm → s.tcpSm.Waits sm := by
    rintro _ rfl h
    exact ⟨h, rfl⟩
  cases op with
  | request msg =>
    show (s.enter.handleIpc e msg).server.tcpSm.deadline = _ ∨ s.tcpSm.Waits (s.enter.handleIpc e msg).server.tcpSm
    rcases World.handleIpc_cases e s.enter msg with
      ⟨-, heq⟩ | ⟨-, heq⟩ | ⟨-, heq⟩ | ⟨-, heq⟩ | ⟨-, heq⟩ | ⟨-, -, -, heq, -⟩
    · rw [heq]
      exact .inr (hsame _ (congrArg ConnectSide.sm (World.connectSide_handlePing e s.enter msg)))
    · rw [heq]
      exact (World.sm_handleTcpConnect e s.enter msg).symm.imp_right (hsame _)
    · obtain ⟨seq, hside⟩ := World.connectSide_handleTcpSend e s.enter msg
      rw [heq]
      exact .inr (hsame _ (congrArg ConnectSide.sm hside))
    · obtain ⟨buf, hside⟩ := World.connectSide_handleTcpRecv s.enter msg
      rw [heq]
      exact .inr (hsame _ (congrArg ConnectSide.sm hside))
    · rw [heq]
      exact .inr (hsame _ (congrArg ConnectSide.sm (World.connectSide_handleTcpClose e s.enter)))
    · exact .inr (hsame _ (congrArg ConnectSide.sm heq))
  | packet frame =>
    show (s.enter.handlePacket e frame).server.tcpSm.deadline = _ ∨ s.tcpSm.Waits (s.enter.handlePacket e frame).server.tcpSm
    rcases World.handlePacket_cases e s.enter frame with ⟨srcIp, seg, -, heq⟩ | ⟨-, payload, heq⟩ | ⟨-, heq, -, -⟩
    · rw [heq]
      exact .inr (World.waits_handleTcpIncoming e s.enter srcIp seg)
    · rw [heq]
      have hside : ((s.enter.answerArp e payload).resumePing e).connectSide = s.enter.connectSide := by
        rw [World.connectSide_resumePing, World.connectSide_answerArp]
      have hsm : ((s.enter.answerArp e payload).resumePing e).server.tcpSm = s.tcpSm := congrArg ConnectSide.sm hside
      exact .inr (hsm ▸ World.waits_resumeConnect e _)
    · exact .inr (hsame _ (congrArg ConnectSide.sm heq))
  | deadlines =>
    have hsm : (s.enter.checkPing e).server.tcpSm = s.tcpSm := congrArg ConnectSide.sm (World.connectSide_checkPing e s.enter)
    exact .inr (hsm ▸ World.waits_checkConnect e _)

/-- A pending ping has been begun by this event, or its deadline stands. -/
theorem ping_deadline (s : Server) (e : Env) (op : NetOp) :
    (s.handle e op).server.ping.deadline = e.now + 2000000000 ∨ s.ping.Waits (s.handle e op).server.ping := by
  have hsame : ∀ w : World, w.pingSide = s.enter.pingSide → s.ping.Waits w.server.ping := by
    intro w hw h
    have hping : w.server.ping = s.ping := World.ping_of_pingSide hw
    rw [hping] at h ⊢
    exact ⟨h, rfl⟩
  cases op with
  | request msg =>
    show (s.enter.handleIpc e msg).server.ping.deadline = _ ∨ s.ping.Waits (s.enter.handleIpc e msg).server.ping
    rcases World.handleIpc_cases e s.enter msg with
      ⟨-, heq⟩ | ⟨-, heq⟩ | ⟨-, heq⟩ | ⟨-, heq⟩ | ⟨-, heq⟩ | ⟨-, -, -, -, heq⟩
    · rw [heq]
      exact World.ping_handlePing e s.enter msg
    · rw [heq]
      exact .inr (hsame _ (World.pingSide_handleTcpConnect e s.enter msg))
    · rw [heq]
      exact .inr (hsame _ (World.pingSide_handleTcpSend e s.enter msg))
    · rw [heq]
      exact .inr (hsame _ (World.pingSide_handleTcpRecv s.enter msg))
    · rw [heq]
      exact .inr (hsame _ ((World.pingSide_replyData (by decide)).trans (World.pingSide_handleTcpClose e s.enter)))
    · exact .inr (hsame _ heq)
  | packet frame =>
    show (s.enter.handlePacket e frame).server.ping.deadline = _ ∨ s.ping.Waits (s.enter.handlePacket e frame).server.ping
    rcases World.handlePacket_cases e s.enter frame with ⟨srcIp, seg, -, heq⟩ | ⟨-, payload, heq⟩ | ⟨-, -, heq, -⟩
    · rw [heq]
      exact .inr (hsame _ (World.pingSide_handleTcpIncoming e s.enter srcIp seg))
    · rw [heq]
      have hping : (((s.enter.answerArp e payload).resumePing e).resumeConnect e).server.ping =
          ((s.enter.answerArp e payload).resumePing e).server.ping := World.ping_of_pingSide (World.pingSide_resumeConnect ..)
      have hstart : (s.enter.answerArp e payload).server.ping = s.ping :=
        World.ping_of_pingSide (World.pingSide_answerArp e s.enter payload)
      refine .inr ?_
      unfold World.handleArpPacket
      rw [hping]
      exact hstart ▸ World.waits_resumePing e _
    · exact .inr heq
  | deadlines =>
    have hping : ((s.enter.checkPing e).checkConnect e).server.ping = (s.enter.checkPing e).server.ping :=
      World.ping_of_pingSide (World.pingSide_checkConnect ..)
    refine .inr ?_
    show s.ping.Waits ((s.enter.checkPing e).checkConnect e).server.ping
    rw [hping]
    exact World.waits_checkPing e s.enter

/-- A late connect is not pending after the check, and neither is a late ping. -/
theorem deadlines_settle {s : Server} {e : Env} (pid : Nat) :
    (s.tcpSm.deadline ≤ e.now → (s.handle e .deadlines).server.connecting pid = 0) ∧
      (s.ping.deadline ≤ e.now → (s.handle e .deadlines).server.pinging pid = 0) := by
  constructor
  · intro hlate
    have hsm : (s.enter.checkPing e).server.tcpSm = s.tcpSm := congrArg ConnectSide.sm (World.connectSide_checkPing e s.enter)
    have hidle : (s.handle e .deadlines).server.tcpSm.state = .idle := World.state_checkConnect (by rw [hsm]; exact hlate)
    exact if_neg fun h => h.1 hidle
  · intro hlate
    have hping : (s.handle e .deadlines).server.ping = (s.enter.checkPing e).server.ping :=
      World.ping_of_pingSide (World.pingSide_checkConnect ..)
    have hidle : (s.handle e .deadlines).server.ping.state = .idle := by
      rw [hping]
      exact World.state_checkPing hlate
    exact if_neg fun h => h.1 hidle

/-- The connection and the pending connect agree, and SYNs go only where they may, exactly as long as no pending connect is
disturbed.  In every run each connect and each ping has been answered once, but for the pending ones; their deadlines stand,
and they are answered when these are over. -/
theorem connect_agrees (mac : Mac) (es : List ((Env × NetOp) × List Output)) (y : Server) :
    (Run step Meets (boot mac) es y ↔ Run step Undisturbed (boot mac) es y) ∧
    (Run step (fun _ _ => True) (boot mac) es y → ∀ pid,
      asked opNetTcpConnect pid es = answered opNetTcpConnect pid es + y.connecting pid ∧
      asked opNetPing pid es = answered opNetPing pid es + y.pinging pid) ∧
    (∀ e op, ((y.handle e op).server.tcpSm.deadline = e.now + 5000000000 ∨ y.tcpSm.Waits (y.handle e op).server.tcpSm) ∧
      ((y.handle e op).server.ping.deadline = e.now + 2000000000 ∨ y.ping.Waits (y.handle e op).server.ping)) ∧
    ∀ (e : Env) (pid : Nat), (y.tcpSm.deadline ≤ e.now → (y.handle e .deadlines).server.connecting pid = 0) ∧
      (y.ping.deadline ≤ e.now → (y.handle e .deadlines).server.pinging pid = 0) := by
  refine ⟨?_, answered_run, fun e op => ⟨connect_deadline y e op, ping_deadline y e op⟩, fun e pid => deadlines_settle pid⟩
  refine Run.iff_of_invariant (P := fun s => Agrees s.conn s.tcpSm) (fun h => absurd rfl h) (fun h _ => meets_iff h _) ?_
  intro t u i r _ hmeets hstep
  exact (hmeets u r hstep).1

/-- Process 7 connects to port 80 of the gateway, and closes while the address is being resolved. -/
def closedEarly : List (Env × NetOp) :=
  [(Reordering.quietEnv, .request ⟨7, #v[opNetTcpConnect, 0x0202000A, 80, 0, 0, 0, 0, 0]⟩),
    (Reordering.quietEnv, .request ⟨7, #v[opNetTcpClose, 1, 0, 0, 0, 0, 0, 0]⟩)]

/-- The answer of the gateway. -/
def gatewayArp : NetOp :=
  .packet (buildArpReply (Vector.replicate 6 1) Reordering.gatewayIp (Vector.replicate 6 0) ourIp frameBufSize)

/-- The connect is pending for a connection that is closed, and its SYN goes to port 0. -/
theorem connect_disturbed : ∃ mac es y, Run step (fun _ _ => True) (boot mac) es y ∧ ¬ Agrees y.conn y.tcpSm ∧
    ∃ e op, ∃ t ∈ (y.handle e op).connectSide.syns, y.target op ≠ some t := by
  have hexec : (exec step (fun _ _ => True) (boot (Vector.replicate 6 0)) closedEarly).any (fun out =>
      decide (out.1.tcpSm.state = .waitArp ∧ out.1.conn.state = .closed ∧
        (out.1.handle Reordering.quietEnv gatewayArp).connectSide.syns = [(#v[10, 0, 2, 2], 0)] ∧
        out.1.target gatewayArp = some (#v[10, 0, 2, 2], 80))) = true := by
    decide
  obtain ⟨⟨y, es⟩, hrun, hout⟩ := (Option.any_eq_true _ _).1 hexec
  obtain ⟨hwait, hclosed, hsyns, htarget⟩ := of_decide_eq_true hout
  refine ⟨_, es, y, run_of_exec hrun, fun h => ?_, Reordering.quietEnv, gatewayArp, (#v[10, 0, 2, 2], 0), ?_, ?_⟩
  · have hstate := (h (by rw [hwait]; exact SmState.noConfusion)).1
    rw [hclosed] at hstate
    cases hstate
  · rw [hsyns]
    exact List.mem_singleton_self _
  · rw [htarget]
    decide

end Server

end Rost.Net
