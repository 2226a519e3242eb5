import BareMetal.Tcp.Ownership

/-! # Polling an idle connection

`app_tcp_accept` asks to be polled every ten ticks of the coarse timer, and `app_tcp_poll` aborts the
connection: a watchdog for connections that have stayed idle. The ticks are counted in `polltmr`, which is
cleared when an ACK for new data arrives and by nothing else that the other end does. Here the connection is
watched by a clock of its own that starts at each data segment, and it is said exactly when the connection
is aborted although data have just arrived (`poll_idle_iff`). -/

namespace BareMetal.Tcp

variable {c : Config} {m : Mem} {i : InSeg} {ph ph' : Phase} {conn conn' conn'' : Conn} {e : Event}
  {pcb pcb' pcb'' : Pcb} {b : Bool}

/-! ## What changes the poll timer -/

/-- The poll timer goes on or is cleared, and its interval stays or is the one of `app_tcp_accept`. -/
structure PollFrom (pcb pcb' : Pcb) : Prop where
  lastTimer : pcb'.lastTimer = pcb.lastTimer
  polltmr : pcb'.polltmr = pcb.polltmr ∨ pcb'.polltmr = 0
  interval : pcb'.cb.poll = pcb.cb.poll ∧ pcb'.pollinterval = pcb.pollinterval ∨
    pcb'.cb.poll = true ∧ pcb'.pollinterval = 10

/-- Nothing happened to the poll timer. -/
theorem PollFrom.refl (pcb : Pcb) : PollFrom pcb pcb := ⟨rfl, .inl rfl, .inl ⟨rfl, rfl⟩⟩

/-- What two parts do to the poll timer, one after the other. -/
theorem PollFrom.trans (h : PollFrom pcb pcb') (h' : PollFrom pcb' pcb'') : PollFrom pcb pcb'' := by
  refine ⟨h'.lastTimer.trans h.lastTimer, ?_, ?_⟩
  · rcases h'.polltmr with heq | hzero
    · rw [heq]
      exact h.polltmr
    · exact .inr hzero
  · rcases h'.interval with ⟨hpoll, hinterval⟩ | hten
    · rw [hpoll, hinterval]
      exact h.interval
    · exact .inr hten

/-- Equal views have the same poll timer. -/
theorem PollFrom.of_view (h : pcb'.view = pcb.view) : PollFrom pcb pcb' :=
  ⟨congrArg View.lastTimer h, .inl (congrArg View.polltmr h),
    .inl ⟨congrArg (fun v => v.cb.poll) h, congrArg View.pollinterval h⟩⟩

/-- The poll timer while data are received in sequence. -/
theorem pollFrom_advance (len : UInt16) (pcb : Pcb) : PollFrom pcb (advance c len pcb) := by
  have hview := view_advance c len pcb
  exact ⟨congrArg View.lastTimer hview, .inl (congrArg View.polltmr hview),
    .inl ⟨congrArg (fun v => v.cb.poll) hview, congrArg View.pollinterval hview⟩⟩

/-- The poll timer through the loop over `ooseq`. -/
theorem pollFrom_takeOoseq (ooseq : List Seg) (r : Received) :
    PollFrom r.pcb (takeOoseq c ooseq r).pcb := by
  induction ooseq generalizing r with
  | nil => exact ⟨rfl, .inl rfl, .inl ⟨rfl, rfl⟩⟩
  | cons cseg rest ih =>
      unfold takeOoseq
      split
      · have hadv := pollFrom_advance (c := c) cseg.tcpLen r.pcb
        dsimp only
        set pcb := advance c cseg.tcpLen r.pcb
        split
        · have hrest := ih ⟨{ pcb with state := .closeWait }, r.gotFin || cseg.flags.fin,
            catData r.recvData cseg.p⟩
          exact hadv.trans ⟨hrest.lastTimer, hrest.polltmr, hrest.interval⟩
        · exact hadv.trans (ih ⟨pcb, r.gotFin || cseg.flags.fin, catData r.recvData cseg.p⟩)
      · exact ⟨rfl, .inl rfl, .inl ⟨rfl, rfl⟩⟩

/-- The poll timer through a segment in sequence. -/
theorem pollFrom_receiveInOrder (seg : Seg) (pcb : Pcb) : PollFrom pcb (receiveInOrder c seg pcb).pcb := by
  unfold receiveInOrder
  dsimp only
  set seg₁ := (adjustOoseq (trimToWnd pcb.rcv.rcvWnd seg) pcb.ooseq).1
  have htake := pollFrom_takeOoseq (c := c) (adjustOoseq (trimToWnd pcb.rcv.rcvWnd seg) pcb.ooseq).2
    ⟨advance c seg₁.tcpLen pcb, seg₁.flags.fin, catData none seg₁.p⟩
  exact ((pollFrom_advance seg₁.tcpLen pcb).trans htake).trans (.of_view (view_tcpAck _))

/-- The poll timer through the text of a segment. -/
theorem pollFrom_receiveText (ackAlloc copied : Bool) (i : InSeg) (pcb : Pcb) :
    PollFrom pcb (receiveText c ackAlloc copied i pcb).pcb := by
  unfold receiveText
  dsimp only
  split
  · set pcb₁ := if seqBetween pcb.rcv.rcvNxt (i.seg.seqno + 1) (i.seg.seqno + u32 i.tcplen - 1) = false ∧
      seqLt i.seg.seqno pcb.rcv.rcvNxt = true then tcpAckNow pcb else pcb with hpcb₁
    have hack : PollFrom pcb pcb₁ := by
      rw [hpcb₁]
      split
      · exact .of_view (view_tcpAckNow pcb)
      · exact .refl pcb
    apply hack.trans
    have hempty := PollFrom.of_view (view_tcpSendEmptyAck ackAlloc pcb₁)
    generalize (if seqBetween pcb.rcv.rcvNxt (i.seg.seqno + 1) (i.seg.seqno + u32 i.tcplen - 1) = true then
      trimFront pcb₁.rcv.rcvNxt i.seg else i.seg) = seg
    split
    · split
      · exact pollFrom_receiveInOrder seg pcb₁
      · exact ⟨hempty.lastTimer, hempty.polltmr, hempty.interval⟩
    · exact hempty
  · split
    · exact .refl pcb
    · exact .of_view (view_tcpAckNow pcb)

/-- The poll timer through `tcp_receive`: a new ACK clears it. -/
theorem pollFrom_tcpReceive (ticks : UInt32) (ackAlloc copied : Bool) (i : InSeg) (pcb : Pcb) :
    PollFrom pcb (tcpReceive c ticks ackAlloc copied i pcb).pcb := by
  unfold tcpReceive
  split
  · obtain ⟨n, hn, hview⟩ := view_receiveAck ticks i pcb
    have hack : PollFrom pcb (receiveAck ticks i pcb) := by
      refine ⟨congrArg View.lastTimer hview, ?_,
        .inl ⟨congrArg (fun v => v.cb.poll) hview, congrArg View.pollinterval hview⟩⟩
      rw [show (receiveAck ticks i pcb).polltmr = n from congrArg View.polltmr hview]
      exact hn
    exact hack.trans (pollFrom_receiveText ackAlloc copied i _)
  · exact pollFrom_receiveText ackAlloc copied i pcb

/-- The same for a connection; its clock stands still. -/
structure KeepsPoll (conn conn' : Conn) : Prop where
  timerCtr : conn'.timerCtr = conn.timerCtr
  pcb : PollFrom conn.pcb conn'.pcb

/-- Nothing happened to the connection. -/
theorem KeepsPoll.refl (conn : Conn) : KeepsPoll conn conn := ⟨rfl, .refl _⟩

/-- What two calls keep, both of them keep. -/
theorem KeepsPoll.trans (h : KeepsPoll conn conn') (h' : KeepsPoll conn' conn'') : KeepsPoll conn conn'' :=
  ⟨h'.timerCtr.trans h.timerCtr, h.pcb.trans h'.pcb⟩

/-- An update of the block counts as what it does to the poll timer. -/
theorem keepsPoll_onPcb {f : Pcb → Pcb} (h : PollFrom conn.pcb (f conn.pcb)) :
    KeepsPoll conn (conn.onPcb f) :=
  ⟨rfl, h⟩

/-- `tcp_output` is about the sender. -/
theorem keepsPoll_output (conn : Conn) : KeepsPoll conn (Conn.output c m conn) :=
  keepsPoll_onPcb (.of_view (view_tcpOutput c _ _ _ _))

/-- Purging a block leaves its poll timer. -/
theorem pollFrom_tcpPcbPurge (pcb : Pcb) : PollFrom pcb (tcpPcbPurge pcb) := by
  unfold tcpPcbPurge
  split
  · exact ⟨rfl, .inl rfl, .inl ⟨rfl, rfl⟩⟩
  · exact .refl pcb

/-- Removing a block leaves its poll timer. -/
theorem keepsPoll_tcpPcbRemove (conn : Conn) : KeepsPoll conn (tcpPcbRemove c m conn) := by
  set conn₁ := { conn with home := .unlisted }.onPcb tcpPcbPurge with hconn₁
  have hpurge : KeepsPoll conn conn₁ := ⟨rfl, pollFrom_tcpPcbPurge conn.pcb⟩
  unfold tcpPcbRemove
  dsimp only
  split
  · have hout := keepsPoll_output (c := c) (m := m) (conn₁.onPcb tcpAckNow)
    exact hpurge.trans ⟨hout.timerCtr, hout.pcb.lastTimer, hout.pcb.polltmr, hout.pcb.interval⟩
  · exact hpurge.trans ⟨rfl, rfl, .inl rfl, .inl ⟨rfl, rfl⟩⟩

/-- `app_tcp_conn_err` only frees the buffer. -/
theorem keepsPoll_tcpEventErr (cb : Callbacks) (conn : Conn) : KeepsPoll conn (tcpEventErr cb conn) := by
  unfold tcpEventErr
  split
  · exact ⟨rfl, .refl _⟩
  · exact .refl conn

/-- Abandoning a connection leaves the poll timer of its block. -/
theorem keepsPoll_tcpAbandon (conn : Conn) : KeepsPoll conn (tcpAbandon c m conn) := by
  have hremove := keepsPoll_tcpPcbRemove (c := c) (m := m) conn
  unfold tcpAbandon
  split
  · exact ⟨hremove.timerCtr, hremove.pcb⟩
  · have hremoved : KeepsPoll conn (mempFree (tcpPcbRemoveActive c m conn)) :=
      ⟨hremove.timerCtr, hremove.pcb⟩
    exact hremoved.trans (keepsPoll_tcpEventErr _ _)

/-- Sending a FIN leaves the poll timer. -/
theorem keepsPoll_sendFinTo (state : TcpState) (conn : Conn) :
    KeepsPoll conn (sendFinTo c m state conn).2 := by
  have hsent := PollFrom.of_view (view_tcpSendFin c m.finAlloc conn.pcb)
  unfold sendFinTo
  dsimp only
  split
  · have hstate : KeepsPoll conn
        { conn with pcb := { (tcpSendFin c m.finAlloc conn.pcb).2 with state := state } } :=
      ⟨rfl, hsent.lastTimer, hsent.polltmr, hsent.interval⟩
    exact hstate.trans (keepsPoll_output _)
  · exact ⟨rfl, hsent⟩

/-- The way to TIME_WAIT leaves the poll timer. -/
theorem keepsPoll_toTimeWait (conn : Conn) : KeepsPoll conn (toTimeWait conn) := by
  have hpurge := pollFrom_tcpPcbPurge conn.pcb
  exact ⟨rfl, hpurge.lastTimer, hpurge.polltmr, hpurge.interval⟩

/-- Every branch of `tcp_close_shutdown` leaves the poll timer. -/
theorem keepsPoll_tcpCloseShutdown (rst : Bool) (conn : Conn) :
    KeepsPoll conn (tcpCloseShutdown c m rst conn).2 := by
  have hremove := keepsPoll_tcpPcbRemove (c := c) (m := m) conn
  unfold tcpCloseShutdown
  dsimp only
  split
  · split
    · exact keepsPoll_toTimeWait conn
    · exact ⟨rfl, pollFrom_tcpPcbPurge conn.pcb⟩
  · split
    · exact ⟨rfl, .refl _⟩
    · exact ⟨hremove.timerCtr, hremove.pcb⟩
    · exact ⟨hremove.timerCtr, hremove.pcb⟩
    · exact keepsPoll_sendFinTo _ conn
    · exact keepsPoll_sendFinTo _ conn
    · exact keepsPoll_sendFinTo _ conn
    · exact .refl conn

/-- `tcp_close` only adds its mark. -/
theorem keepsPoll_tcpClose (conn : Conn) : KeepsPoll conn (tcpClose c m conn).2 := by
  unfold tcpClose
  dsimp only
  refine KeepsPoll.trans ?_ (keepsPoll_tcpCloseShutdown true _)
  split
  · exact ⟨rfl, rfl, .inl rfl, .inl ⟨rfl, rfl⟩⟩
  · exact .refl conn

/-- Opening the window leaves the poll timer. -/
theorem keepsPoll_tcpRecved (len : UInt16) (conn : Conn) : KeepsPoll conn (tcpRecved c m len conn) := by
  unfold tcpRecved
  dsimp only
  generalize (if c.tcpWnd < conn.pcb.rcv.rcvWnd + len then c.tcpWnd else conn.pcb.rcv.rcvWnd + len) = wnd
  have hview := view_tcpUpdateRcvAnnWnd c { conn.pcb with rcv := { conn.pcb.rcv with rcvWnd := wnd } }
  have hupdate : KeepsPoll conn { conn with pcb := (tcpUpdateRcvAnnWnd c
      { conn.pcb with rcv := { conn.pcb.rcv with rcvWnd := wnd } }).2 } :=
    ⟨rfl, congrArg View.lastTimer hview, .inl (congrArg View.polltmr hview),
      .inl ⟨congrArg (fun v => v.cb.poll) hview, congrArg View.pollinterval hview⟩⟩
  split
  · refine hupdate.trans (KeepsPoll.trans ?_ (keepsPoll_output _))
    exact keepsPoll_onPcb (.of_view (view_tcpAckNow _))
  · exact hupdate

/-- The receive callback leaves the poll timer, whatever it is. -/
theorem keepsPoll_tcpEventRecv (p : Option Chain) (fin : Bool) (conn : Conn) :
    KeepsPoll conn (tcpEventRecv c m p fin conn).2 := by
  cases hrecv : conn.pcb.cb.recv with
  | appTcpRecv =>
      have hcall : KeepsPoll conn (appTcpRecv c m p .ok conn).2 := by
        cases p with
        | some p =>
            unfold appTcpRecv
            dsimp only
            split
            · exact .refl conn
            · exact ⟨rfl, .refl _⟩
        | none =>
            have hclose := keepsPoll_tcpClose (c := c) (m := m)
              { conn with app := conn.app.free conn.pcb.cb.arg }
            exact ⟨hclose.timerCtr, hclose.pcb⟩
      rw [tcpEventRecv, hrecv]
      exact ⟨hcall.timerCtr, hcall.pcb⟩
  | tcpRecvNull =>
      have hcall : KeepsPoll conn (tcpRecvNull c m p .ok conn).2 := by
        cases p with
        | some p => exact keepsPoll_tcpRecved _ conn
        | none => exact keepsPoll_tcpClose conn
      rw [tcpEventRecv, hrecv]
      exact ⟨hcall.timerCtr, hcall.pcb⟩

/-- `tcp_receive` on the block of the connection. -/
theorem keepsPoll_receive (i : InSeg) (conn : Conn) : KeepsPoll conn (Conn.receive c m i conn).conn :=
  ⟨rfl, pollFrom_tcpReceive _ _ _ i conn.pcb⟩

/-- The state behind a FIN comes with an ACK, no more. -/
theorem keepsPoll_ackFinTo (state : TcpState) (conn : Conn) : KeepsPoll conn (ackFinTo state conn) :=
  ⟨rfl, rfl, .inl rfl, .inl ⟨rfl, rfl⟩⟩

/-- The end of the handshake, with what `app_tcp_accept` sets. -/
theorem keepsPoll_processSynRcvd (conn : Conn) : KeepsPoll conn (processSynRcvd c m i conn).conn := by
  unfold processSynRcvd
  split
  · split
    · -- `app_tcp_accept` sets the poll callback and its interval
      set conn₁ := (appTcpAccept m .ok (conn.onPcb fun pcb => { pcb with state := .established })).2
        with hconn₁
      have haccept : KeepsPoll conn conn₁ := ⟨rfl, rfl, .inl rfl, .inr ⟨rfl, rfl⟩⟩
      have hreceive := keepsPoll_receive (c := c) (m := m) i conn₁.deref
      have hdone := haccept.trans ⟨hreceive.timerCtr, hreceive.pcb⟩
      dsimp only
      rw [if_neg (fun hne => hne rfl)]
      dsimp only
      split
      · exact hdone.trans ⟨rfl, rfl, .inl rfl, .inl ⟨rfl, rfl⟩⟩
      · exact hdone.trans ⟨rfl, rfl, .inl rfl, .inl ⟨rfl, rfl⟩⟩
    · exact .refl conn
  · split
    · exact keepsPoll_onPcb (.of_view (view_tcpRexmit conn.pcb))
    · exact .refl conn

/-- The states behind the handshake, which all go through `tcp_receive`. -/
theorem keepsPoll_processSynchronized (conn : Conn) :
    KeepsPoll conn (processSynchronized c m i conn).conn := by
  have hreceive := keepsPoll_receive (c := c) (m := m) i conn
  have hack : ∀ conn : Conn, KeepsPoll conn (conn.onPcb tcpAckNow) :=
    fun conn => keepsPoll_onPcb (.of_view (view_tcpAckNow conn.pcb))
  unfold processSynchronized
  dsimp only
  split
  · split
    · exact hreceive.trans (keepsPoll_ackFinTo _ _)
    · exact hreceive
  · split
    · exact hreceive.trans (keepsPoll_ackFinTo _ _)
    · exact hreceive
  · split
    · split
      · exact hreceive.trans ((hack _).trans (keepsPoll_toTimeWait _))
      · exact hreceive.trans (keepsPoll_ackFinTo _ _)
    · split
      · exact hreceive.trans ⟨rfl, rfl, .inl rfl, .inl ⟨rfl, rfl⟩⟩
      · exact hreceive
  · split
    · exact hreceive.trans ((hack _).trans (keepsPoll_toTimeWait _))
    · exact hreceive
  · split
    · exact hreceive.trans (keepsPoll_toTimeWait _)
    · exact hreceive
  · exact hreceive
  · exact .refl conn

/-- The poll timer through `tcp_process`. -/
theorem keepsPoll_tcpProcess (conn : Conn) : KeepsPoll conn (tcpProcess c m i conn).conn := by
  unfold tcpProcess
  split
  · split
    · exact ⟨rfl, rfl, .inl rfl, .inl ⟨rfl, rfl⟩⟩
    · exact .refl conn
  · split
    · exact keepsPoll_onPcb (.of_view (view_tcpAckNow conn.pcb))
    · have hcommon : KeepsPoll conn (processCommon c i conn) := ⟨rfl, rfl, .inl rfl, .inl ⟨rfl, rfl⟩⟩
      dsimp only
      apply hcommon.trans
      split
      · unfold processSynSent
        split
        · exact .refl _
        · dsimp only
          split
          · exact ⟨rfl, rfl, .inl rfl, .inl ⟨rfl, rfl⟩⟩
          · exact .refl _
      · exact keepsPoll_processSynRcvd _
      · exact keepsPoll_processSynchronized _

/-- Telling the application of the end leaves the poll timer. -/
theorem keepsPoll_tcpEventClosed (conn : Conn) : KeepsPoll conn (tcpEventClosed c m conn).2 := by
  unfold tcpEventClosed
  dsimp only
  refine KeepsPoll.trans ?_ (keepsPoll_tcpEventRecv none false _)
  split
  · exact ⟨rfl, rfl, .inl rfl, .inl ⟨rfl, rfl⟩⟩
  · exact .refl conn

/-- The end of `tcp_input` with or without a FIN. -/
theorem keepsPoll_deliverFin (gotFin : Bool) (conn : Conn) : KeepsPoll conn (deliverFin c m gotFin conn) := by
  have hfinish : ∀ conn : Conn, KeepsPoll conn (Conn.output c m { conn.deref with inputPcb := false }) := by
    intro conn
    have hout := keepsPoll_output (c := c) (m := m) { conn.deref with inputPcb := false }
    exact ⟨hout.timerCtr, hout.pcb⟩
  unfold deliverFin
  dsimp only
  split
  · split
    · refine KeepsPoll.trans ?_ (hfinish _)
      exact ⟨rfl, rfl, .inl rfl, .inl ⟨rfl, rfl⟩⟩
    · have hclosed := keepsPoll_tcpEventClosed (c := c) (m := m) conn.deref
      have hclosed' : KeepsPoll conn (tcpEventClosed c m conn.deref).2 := ⟨hclosed.timerCtr, hclosed.pcb⟩
      split
      · exact hclosed'
      · exact hclosed'.trans (hfinish _)
  · exact hfinish conn

/-- The end of `tcp_input` with data for the application. -/
theorem keepsPoll_deliver (gotFin : Bool) (recvData : Option Chain) (conn : Conn) :
    KeepsPoll conn (deliver c m gotFin recvData conn) := by
  unfold deliver
  split
  · exact keepsPoll_deliverFin gotFin conn
  · next p =>
      split
      · exact keepsPoll_tcpAbandon conn
      · have hrecv := keepsPoll_tcpEventRecv (c := c) (m := m) (some p) gotFin conn
        dsimp only
        split
        · exact hrecv
        · split
          · exact hrecv.trans (keepsPoll_deliverFin gotFin _)
          · refine hrecv.trans (KeepsPoll.trans ?_ (keepsPoll_deliverFin gotFin _))
            exact ⟨rfl, rfl, .inl rfl, .inl ⟨rfl, rfl⟩⟩

/-- **`tcp_input` behind `tcp_process`** leaves the poll timer. -/
theorem keepsPoll_afterProcess (r : Processed) : KeepsPoll r.conn (afterProcess c m r) := by
  have herr := keepsPoll_tcpEventErr r.conn.pcb.cb r.conn
  unfold afterProcess
  split
  · exact .refl r.conn
  · split
    · have hremove := keepsPoll_tcpPcbRemove (c := c) (m := m) (tcpEventErr r.conn.pcb.cb r.conn)
      exact herr.trans ⟨hremove.timerCtr, hremove.pcb⟩
    · split
      · have hremove := keepsPoll_tcpPcbRemove (c := c) (m := m)
          (if r.conn.pcb.flags.rxClosed then r.conn else tcpEventErr r.conn.pcb.cb r.conn)
        have htold : KeepsPoll r.conn
            (if r.conn.pcb.flags.rxClosed then r.conn else tcpEventErr r.conn.pcb.cb r.conn) := by
          split
          · exact .refl r.conn
          · exact herr
        exact htold.trans ⟨hremove.timerCtr, hremove.pcb⟩
      · exact keepsPoll_deliver _ _ r.conn

/-- A segment of the connection. -/
theorem keepsPoll_tcpInput (h : conn.pcb.refusedData = none) : KeepsPoll conn (tcpInput c m i conn) := by
  unfold tcpInput
  dsimp only
  rw [h]
  have hprocess := keepsPoll_tcpProcess (c := c) (m := m) (i := i) { conn with inputPcb := true }
  have hafter := keepsPoll_afterProcess (c := c) (m := m) (tcpProcess c m i { conn with inputPcb := true })
  have hdone := hprocess.trans hafter
  exact ⟨hdone.timerCtr, hdone.pcb⟩

/-! ## The watched connection -/

/-- The event is a tick at which `tcp_slowtmr` calls `app_tcp_poll`. -/
def polls (conn : Conn) : Event → Bool
  | .slowtmr _ =>
      conn.home == .active && conn.pcb.lastTimer != conn.timerCtr + 1 &&
        !(rexmitLimit conn.pcb || stateExpired (conn.ticks + 1) conn.pcb ||
          keepaliveExpired (conn.ticks + 1) conn.pcb) &&
        decide (conn.pcb.pollinterval ≤ conn.pcb.polltmr + 1) && conn.pcb.cb.poll
  | _ => false

/-- The event is a segment with data. -/
def Event.hasData : Event → Bool
  | .segment i _ => decide (0 < i.p.totLen)
  | _ => false

/-- A connection with the clock of its last data segment. -/
structure Watched where
  conn : Conn
  /-- The ticks of the coarse timer since the last data segment, if there was one. -/
  sinceData : Option ℕ
  /-- A data segment has arrived and left `polltmr` running, and it was not cleared since. -/
  dataWhileRunning : Bool
  /-- `app_tcp_poll` was called at a tick with a data segment less than ten ticks before. -/
  abortedBusy : Bool

/-- A connection that is watched from now on. -/
def watch (conn : Conn) : Watched := ⟨conn, none, false, false⟩

/-- The clock goes on at the ticks of `tcp_slowtmr` and starts again at a data segment. -/
def clock (sinceData : Option ℕ) : Event → Option ℕ
  | .slowtmr _ => sinceData.map (· + 1)
  | e => if e.hasData then some 0 else sinceData

/-- One event, watched. -/
def watchStep (c : Config) (w : Watched) (e : Event) : Option Watched :=
  (step c w.conn e).map fun conn' =>
    { conn := conn'
      sinceData := clock w.sinceData e
      dataWhileRunning := if conn'.pcb.polltmr = 0 then false else w.dataWhileRunning || e.hasData
      abortedBusy := w.abortedBusy || polls w.conn e && (clock w.sinceData e).any (· < 10) }

/-- The application is polled only when no data segment has arrived while `polltmr` was running. -/
def PolledIdle (w : Watched) (e : Event) : Prop := polls w.conn e = true → w.dataWhileRunning = false

instance (w : Watched) (e : Event) : Decidable (PolledIdle w e) :=
  inferInstanceAs (Decidable (_ → _))

/-! ## The ticks -/

/-- A tick counts `polltmr` up, or clears it when the interval is over; it leaves the rest of the poll timer. -/
structure Ticked (conn conn' : Conn) : Prop where
  inStep : conn'.pcb.lastTimer = conn'.timerCtr
  poll : conn'.pcb.cb.poll = conn.pcb.cb.poll
  interval : conn'.pcb.pollinterval = conn.pcb.pollinterval
  polltmr : conn'.pcb.polltmr =
    if conn.pcb.pollinterval ≤ conn.pcb.polltmr + 1 then 0 else conn.pcb.polltmr + 1
  notDue : conn.pcb.cb.poll = true → ¬conn.pcb.pollinterval ≤ conn.pcb.polltmr + 1

/-- When the interval is over on an accepted connection, the end of the round is the call of `app_tcp_poll`. -/
theorem Alive.slowtmrPoll_eq (h : Alive ph conn) (hdue : conn.pcb.pollinterval ≤ conn.pcb.polltmr + 1)
    (hpoll : conn.pcb.cb.poll = true) : ∃ conn₁, conn₁.pcb.polltmr = 0 ∧ Alive ph conn₁ ∧
      Tcp.slowtmrPoll c m conn = (appTcpPoll c m conn₁).2 := by
  set conn₁ : Conn := { (conn.onPcb fun pcb => { pcb with polltmr := pcb.polltmr + 1 }).onPcb
      fun pcb => { pcb with polltmr := 0 } with activePcbsChanged := false } with hconn₁
  have h₁ : Alive ph conn₁ :=
    ⟨h.home, h.state, h.rxClosed, h.cb, h.refused, h.frees, h.unobtained, h.noUse, h.pcbSafe⟩
  have hpoll₁ : conn₁.pcb.cb.poll = true := hpoll
  have hchanged := activePcbsChanged_tcpAbandon h₁ (c := c) (m := m)
  refine ⟨conn₁, rfl, h₁, ?_⟩
  unfold Tcp.slowtmrPoll
  dsimp only
  rw [if_pos (show (conn.onPcb fun pcb => { pcb with polltmr := pcb.polltmr + 1 }).pcb.pollinterval ≤
    (conn.onPcb fun pcb => { pcb with polltmr := pcb.polltmr + 1 }).pcb.polltmr from hdue), ← hconn₁]
  unfold tcpEventPoll
  rw [if_pos hpoll₁]
  simp only [appTcpPoll, tcpAbort]
  rw [if_pos hchanged]

/-- A connection that is still there behind the poll was not polled, and counts on. -/
theorem Alive.ticked_slowtmrPoll (h : Alive ph conn) (htimer : conn.pcb.lastTimer = conn.timerCtr)
    (hactive : (Tcp.slowtmrPoll c m conn).home = .active) : Ticked conn (Tcp.slowtmrPoll c m conn) := by
  by_cases hdue : conn.pcb.pollinterval ≤ conn.pcb.polltmr + 1
  · cases hpoll : conn.pcb.cb.poll with
    | true =>
        obtain ⟨conn₁, -, h₁, heq⟩ := h.slowtmrPoll_eq (c := c) (m := m) hdue hpoll
        rw [heq] at hactive
        have hfreed : (appTcpPoll c m conn₁).2.home = .freed := h₁.tcpAbandon.home
        rw [hfreed] at hactive
        cases hactive
    | false =>
        set conn₁ : Conn := { (conn.onPcb fun pcb => { pcb with polltmr := pcb.polltmr + 1 }).onPcb
            fun pcb => { pcb with polltmr := 0 } with activePcbsChanged := false } with hconn₁
        have hpoll₁ : conn₁.pcb.cb.poll = false := hpoll
        have hunchanged : ¬conn₁.activePcbsChanged = true := Bool.false_ne_true
        have heq : Tcp.slowtmrPoll c m conn = Conn.output c m conn₁.deref := by
          unfold Tcp.slowtmrPoll
          dsimp only
          rw [if_pos (show (conn.onPcb fun pcb => { pcb with polltmr := pcb.polltmr + 1 }).pcb.pollinterval ≤
            (conn.onPcb fun pcb => { pcb with polltmr := pcb.polltmr + 1 }).pcb.polltmr from hdue), ← hconn₁]
          unfold tcpEventPoll
          rw [hpoll₁]
          simp only [Bool.false_eq_true, if_false]
          rw [if_neg hunchanged, if_pos trivial]
        have hview : (Conn.output c m conn₁.deref).pcb.view = conn₁.pcb.view := view_tcpOutput c _ _ _ _
        rw [heq]
        refine ⟨(congrArg View.lastTimer hview).trans htimer, congrArg (fun v => v.cb.poll) hview,
          congrArg View.pollinterval hview, ?_, fun hpoll' => ?_⟩
        · rw [if_pos hdue]
          exact congrArg View.polltmr hview
        · rw [hpoll] at hpoll'
          cases hpoll'
  · have heq : Tcp.slowtmrPoll c m conn = conn.onPcb fun pcb => { pcb with polltmr := pcb.polltmr + 1 } :=
      if_neg hdue
    rw [heq]
    exact ⟨htimer, rfl, rfl, (if_neg hdue).symm, fun _ => hdue⟩

/-- A counter is not its successor, also where it wraps. -/
theorem ne_succ (n : UInt8) : ¬n = n + 1 := by
  grind

/-- For an active connection `tcp_slowtmr` is the round for `tcp_active_pcbs`. -/
theorem Alive.tcpSlowtmr_active (h : Alive ph conn) : Tcp.tcpSlowtmr c m conn =
    Tcp.slowtmrActive c m { conn with ticks := conn.ticks + 1, timerCtr := conn.timerCtr + 1 } := by
  have hhome := h.home
  unfold Tcp.tcpSlowtmr
  dsimp only
  split
  · rfl
  · next htimeWait =>
      rw [hhome] at htimeWait
      cases htimeWait
  · next hactive _ => exact absurd hhome hactive

/-- The round of `tcp_slowtmr` for a connection; the timers that send leave what the limits look at. -/
theorem Alive.tcpSlowtmr_eq (h : Alive ph conn) (hround : ¬conn.pcb.lastTimer = conn.timerCtr + 1) :
    Tcp.tcpSlowtmr c m conn =
      if (rexmitLimit conn.pcb || stateExpired (conn.ticks + 1) conn.pcb ||
          keepaliveExpired (conn.ticks + 1) conn.pcb) = true then
        Tcp.slowtmrRemove (conn.afterSlowtmrPcb c m)
      else Tcp.slowtmrPoll c m (conn.afterSlowtmrPcb c m) := by
  obtain ⟨ooseq, -, hview⟩ := view_slowtmrPcb (c := c) (m := m) (conn.ticks + 1)
    { conn.pcb with lastTimer := conn.timerCtr + 1 }
  have hstate : (conn.afterSlowtmrPcb c m).pcb.state = conn.pcb.state := congrArg View.state hview
  have hexpired : stateExpired (conn.ticks + 1) (conn.afterSlowtmrPcb c m).pcb =
      stateExpired (conn.ticks + 1) conn.pcb :=
    stateExpired_congr _ hstate (congrArg View.rxClosed hview) (congrArg View.tmr hview)
  have hkeepalive : keepaliveExpired (conn.ticks + 1) (conn.afterSlowtmrPcb c m).pcb =
      keepaliveExpired (conn.ticks + 1) conn.pcb :=
    keepaliveExpired_congr _ hstate (congrArg View.soKeepalive hview) (congrArg View.keepIdle hview)
      (congrArg View.tmr hview)
  rw [h.tcpSlowtmr_active, ← hexpired, ← hkeepalive]
  exact if_neg hround

/-- A tick that a connection survives counts by one. -/
theorem Alive.ticked (h : Alive ph conn) (htimer : conn.pcb.lastTimer = conn.timerCtr)
    (hactive : (Tcp.tcpSlowtmr c m conn).home = .active) : Ticked conn (Tcp.tcpSlowtmr c m conn) := by
  have hround : ¬conn.pcb.lastTimer = conn.timerCtr + 1 := by
    rw [htimer]
    exact ne_succ conn.timerCtr
  obtain ⟨ooseq, -, hview⟩ := view_slowtmrPcb (c := c) (m := m) (conn.ticks + 1)
    { conn.pcb with lastTimer := conn.timerCtr + 1 }
  have halive := h.afterSlowtmrPcb (c := c) (m := m)
  have htimer' : (conn.afterSlowtmrPcb c m).pcb.lastTimer = (conn.afterSlowtmrPcb c m).timerCtr :=
    congrArg View.lastTimer hview
  rw [h.tcpSlowtmr_eq hround] at hactive ⊢
  split at hactive
  · -- the connection was removed
    rw [halive.slowtmrRemove.home] at hactive
    cases hactive
  · next hlimit =>
      rw [if_neg hlimit]
      have hticked := halive.ticked_slowtmrPoll (c := c) (m := m) htimer' hactive
      have hpoll : (conn.afterSlowtmrPcb c m).pcb.cb.poll = conn.pcb.cb.poll :=
        congrArg (fun v => v.cb.poll) hview
      have hinterval : (conn.afterSlowtmrPcb c m).pcb.pollinterval = conn.pcb.pollinterval :=
        congrArg View.pollinterval hview
      have hpolltmr : (conn.afterSlowtmrPcb c m).pcb.polltmr = conn.pcb.polltmr := congrArg View.polltmr hview
      refine ⟨hticked.inStep, hticked.poll.trans hpoll, hticked.interval.trans hinterval, ?_, ?_⟩
      · have hpolled := hticked.polltmr
        rw [hinterval, hpolltmr] at hpolled
        exact hpolled
      · have hnotDue := hticked.notDue
        rw [hpoll, hinterval, hpolltmr] at hnotDue
        exact hnotDue

/-- `polls` says when `app_tcp_poll` is called: at such a tick the call is the end of the round. -/
theorem Alive.tcpSlowtmr_of_polls (h : Alive ph conn) (hpolls : polls conn (.slowtmr m) = true) :
    ∃ conn₁, Alive ph conn₁ ∧ Tcp.tcpSlowtmr c m conn = (appTcpPoll c m conn₁).2 := by
  simp only [polls, Bool.and_eq_true, Bool.not_eq_true', bne_iff_ne, ne_eq, decide_eq_true_eq] at hpolls
  obtain ⟨⟨⟨⟨-, hround⟩, hlimit⟩, hdue⟩, hpoll⟩ := hpolls
  obtain ⟨ooseq, -, hview⟩ := view_slowtmrPcb (c := c) (m := m) (conn.ticks + 1)
    { conn.pcb with lastTimer := conn.timerCtr + 1 }
  have hinterval : (conn.afterSlowtmrPcb c m).pcb.pollinterval = conn.pcb.pollinterval :=
    congrArg View.pollinterval hview
  have hpolltmr : (conn.afterSlowtmrPcb c m).pcb.polltmr = conn.pcb.polltmr := congrArg View.polltmr hview
  obtain ⟨conn₁, -, h₁, heq⟩ := (h.afterSlowtmrPcb (c := c) (m := m)).slowtmrPoll_eq (c := c) (m := m)
    (by rw [hinterval, hpolltmr]; exact hdue) ((congrArg (fun v => v.cb.poll) hview).trans hpoll)
  refine ⟨conn₁, h₁, ?_⟩
  rw [h.tcpSlowtmr_eq hround, if_neg (by rw [hlimit]; decide), heq]

/-- At any other tick it is not called: the connection is removed because it has stayed too long in its
state, or it goes on. -/
theorem Alive.tcpSlowtmr_of_not_polls (h : Alive ph conn) (hpolls : polls conn (.slowtmr m) = false) :
    Tcp.tcpSlowtmr c m conn = Tcp.slowtmrRemove (conn.afterSlowtmrPcb c m) ∨
      Alive ph (Tcp.tcpSlowtmr c m conn) := by
  by_cases hround : conn.pcb.lastTimer = conn.timerCtr + 1
  · right
    rw [h.tcpSlowtmr_active]
    unfold Tcp.slowtmrActive
    dsimp only
    rw [if_pos hround]
    exact ⟨h.home, h.state, h.rxClosed, h.cb, h.refused, h.frees, h.unobtained, h.noUse, h.pcbSafe⟩
  · rw [h.tcpSlowtmr_eq hround]
    split
    · exact .inl rfl
    · next hlimit =>
        right
        obtain ⟨ooseq, -, hview⟩ := view_slowtmrPcb (c := c) (m := m) (conn.ticks + 1)
          { conn.pcb with lastTimer := conn.timerCtr + 1 }
        have hinterval : (conn.afterSlowtmrPcb c m).pcb.pollinterval = conn.pcb.pollinterval :=
          congrArg View.pollinterval hview
        have hpolltmr : (conn.afterSlowtmrPcb c m).pcb.polltmr = conn.pcb.polltmr :=
          congrArg View.polltmr hview
        refine (h.afterSlowtmrPcb (c := c) (m := m)).slowtmrPoll.1 ?_
        rw [hinterval, hpolltmr]
        by_cases hdue : conn.pcb.pollinterval ≤ conn.pcb.polltmr + 1
        · -- the interval is over, so there is no poll callback yet
          left
          have hnone : conn.pcb.cb.poll = false := by
            have hactive := h.home
            simp_all [polls]
          rw [h.cb] at hnone
          cases ph with
          | connecting => rfl
          | _ => cases hnone
        · exact .inr hdue

/-! ## Runs -/

/-- **The invariant of a watched connection.** The poll timer runs on accepted connections only, below its
interval, and it is ahead of the clock of the last data segment exactly when that segment left it running. -/
structure Counting (w : Watched) : Prop where
  inStep : w.conn.pcb.lastTimer = w.conn.timerCtr
  unpolled : w.conn.pcb.cb.poll = false → w.conn.pcb.pollinterval = 0 ∧ w.conn.pcb.polltmr = 0
  polled : w.conn.pcb.cb.poll = true → w.conn.pcb.pollinterval = 10 ∧ w.conn.pcb.polltmr.toNat < 10
  running : w.dataWhileRunning = true ↔ ∃ n, w.sinceData = some n ∧ n < w.conn.pcb.polltmr.toNat

/-- What holds of a watched connection between two events. -/
def WatchedBetween (w : Watched) : Prop :=
  Between w.conn ∧ (w.conn.home = .active → Counting w)

variable {w w' : Watched}

/-- Below the poll interval the counter does not wrap. -/
theorem toNat_succ (n : UInt8) (hn : n.toNat < 10) : (n + 1).toNat = n.toNat + 1 := by
  have hone : (1 : UInt8).toNat = 1 := rfl
  rw [UInt8.toNat_add, hone]
  exact Nat.mod_eq_of_lt (by omega)

/-- The poll comes at the tenth tick of the poll timer. -/
theorem Counting.polltmr_of_polls (h : Counting w) (hpolls : polls w.conn e = true) :
    w.conn.pcb.polltmr.toNat = 9 := by
  cases e with
  | slowtmr m =>
      simp only [polls, Bool.and_eq_true, decide_eq_true_eq] at hpolls
      obtain ⟨⟨-, hdue⟩, hpoll⟩ := hpolls
      obtain ⟨hinterval, hlt⟩ := h.polled hpoll
      rw [hinterval, UInt8.le_iff_toNat_le, toNat_succ _ hlt] at hdue
      have hten : (10 : UInt8).toNat = 10 := rfl
      omega
  | _ => cases hpolls

/-- A poll meets a busy connection exactly when a data segment has left the poll timer running. -/
theorem Counting.busy_iff (h : Counting w) (hpolls : polls w.conn e = true) :
    (clock w.sinceData e).any (· < 10) = true ↔ w.dataWhileRunning = true := by
  have hnine := h.polltmr_of_polls hpolls
  cases e with
  | slowtmr m =>
      rw [h.running, hnine]
      rcases w.sinceData with _ | n
      · simp [clock]
      · simp [clock]
        omega
  | _ => cases hpolls

/-- A step that clears the poll timer or leaves it as it is keeps the count. -/
theorem Counting.next (h : Counting w) (hinStep : conn'.pcb.lastTimer = conn'.timerCtr)
    (hpolltmr : conn'.pcb.polltmr = w.conn.pcb.polltmr ∨ conn'.pcb.polltmr = 0)
    (hinterval : conn'.pcb.cb.poll = w.conn.pcb.cb.poll ∧
        conn'.pcb.pollinterval = w.conn.pcb.pollinterval ∨
      conn'.pcb.cb.poll = true ∧ conn'.pcb.pollinterval = 10)
    (htick : clock w.sinceData e = if e.hasData then some 0 else w.sinceData) :
    Counting
      { conn := conn'
        sinceData := clock w.sinceData e
        dataWhileRunning := if conn'.pcb.polltmr = 0 then false else w.dataWhileRunning || e.hasData
        abortedBusy := b } := by
  have hzero : (0 : UInt8).toNat = 0 := rfl
  -- the counter is below the interval of ten
  have hlt : w.conn.pcb.polltmr.toNat < 10 := by
    cases hpoll : w.conn.pcb.cb.poll with
    | true => exact (h.polled hpoll).2
    | false =>
        rw [(h.unpolled hpoll).2, hzero]
        decide
  have hlt' : conn'.pcb.polltmr.toNat < 10 := by
    rcases hpolltmr with heq | heq <;> rw [heq]
    · exact hlt
    · rw [hzero]
      decide
  constructor
  · exact hinStep
  · intro hnone
    rcases hinterval with ⟨hpoll, hsame⟩ | ⟨hpoll, -⟩
    · obtain ⟨hunset, hrest⟩ := h.unpolled (hpoll.symm.trans hnone)
      refine ⟨hsame.trans hunset, ?_⟩
      rcases hpolltmr with heq | heq
      · exact heq.trans hrest
      · exact heq
    · rw [show conn'.pcb.cb.poll = false from hnone] at hpoll
      cases hpoll
  · intro hsome
    refine ⟨?_, hlt'⟩
    rcases hinterval with ⟨hpoll, hsame⟩ | ⟨-, hten⟩
    · exact hsame.trans (h.polled (hpoll.symm.trans hsome)).1
    · exact hten
  · -- the event either lets `polltmr` stand or sets it to 0, and then nothing has come while it ran
    dsimp only
    rw [htick]
    rcases hpolltmr with heq | heq
    · rw [heq]
      by_cases hstopped : w.conn.pcb.polltmr = 0
      · simp [hstopped]
      · rw [if_neg hstopped]
        have hpos : 0 < w.conn.pcb.polltmr.toNat := by
          rw [Nat.pos_iff_ne_zero, ← hzero, ne_eq, UInt8.toNat_inj]
          exact hstopped
        cases e.hasData with
        | true => simpa using hpos
        | false => simpa using h.running
    · simp [heq]

/-- A tick of a connection that goes on keeps the count. -/
theorem Counting.tick (h : Counting w) (hticked : Ticked w.conn conn') :
    Counting
      { conn := conn'
        sinceData := clock w.sinceData (.slowtmr m)
        dataWhileRunning := if conn'.pcb.polltmr = 0 then false
          else w.dataWhileRunning || (Event.slowtmr m).hasData
        abortedBusy := b } := by
  have hzero : (0 : UInt8).toNat = 0 := rfl
  have hpolltmr := hticked.polltmr
  constructor
  · exact hticked.inStep
  · intro hnone
    obtain ⟨hunset, hrest⟩ := h.unpolled (hticked.poll.symm.trans hnone)
    refine ⟨hticked.interval.trans hunset, hpolltmr.trans (if_pos ?_)⟩
    rw [hunset, UInt8.le_iff_toNat_le, hzero]
    exact Nat.zero_le _
  · intro hsome
    have hpoll := hticked.poll.symm.trans hsome
    obtain ⟨hten, hlt⟩ := h.polled hpoll
    have hnotDue := hticked.notDue hpoll
    refine ⟨hticked.interval.trans hten, ?_⟩
    rw [hpolltmr, if_neg hnotDue, toNat_succ _ hlt]
    rw [hten, UInt8.le_iff_toNat_le, toNat_succ _ hlt] at hnotDue
    exact Nat.not_le.mp hnotDue
  · dsimp only
    by_cases hdue : w.conn.pcb.pollinterval ≤ w.conn.pcb.polltmr + 1
    · rw [hpolltmr, if_pos hdue]
      simp
    · -- without a poll callback the interval is always over
      have hpoll : w.conn.pcb.cb.poll = true := by
        by_contra hnone
        rw [(h.unpolled (eq_false_of_ne_true hnone)).1, UInt8.le_iff_toNat_le, hzero] at hdue
        exact hdue (Nat.zero_le _)
      have hsucc := toNat_succ _ (h.polled hpoll).2
      have hne : ¬w.conn.pcb.polltmr + 1 = 0 := by
        rw [← UInt8.toNat_inj, hsucc, hzero]
        exact Nat.succ_ne_zero _
      rw [hpolltmr, if_neg hdue, if_neg hne, hsucc]
      simp only [clock, Event.hasData, Bool.or_false]
      rw [h.running]
      rcases w.sinceData with _ | n
      · simp
      · simp

/-- `tcp_fasttmr` keeps the poll timer. -/
theorem Alive.fasttmr_poll (h : Alive ph conn) (htimer : conn.pcb.lastTimer = conn.timerCtr) :
    (Tcp.tcpFasttmr c m conn).pcb.lastTimer = (Tcp.tcpFasttmr c m conn).timerCtr ∧
      PollFrom { conn.pcb with lastTimer := conn.timerCtr + 1 } (Tcp.tcpFasttmr c m conn).pcb := by
  have hround : ¬conn.pcb.lastTimer = conn.timerCtr + 1 := by
    rw [htimer]
    exact ne_succ conn.timerCtr
  set conn₁ : Conn := { conn with
    pcb := { conn.pcb with lastTimer := conn.timerCtr + 1 }
    timerCtr := conn.timerCtr + 1 } with hconn₁
  have hkeep : KeepsPoll conn₁ (Tcp.tcpFasttmr c m conn) := by
    rw [tcpFasttmr_eq h.home h.refused, if_neg hround]
    have hview : (Conn.output c m (conn₁.onPcb tcpAckNow)).pcb.view = conn₁.pcb.view :=
      view_tcpOutput c _ _ _ _
    split
    · exact ⟨rfl, congrArg View.lastTimer hview, .inl (congrArg View.polltmr hview),
        .inl ⟨congrArg (fun v => v.cb.poll) hview, congrArg View.pollinterval hview⟩⟩
    · exact .refl _
  exact ⟨hkeep.pcb.lastTimer.trans hkeep.timerCtr.symm, hkeep.pcb⟩

/-- What one event makes of a watched connection. -/
theorem watchStep_eq (hs : watchStep c w e = some w') : ∃ conn', step c w.conn e = some conn' ∧ w' =
    { conn := conn'
      sinceData := clock w.sinceData e
      dataWhileRunning := if conn'.pcb.polltmr = 0 then false else w.dataWhileRunning || e.hasData
      abortedBusy := w.abortedBusy || polls w.conn e && (clock w.sinceData e).any (· < 10) } := by
  obtain ⟨conn', hstep, rfl⟩ := Option.map_eq_some_iff.mp hs
  exact ⟨conn', hstep, rfl⟩

/-- Every event keeps the invariant. -/
theorem WatchedBetween.step (h : WatchedBetween w) (hs : watchStep c w e = some w') :
    WatchedBetween w' := by
  obtain ⟨conn', hstep, rfl⟩ := watchStep_eq hs
  obtain ⟨ph, hne, halive⟩ := h.1.exists_phase hstep
  have hcount := h.2 halive.home
  refine ⟨(halive.step hne hstep).between, fun hactive => ?_⟩
  have hfreed : w.conn.home ≠ .freed := by
    rw [halive.home]
    decide
  cases e with
  | segment i m =>
      rw [step_segment halive.home] at hstep
      obtain rfl := Option.some.inj hstep
      have hkeep := keepsPoll_tcpInput (c := c) (m := m) (i := i) halive.refused
      exact hcount.next (hkeep.pcb.lastTimer.trans (hcount.inStep.trans hkeep.timerCtr.symm))
        hkeep.pcb.polltmr hkeep.pcb.interval rfl
  | slowtmr m =>
      obtain rfl := Option.some.inj ((if_neg hfreed).symm.trans hstep)
      exact hcount.tick (halive.ticked hcount.inStep hactive)
  | fasttmr m =>
      obtain rfl := Option.some.inj ((if_neg hfreed).symm.trans hstep)
      obtain ⟨hinStep, hpoll⟩ := halive.fasttmr_poll (c := c) (m := m) hcount.inStep
      exact hcount.next hinStep hpoll.polltmr hpoll.interval rfl
  | abandon m =>
      obtain rfl := Option.some.inj ((if_neg hfreed).symm.trans hstep)
      have hend : (Tcp.tcpAbandon c m w.conn).home = .freed := halive.tcpAbandon.home
      have hcontra := hend.symm.trans hactive
      cases hcontra

/-- The poll timer of a connection that answers a SYN is the one that `tcp_alloc` sets up. -/
theorem keepsPoll_tcpListenInput (c : Config) (mem : Mem) (i : InSeg) (soKeepalive : Bool)
    (iss ticks : UInt32) (timerCtr : UInt8) (conn : Conn) (hpcb : conn.pcb = tcpAlloc c iss ticks timerCtr)
    (hctr : conn.timerCtr = timerCtr) :
    KeepsPoll conn (tcpListenInput c mem i soKeepalive iss ticks timerCtr) := by
  unfold tcpListenInput
  dsimp only
  generalize hsyn : ({ tcpAlloc c iss ticks timerCtr with
    state := .synRcvd
    rcv := { (tcpAlloc c iss ticks timerCtr).rcv with rcvNxt := i.seqno + 1, rcvAnnRightEdge := i.seqno + 1 }
    soKeepalive := soKeepalive
    snd := { (tcpAlloc c iss ticks timerCtr).snd with
      sndWnd := i.wnd, sndWndMax := i.wnd, ssthresh := i.wnd, sndWl1 := i.seqno - 1 }
    mss := c.tcpEffSendMss (tcpParseopt c i ((i.hdrlen - 5) * 4) 0 (tcpAlloc c iss ticks timerCtr).mss) } : Pcb)
      = pcb
  have hview := view_tcpEnqueueFlags c mem.finAlloc { syn := true, ack := true } pcb
  have hpoll : PollFrom conn.pcb pcb := by
    rw [hpcb, ← hsyn]
    exact ⟨rfl, .inl rfl, .inl ⟨rfl, rfl⟩⟩
  have hqueued := hpoll.trans (.of_view hview)
  split
  · exact KeepsPoll.trans ⟨hctr.symm, hqueued⟩ (keepsPoll_output _)
  · exact KeepsPoll.trans ⟨hctr.symm, hqueued⟩ (keepsPoll_tcpAbandon _)

/-- The watch begins with the connection. -/
theorem watchedBetween_start (c : Config) (mem : Mem) (i : InSeg) (soKeepalive : Bool) (iss ticks : UInt32)
    (timerCtr : UInt8) :
    WatchedBetween (watch (tcpListenInput c mem i soKeepalive iss ticks timerCtr)) := by
  refine ⟨between_start c mem i soKeepalive iss ticks timerCtr, fun _ => ?_⟩
  have hkeep := keepsPoll_tcpListenInput c mem i soKeepalive iss ticks timerCtr
    { pcb := tcpAlloc c iss ticks timerCtr, home := .active, inputPcb := false, activePcbsChanged := true
      ticks := ticks, timerCtr := timerCtr, app := {}, pcbUseAfterFree := false, calls := [] } rfl rfl
  have hzero : (tcpListenInput c mem i soKeepalive iss ticks timerCtr).pcb.polltmr = 0 := by
    rcases hkeep.pcb.polltmr with heq | heq
    · exact heq
    · exact heq
  constructor
  · exact hkeep.pcb.lastTimer.trans hkeep.timerCtr.symm
  · intro hnone
    rcases hkeep.pcb.interval with ⟨-, hinterval⟩ | ⟨hpoll, -⟩
    · exact ⟨hinterval, hzero⟩
    · exact absurd (hpoll.symm.trans hnone) (by decide)
  · intro hsome
    rcases hkeep.pcb.interval with ⟨hpoll, -⟩ | ⟨-, hten⟩
    · exact absurd (hpoll.symm.trans hsome) Bool.false_ne_true
    · refine ⟨hten, Nat.lt_of_le_of_lt (Nat.le_of_eq (congrArg UInt8.toNat hzero)) ?_⟩
      decide
  · constructor
    · intro hrunning
      cases hrunning
    · rintro ⟨n, hn, -⟩
      cases hn

/-- **When the poll spares a busy connection.** Along every run of a connection `app_tcp_poll` is called at no
tick with a data segment less than ten ticks before, exactly if each of its calls finds that no data segment
has arrived while the poll timer was running. -/
theorem poll_idle_iff (c : Config) (mem : Mem) (i : InSeg) (soKeepalive : Bool) (iss ticks : UInt32)
    (timerCtr : UInt8) (es : List Event) (w : Watched)
    (hrun : run (watchStep c) (watch (tcpListenInput c mem i soKeepalive iss ticks timerCtr)) es = some w) :
    w.abortedBusy = false ↔
      RunMeets (watchStep c) PolledIdle (watch (tcpListenInput c mem i soKeepalive iss ticks timerCtr)) es := by
  refine runMeets_iff (I := WatchedBetween) (P := fun w => w.abortedBusy = false) ?_ ?_
    (watchedBetween_start c mem i soKeepalive iss ticks timerCtr) rfl (runMeets_true _ es) hrun
  · intro w e w' h hspared _ hs
    refine ⟨h.step hs, ?_⟩
    obtain ⟨conn', hstep, rfl⟩ := watchStep_eq hs
    obtain ⟨ph, -, halive⟩ := h.1.exists_phase hstep
    dsimp only
    rw [hspared, Bool.false_or, Bool.and_eq_false_imp]
    refine forall_congr' fun hpolls => ?_
    rw [← Bool.not_eq_true, (h.2 halive.home).busy_iff hpolls, Bool.not_eq_true]
  · intro w e w' h hbusy _ hs
    refine ⟨h.step hs, ?_⟩
    obtain ⟨conn', -, rfl⟩ := watchStep_eq hs
    dsimp only
    rw [eq_true_of_ne_false hbusy]
    simp

/-- An empty segment fits. -/
theorem fits_nil : Chain.totLen [] + 40 < 2 ^ 16 := by decide

/-- The handshake ends, and `n` ticks go by. -/
def quietFor (n : ℕ) : List Event :=
  .segment (fromPeer 1 false [] fits_nil) {} :: List.replicate n (.slowtmr {})

/-- A data segment that acknowledges nothing new. -/
def dataComes : Event := .segment (fromPeer 1 false [[1, 2, 3]] (by decide)) {}

/-- Ten ticks with nothing in between. -/
theorem poll_idle_iff_quietFor : ∃ w, run (watchStep optDefaults)
      (watch (tcpListenInput optDefaults {} synFromPeer false 0 0 0)) (quietFor 10) = some w ∧
    (w.abortedBusy = false ↔ RunMeets (watchStep optDefaults) PolledIdle
      (watch (tcpListenInput optDefaults {} synFromPeer false 0 0 0)) (quietFor 10)) := by
  have hout : ((run (watchStep optDefaults) (watch (tcpListenInput optDefaults {} synFromPeer false 0 0 0))
      (quietFor 10)).map fun w => w.conn.home) = some .freed := by decide
  obtain ⟨w, hrun, -⟩ := Option.map_eq_some_iff.mp hout
  exact ⟨w, hrun, poll_idle_iff optDefaults {} synFromPeer false 0 0 0 (quietFor 10) w hrun⟩

/-- The poll does not always spare a busy connection: nine ticks after the handshake data arrive, and the next
tick aborts the connection. -/
theorem not_poll_idle : ¬ ∀ (c : Config) (mem : Mem) (i : InSeg) (soKeepalive : Bool)
    (iss ticks : UInt32) (timerCtr : UInt8) (es : List Event) (w : Watched),
    run (watchStep c) (watch (tcpListenInput c mem i soKeepalive iss ticks timerCtr)) es = some w →
      w.abortedBusy = false := by
  intro h
  have hout : ((run (watchStep optDefaults) (watch (tcpListenInput optDefaults {} synFromPeer false 0 0 0))
      (quietFor 9 ++ [dataComes, .slowtmr {}])).map fun w => (w.conn.home, w.abortedBusy)) =
        some (.freed, true) := by decide
  obtain ⟨w, hrun, hobs⟩ := Option.map_eq_some_iff.mp hout
  have hspared := h optDefaults {} synFromPeer false 0 0 0 _ w hrun
  rw [(Prod.mk.inj hobs).2] at hspared
  cases hspared

end BareMetal.Tcp
