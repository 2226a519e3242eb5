import BareMetal.Tcp.ListInvariant

/-! # The list that a connection is on

The functions on one connection keep its state and its list together: a block on `tcp_active_pcbs` is connected,
one on `tcp_tw_pcbs` is in TIME_WAIT, and the only other place for it is its pool (`Placed`). This is said for any state
of the connection, also for those that the application brings about with its own calls. -/

namespace BareMetal.Tcp

variable {c : Config} {m : Mem} {i : InSeg} {conn conn' : Conn} {err : Err}

/-- The connection is where its state says, and its data are not refused. -/
structure Placed (conn : Conn) : Prop where
  refused : conn.pcb.refusedData = none
  active : conn.home = .active → conn.pcb.state.Connected
  timeWait : conn.home = .timeWait → conn.pcb.state = .timeWait
  listed : conn.home ≠ .unlisted

/-- A block on `tcp_active_pcbs`. -/
theorem placed_active (hhome : conn.home = .active) (hstate : conn.pcb.state.Connected)
    (href : conn.pcb.refusedData = none) : Placed conn where
  refused := href
  active _ := hstate
  timeWait htw := absurd (hhome.symm.trans htw) (by decide)
  listed := by rw [hhome]; decide

/-- ESTABLISHED is a state of a block on `tcp_active_pcbs`. -/
theorem connected_established : TcpState.established.Connected := by decide

/-- So is CLOSE_WAIT. -/
theorem connected_closeWait : TcpState.closeWait.Connected := by decide

/-- So is FIN_WAIT_2. -/
theorem connected_finWait2 : TcpState.finWait2.Connected := by decide

/-- A block that is gone is on no list. -/
theorem placed_freed (hhome : conn.home = .freed) (href : conn.pcb.refusedData = none) : Placed conn where
  refused := href
  active hactive := absurd (hhome.symm.trans hactive) (by decide)
  timeWait htw := absurd (hhome.symm.trans htw) (by decide)
  listed := by rw [hhome]; decide

/-- Nothing that matters here was changed. -/
theorem Placed.congr (h : Placed conn) (hhome : conn'.home = conn.home) (hstate : conn'.pcb.state = conn.pcb.state)
    (href : conn'.pcb.refusedData = conn.pcb.refusedData) : Placed conn' where
  refused := href.trans h.refused
  active hactive := by
    rw [hstate]
    exact h.active (hhome ▸ hactive)
  timeWait htw := by
    rw [hstate]
    exact h.timeWait (hhome ▸ htw)
  listed := hhome ▸ h.listed

/-- The place of a block depends on its view only. -/
theorem Placed.of_view {f : Pcb → Pcb} (h : Placed conn) (hview : (f conn.pcb).view = conn.pcb.view) :
    Placed (conn.onPcb f) :=
  h.congr rfl (congrArg View.state hview) (congrArg View.refusedData hview)

/-- Sending does not move a block. -/
theorem Placed.output (h : Placed conn) : Placed (Conn.output c m conn) := h.of_view (view_tcpOutput c _ _ _ _)

/-- Looking at a block does not move it. -/
theorem Placed.deref (h : Placed conn) : Placed conn.deref := h.congr rfl rfl rfl

/-- Purging refuses nothing. -/
theorem refusedData_tcpPcbPurge {pcb : Pcb} (href : pcb.refusedData = none) :
    (tcpPcbPurge pcb).refusedData = none := by
  unfold tcpPcbPurge
  split
  · rfl
  · exact href

/-! ## Closing and aborting -/

/-- Removing refuses nothing. -/
theorem refusedData_tcpPcbRemove (href : conn.pcb.refusedData = none) :
    (tcpPcbRemove c m conn).pcb.refusedData = none := by
  have hpurge := refusedData_tcpPcbPurge href
  unfold tcpPcbRemove
  dsimp only
  split
  · have hview := view_tcpOutput c conn.ticks conn.inputPcb m.outAlloc (tcpAckNow (tcpPcbPurge conn.pcb))
    exact (congrArg View.refusedData hview).trans hpurge
  · exact hpurge

/-- The block was removed from its list and goes to the pool. -/
theorem placed_removed (href : conn.pcb.refusedData = none) : Placed (mempFree (tcpPcbRemove c m conn)) :=
  placed_freed rfl (refusedData_tcpPcbRemove href)

/-- The error callback refuses nothing. -/
theorem refusedData_tcpEventErr (cb : Callbacks) (conn : Conn) :
    (tcpEventErr cb conn).pcb.refusedData = conn.pcb.refusedData := by
  unfold tcpEventErr
  split <;> rfl

/-- An abandoned block is gone. -/
theorem placed_tcpAbandon (href : conn.pcb.refusedData = none) : Placed (tcpAbandon c m conn) := by
  unfold tcpAbandon
  split
  · exact placed_removed href
  · refine placed_freed (home_tcpEventErr _ _) ?_
    exact (refusedData_tcpEventErr _ _).trans (refusedData_tcpPcbRemove href)

/-- The block goes to the list of its new state. -/
theorem placed_toTimeWait (href : conn.pcb.refusedData = none) : Placed (toTimeWait conn) where
  refused := refusedData_tcpPcbPurge href
  active hactive := nomatch (show Home.timeWait = .active from hactive)
  timeWait _ := rfl
  listed := by
    show Home.timeWait ≠ .unlisted
    decide

/-- Behind the FIN the block is still on `tcp_active_pcbs`. -/
theorem Placed.sendFinTo {state : TcpState} (h : Placed conn) (hhome : conn.home = .active)
    (hstate : state.Connected) : Placed (sendFinTo c m state conn).2 := by
  have hview := view_tcpSendFin c m.finAlloc conn.pcb
  unfold Tcp.sendFinTo
  cases hsend : tcpSendFin c m.finAlloc conn.pcb with
  | mk sent pcb =>
      rw [hsend] at hview
      have href : pcb.refusedData = none := (congrArg View.refusedData hview).trans h.refused
      cases sent with
      | true => exact Placed.output (placed_active hhome hstate href)
      | false => exact h.congr rfl (congrArg View.state hview) (congrArg View.refusedData hview)

/-- Closing a connection on one of its two lists. -/
theorem Placed.tcpCloseShutdown (h : Placed conn) (hhome : conn.home ≠ .freed) (rst : Bool) :
    Placed (tcpCloseShutdown c m rst conn).2 := by
  have hactive : conn.pcb.state ≠ .timeWait → conn.home = .active := by
    intro hne
    cases hconn : conn.home with
    | active => rfl
    | timeWait => exact absurd (h.timeWait hconn) hne
    | unlisted => exact absurd hconn h.listed
    | freed => exact absurd hconn hhome
  unfold Tcp.tcpCloseShutdown
  dsimp only
  split
  · split
    · exact placed_toTimeWait h.refused
    · exact placed_freed rfl (refusedData_tcpPcbPurge h.refused)
  · split
    · exact placed_freed rfl h.refused
    · exact placed_removed h.refused
    · exact placed_freed rfl (refusedData_tcpPcbRemove h.refused)
    all_goals
      rename_i hstate
      try exact h.sendFinTo (hactive (by rw [hstate]; decide)) (by decide)
    exact h

/-- `tcp_close` leaves the block on the list of its state, or frees it. -/
theorem Placed.tcpClose (h : Placed conn) (hhome : conn.home ≠ .freed) : Placed (tcpClose c m conn).2 := by
  have hrx : Placed (conn.onPcb fun pcb => { pcb with flags := { pcb.flags with rxClosed := true } }) :=
    h.congr rfl rfl rfl
  unfold Tcp.tcpClose
  dsimp only
  split
  · exact hrx.tcpCloseShutdown hhome true
  · exact h.tcpCloseShutdown hhome true

/-! ## The callbacks -/

/-- Opening the window does not move a block. -/
theorem Placed.tcpRecved (h : Placed conn) (len : UInt16) : Placed (tcpRecved c m len conn) := by
  unfold Tcp.tcpRecved
  dsimp only
  generalize (if c.tcpWnd < conn.pcb.rcv.rcvWnd + len then c.tcpWnd else conn.pcb.rcv.rcvWnd + len) = wnd
  have hview := view_tcpUpdateRcvAnnWnd c { conn.pcb with rcv := { conn.pcb.rcv with rcvWnd := wnd } }
  have hplaced : Placed { conn with
      pcb := (tcpUpdateRcvAnnWnd c { conn.pcb with rcv := { conn.pcb.rcv with rcvWnd := wnd } }).2 } :=
    h.congr rfl (congrArg View.state hview) (congrArg View.refusedData hview)
  split
  · exact (hplaced.of_view (view_tcpAckNow _)).output
  · exact hplaced

/-- Opening the window does not free a block either. -/
theorem home_tcpRecved (len : UInt16) (conn : Conn) : (tcpRecved c m len conn).home = conn.home := by
  unfold tcpRecved
  dsimp only
  generalize (if c.tcpWnd < conn.pcb.rcv.rcvWnd + len then c.tcpWnd else conn.pcb.rcv.rcvWnd + len) = wnd
  split <;> rfl

/-- The receive callbacks take the data that they are given. -/
theorem Placed.recvData (h : Placed conn) (p : Chain) (fin : Bool) :
    (tcpEventRecv c m (some p) fin conn).1 = .ok ∧ Placed (tcpEventRecv c m (some p) fin conn).2 ∧
      (tcpEventRecv c m (some p) fin conn).2.home = conn.home := by
  unfold tcpEventRecv
  cases conn.pcb.cb.recv with
  | appTcpRecv =>
      simp only [appTcpRecv]
      split
      · exact ⟨rfl, h.congr rfl rfl rfl, rfl⟩
      · exact ⟨rfl, h.congr rfl rfl rfl, rfl⟩
  | tcpRecvNull =>
      have hrecved := h.tcpRecved (c := c) (m := m) (UInt16.ofNat p.totLen)
      have hhome := home_tcpRecved (c := c) (m := m) (UInt16.ofNat p.totLen) conn
      simp only [tcpRecvNull, true_and]
      generalize Tcp.tcpRecved c m (UInt16.ofNat p.totLen) conn = conn' at hrecved hhome ⊢
      exact ⟨hrecved.congr rfl rfl rfl, hhome⟩

/-- At the end of the stream they close the connection. -/
theorem Placed.recvEof (h : Placed conn) (hhome : conn.home ≠ .freed) (fin : Bool) :
    Placed (tcpEventRecv c m none fin conn).2 := by
  unfold tcpEventRecv
  cases conn.pcb.cb.recv with
  | appTcpRecv =>
      have hclosed : Placed (Tcp.tcpClose c m { conn with app := conn.app.free conn.pcb.cb.arg }).2 :=
        Placed.tcpClose (h.congr rfl rfl rfl) hhome
      exact hclosed.congr rfl rfl rfl
  | tcpRecvNull => exact (h.tcpClose hhome).congr rfl rfl rfl

/-! ## `tcp_input` -/

/-- `tcp_receive` keeps a block on `tcp_active_pcbs` connected. -/
theorem Placed.receive (h : Placed conn) (hhome : conn.home = .active) :
    Placed (Conn.receive c m i conn).conn := by
  have hspec := tcpReceive_spec c conn.ticks m.ackAlloc m.copied i conn.pcb
  refine placed_active hhome ?_ (hspec.keeps.refusedData.trans h.refused)
  rcases hspec.state with hstate | ⟨-, hstate, -⟩
  · show (tcpReceive c conn.ticks m.ackAlloc m.copied i conn.pcb).pcb.state.Connected
    rw [hstate]
    exact h.active hhome
  · show (tcpReceive c conn.ticks m.ackAlloc m.copied i conn.pcb).pcb.state.Connected
    rw [hstate]
    decide

/-- What `tcp_process` leaves is placed, and was not freed. -/
def Processed.Placed (r : Processed) : Prop := Tcp.Placed r.conn ∧ r.conn.home ≠ .freed

/-- A connection request that is answered is connected. -/
theorem placed_processSynSent (h : Placed conn) (hhome : conn.home = .active) :
    (processSynSent c i conn).Placed := by
  have hstay : conn.home ≠ .freed := by rw [hhome]; decide
  unfold processSynSent
  split
  · exact ⟨h, hstay⟩
  · split
    · exact ⟨placed_active hhome connected_established h.refused, hstay⟩
    · exact ⟨h, hstay⟩

/-- The end of the handshake connects the block, or aborts it. -/
theorem placed_processSynRcvd (h : Placed conn) (hhome : conn.home = .active) :
    (processSynRcvd c m i conn).Placed := by
  have hstay : conn.home ≠ .freed := by rw [hhome]; decide
  unfold processSynRcvd
  split
  · split
    · -- the connection is accepted
      have haccepted : Placed (appTcpAccept m .ok (conn.onPcb fun pcb => { pcb with state := .established })).2 :=
        placed_active hhome connected_established h.refused
      have hhome' : (appTcpAccept m .ok (conn.onPcb fun pcb => { pcb with state := .established })).2.home =
        .active := hhome
      have hstay' : (appTcpAccept m .ok (conn.onPcb fun pcb => { pcb with state := .established })).2.home ≠
        .freed := hstay
      have herr : (appTcpAccept m .ok (conn.onPcb fun pcb => { pcb with state := .established })).1 = .ok := rfl
      generalize appTcpAccept m .ok (conn.onPcb fun pcb => { pcb with state := .established }) = accepted
        at haccepted hhome' hstay' herr
      dsimp only
      rw [herr, if_neg (by decide)]
      have hreceive := haccepted.deref.receive (c := c) (m := m) (i := i) hhome'
      split
      · exact ⟨placed_active hhome' connected_closeWait hreceive.refused, hstay'⟩
      · exact ⟨hreceive.congr rfl rfl rfl, hstay'⟩
    · exact ⟨h, hstay⟩
  · split
    · exact ⟨h.of_view (view_tcpRexmit _), hstay⟩
    · exact ⟨h, hstay⟩

/-- A FIN moves the block on through the states of a close. -/
theorem placed_processSynchronized (h : Placed conn) (hhome : conn.home = .active) :
    (processSynchronized c m i conn).Placed := by
  have hstay : conn.home ≠ .freed := by rw [hhome]; decide
  have hreceive := h.receive (c := c) (m := m) (i := i) hhome
  have hack : ∀ state : TcpState, state.Connected →
      Placed (ackFinTo state (Conn.receive c m i conn).conn) := fun state hstate =>
    placed_active hhome hstate hreceive.refused
  have htw : ∀ f : Pcb → Pcb, (f (Conn.receive c m i conn).conn.pcb).refusedData = none →
      Placed (toTimeWait ((Conn.receive c m i conn).conn.onPcb f)) := fun f hf => placed_toTimeWait hf
  have hnot : ∀ f : Pcb → Pcb, (toTimeWait ((Conn.receive c m i conn).conn.onPcb f)).home ≠ .freed := by
    intro f
    show Home.timeWait ≠ .freed
    decide
  unfold processSynchronized
  dsimp only
  split
  · split
    · exact ⟨hack _ (by decide), hstay⟩
    · exact ⟨hreceive, hstay⟩
  · split
    · exact ⟨hack _ (by decide), hstay⟩
    · exact ⟨hreceive, hstay⟩
  · split
    · split
      · exact ⟨htw _ hreceive.refused, hnot _⟩
      · exact ⟨hack _ (by decide), hstay⟩
    · split
      · exact ⟨placed_active hhome connected_finWait2 hreceive.refused, hstay⟩
      · exact ⟨hreceive, hstay⟩
  · split
    · exact ⟨htw _ hreceive.refused, hnot _⟩
    · exact ⟨hreceive, hstay⟩
  · split
    · exact ⟨htw id hreceive.refused, hnot id⟩
    · exact ⟨hreceive, hstay⟩
  · exact ⟨hreceive, hstay⟩
  · exact ⟨h, hstay⟩

/-- **`tcp_process`** leaves the block on the list of its state. -/
theorem placed_tcpProcess (h : Placed conn) (hhome : conn.home = .active) : (tcpProcess c m i conn).Placed := by
  have hstay : conn.home ≠ .freed := by rw [hhome]; decide
  have hcommon : Placed (processCommon c i conn) := h.congr rfl rfl rfl
  unfold tcpProcess
  split
  · split
    · exact ⟨h.congr rfl rfl rfl, hstay⟩
    · exact ⟨h, hstay⟩
  · split
    · exact ⟨h.of_view (view_tcpAckNow _), hstay⟩
    · dsimp only
      split
      · exact placed_processSynSent hcommon hhome
      · exact placed_processSynRcvd hcommon hhome
      · exact placed_processSynchronized hcommon hhome

/-- Data were accepted, so the FIN behind them is not put off. -/
theorem Placed.deliverFin (h : Placed conn) (hhome : conn.home ≠ .freed) (gotFin : Bool) :
    Placed (deliverFin c m gotFin conn) := by
  have hfinish : ∀ conn : Conn, Placed conn → Placed (Conn.output c m { conn.deref with inputPcb := false }) :=
    fun conn h => Placed.output (h.congr rfl rfl rfl)
  unfold Tcp.deliverFin
  dsimp only
  split
  · split
    · rename_i hsome
      exact absurd (h.refused.symm.trans hsome) (by simp)
    · have hwnd : Placed (conn.deref.onPcb fun pcb => { pcb with rcv := { pcb.rcv with rcvWnd := pcb.rcv.rcvWnd + 1 } }) :=
        h.congr rfl rfl rfl
      have hclosed : Placed (tcpEventClosed c m conn.deref).2 := by
        unfold tcpEventClosed
        dsimp only
        split
        · exact hwnd.recvEof hhome false
        · exact h.deref.recvEof hhome false
      split
      · exact hclosed
      · exact hfinish _ hclosed
  · exact hfinish _ h

/-- The callbacks of the application leave the block on the list of its state. -/
theorem Placed.deliver (h : Placed conn) (hhome : conn.home ≠ .freed) (gotFin : Bool) (recvData : Option Chain) :
    Placed (deliver c m gotFin recvData conn) := by
  unfold Tcp.deliver
  cases recvData with
  | none => exact h.deliverFin hhome gotFin
  | some p =>
      dsimp only
      split
      · exact placed_tcpAbandon h.refused
      · obtain ⟨herr, hplaced, hhome'⟩ := h.recvData (c := c) (m := m) p gotFin
        rw [herr, if_neg (by decide), if_pos rfl]
        exact hplaced.deliverFin (hhome' ▸ hhome) gotFin

/-- **`tcp_input` behind `tcp_process`** leaves the block on the list of its state. -/
theorem Processed.Placed.afterProcess {r : Processed} (h : r.Placed) : Tcp.Placed (afterProcess c m r) := by
  unfold Tcp.afterProcess
  split
  · exact h.1
  · split
    · exact placed_removed ((refusedData_tcpEventErr _ _).trans h.1.refused)
    · split
      · refine placed_removed ?_
        split
        · exact h.1.refused
        · exact (refusedData_tcpEventErr _ _).trans h.1.refused
      · exact h.1.deliver h.2 r.gotFin r.recvData

/-- A segment leaves the connection where its state says. -/
theorem Placed.tcpInput (h : Placed conn) (hhome : conn.home = .active) : Placed (tcpInput c m i conn) := by
  unfold Tcp.tcpInput
  rw [h.refused]
  have hinput : Placed { conn with inputPcb := true } := h.congr rfl rfl rfl
  have hprocess := placed_tcpProcess (c := c) (m := m) (i := i) hinput hhome
  exact hprocess.afterProcess.congr rfl rfl rfl

/-- The state and the list of a block in TIME_WAIT stay. -/
theorem Placed.tcpTimewaitInput (h : Placed conn) :
    Placed (tcpTimewaitInput c m i conn) ∧ (tcpTimewaitInput c m i conn).home = conn.home := by
  unfold Tcp.tcpTimewaitInput
  split
  · exact ⟨h, rfl⟩
  · split
    · exact ⟨h, rfl⟩
    · dsimp only
      generalize hconn : (if i.flags.syn = false ∧ i.flags.fin = true then
        conn.onPcb fun pcb => { pcb with tmr := conn.ticks } else conn) = conn₁
      have hplaced : Placed conn₁ ∧ conn₁.home = conn.home := by
        rw [← hconn]
        split
        · exact ⟨h.congr rfl rfl rfl, rfl⟩
        · exact ⟨h, rfl⟩
      split
      · exact ⟨(hplaced.1.of_view (view_tcpAckNow _)).output, hplaced.2⟩
      · exact hplaced

end BareMetal.Tcp
