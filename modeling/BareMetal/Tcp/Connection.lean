import BareMetal.Tcp.Receive

/-! # One connection of the application

A control block, where it is (`Home`), and the application behind it: `app_tcp.c`, `tcp_input` and
`tcp_process` of `tcp_in.c`, closing, aborting and the timers of `tcp.c`. Two things are watched that C
does not show. Every function that goes on with a control block behind a callback goes through `deref`,
which notices a block that was returned to its pool; and every callback that uses the receive buffer goes
through `App.use`, which notices a buffer that was freed. -/

namespace BareMetal.Tcp

/-- The results of callbacks. -/
inductive Err
  | ok
  | mem
  | abrt
  deriving DecidableEq, Repr

/-- The list that a control block is on. -/
inductive Home
  | unlisted
  | active
  | timeWait
  /-- Returned to `MEMP_TCP_PCB`. -/
  | freed
  deriving DecidableEq, Repr

/-- `MAX_STRING`. -/
def maxString : ℕ := 256

/-- The application's side of a connection: its `struct rcev_buf`. -/
structure App where
  /-- `mem_calloc` returned a block. -/
  obtained : Bool := false
  /-- How often the block was passed to `mem_free`. -/
  frees : ℕ := 0
  /-- The block was read or written after it was freed. -/
  useAfterFree : Bool := false
  /-- `bytes[0 .. length)`. -/
  bytes : List UInt8 := []
  deriving DecidableEq, Repr

/-- A call of a receive callback, and the window that it leaves. -/
structure Call where
  /-- Data were passed, not the end of the stream. -/
  data : Bool
  /-- A FIN came with the data and is still to be processed. -/
  finPending : Bool
  rcvWnd : UInt16
  deriving DecidableEq, Repr

/-- A connection. -/
structure Conn where
  pcb : Pcb
  home : Home
  /-- `tcp_input_pcb` is this block. -/
  inputPcb : Bool
  /-- `tcp_active_pcbs_changed`. -/
  activePcbsChanged : Bool
  /-- `tcp_ticks`. -/
  ticks : UInt32
  /-- `tcp_timer_ctr`. -/
  timerCtr : UInt8
  app : App
  /-- The block was used after it was returned to its pool. -/
  pcbUseAfterFree : Bool
  /-- The calls of the receive callback so far, the last one first. -/
  calls : List Call
  deriving DecidableEq, Repr

/-- The outcomes of the allocations of one step. -/
structure Mem where
  /-- `pbuf_alloc` in `tcp_send_empty_ack`, called by `tcp_receive`. -/
  ackAlloc : Bool := true
  /-- `tcp_seg_copy`. -/
  copied : Bool := true
  /-- The allocations of `tcp_send_fin`. -/
  finAlloc : Bool := true
  /-- `pbuf_alloc` in other segments without data. -/
  outAlloc : Bool := true
  /-- `mem_calloc` in `app_tcp_accept`. -/
  calloc : Bool := true
  deriving DecidableEq, Repr

variable (c : Config) (mem : Mem)

/-- The control block is used. -/
def Conn.deref (conn : Conn) : Conn :=
  { conn with pcbUseAfterFree := conn.pcbUseAfterFree || conn.home == .freed }

/-- Change the control block. -/
def Conn.onPcb (f : Pcb → Pcb) (conn : Conn) : Conn := { conn with pcb := f conn.pcb }

/-- `tcp_output(pcb)`. -/
def Conn.output (conn : Conn) : Conn :=
  conn.onPcb (tcpOutput c conn.ticks conn.inputPcb mem.outAlloc)

/-- `memp_free(MEMP_TCP_PCB, pcb)`. -/
def mempFree (conn : Conn) : Conn := { conn with home := .freed }

/-! ## Closing and aborting -/

/-- `tcp_pcb_remove`. -/
def tcpPcbRemove (conn : Conn) : Conn :=
  let conn := { conn with home := .unlisted }.onPcb tcpPcbPurge
  let conn :=
    if conn.pcb.state ≠ .timeWait ∧ conn.pcb.state ≠ .listen ∧ conn.pcb.flags.ackDelay then
      Conn.output c mem (conn.onPcb tcpAckNow)
    else conn
  conn.onPcb fun pcb => { pcb with state := .closed }

/-- `TCP_PCB_REMOVE_ACTIVE`. -/
def tcpPcbRemoveActive (conn : Conn) : Conn :=
  { tcpPcbRemove c mem conn with activePcbsChanged := true }

/-- Purge the block and move it from `tcp_active_pcbs` to `tcp_tw_pcbs`. -/
def toTimeWait (conn : Conn) : Conn :=
  { conn.onPcb fun pcb => { tcpPcbPurge pcb with state := .timeWait } with
    home := .timeWait
    activePcbsChanged := true }

/-- Send a FIN, and go to `state` when it was queued. -/
def sendFinTo (state : TcpState) (conn : Conn) : Err × Conn :=
  let (sent, pcb) := tcpSendFin c mem.finAlloc conn.pcb
  if sent then (.ok, Conn.output c mem { conn with pcb := { pcb with state := state } })
  else (.mem, { conn with pcb := pcb })

/-- `tcp_close_shutdown(pcb, rst_on_unacked_data)`. -/
def tcpCloseShutdown (rstOnUnackedData : Bool) (conn : Conn) : Err × Conn :=
  let pcb := conn.pcb
  if rstOnUnackedData = true ∧ (pcb.state = .established ∨ pcb.state = .closeWait) ∧
      (pcb.refusedData ≠ none ∨ pcb.rcv.rcvWnd ≠ c.tcpWnd) then
    -- not all data were received by the application: a RST is sent
    if pcb.state = .established then (.ok, toTimeWait conn)
    else
      (.ok, mempFree { conn.onPcb tcpPcbPurge with home := .unlisted, activePcbsChanged := true })
  else
    match pcb.state with
    | .closed => (.ok, mempFree conn)
    | .listen => (.ok, mempFree (tcpPcbRemove c mem conn))
    | .synSent => (.ok, mempFree (tcpPcbRemoveActive c mem conn))
    | .synRcvd => sendFinTo c mem .finWait1 conn
    | .established => sendFinTo c mem .finWait1 conn
    | .closeWait => sendFinTo c mem .lastAck conn
    | _ => (.ok, conn)

/-- `tcp_close`. -/
def tcpClose (conn : Conn) : Err × Conn :=
  let conn := if conn.pcb.state ≠ .listen then
      conn.onPcb fun pcb => { pcb with flags := { pcb.flags with rxClosed := true } }
    else conn
  tcpCloseShutdown c mem true conn

/-- `mem_free(buffer)`. -/
def App.free (app : App) (buffer : Bool) : App :=
  if buffer then { app with frees := app.frees + 1 } else app

/-- `app_tcp_conn_err(arg, err)`. -/
def appTcpConnErr (arg : Bool) (conn : Conn) : Conn := { conn with app := conn.app.free arg }

/-- `TCP_EVENT_ERR(errf, arg, err)`. -/
def tcpEventErr (cb : Callbacks) (conn : Conn) : Conn :=
  if cb.errf then appTcpConnErr cb.arg conn else conn

/-- `tcp_abandon`. -/
def tcpAbandon (conn : Conn) : Conn :=
  if conn.pcb.state = .timeWait then mempFree (tcpPcbRemove c mem conn)
  else
    let cb := conn.pcb.cb
    tcpEventErr cb (mempFree (tcpPcbRemoveActive c mem conn))

/-- `tcp_abort`. -/
def tcpAbort (conn : Conn) : Conn := tcpAbandon c mem conn

/-- `tcp_recved(pcb, len)`. -/
def tcpRecved (len : UInt16) (conn : Conn) : Conn :=
  let wnd := conn.pcb.rcv.rcvWnd + len
  let wnd := if c.tcpWnd < wnd then c.tcpWnd else wnd
  let (inflation, pcb) :=
    tcpUpdateRcvAnnWnd c { conn.pcb with rcv := { conn.pcb.rcv with rcvWnd := wnd } }
  let conn := { conn with pcb := pcb }
  if (c.tcpWndUpdateThreshold : Int) ≤ inflation.toInt32.toInt then Conn.output c mem (conn.onPcb tcpAckNow)
  else conn

/-! ## The application -/

/-- The block is read or written. -/
def App.use (app : App) : App :=
  { app with useAfterFree := app.useAfterFree || 0 < app.frees }

/-- The loop over the bytes of a chain in `app_tcp_recv`. -/
def App.store (app : App) (p : Chain) : App :=
  p.flatten.foldl (fun app b =>
    if app.bytes.length < maxString then { app.use with bytes := app.bytes ++ [b] } else app.use) app

/-- `app_tcp_recv(arg, pcb, p, err)`; `p` is freed in every case. -/
def appTcpRecv (p : Option Chain) (err : Err) (conn : Conn) : Err × Conn :=
  match p with
  | some p =>
      if conn.pcb.cb.arg = false then (err, conn)
      else (.ok, { conn with app := conn.app.store p })
  | none =>
      if err = .ok then
        (.ok, (tcpClose c mem { conn with app := conn.app.free conn.pcb.cb.arg }).2)
      else (.ok, conn)

/-- `tcp_recv_null(NULL, pcb, p, err)`. -/
def tcpRecvNull (p : Option Chain) (err : Err) (conn : Conn) : Err × Conn :=
  match p with
  | some p => (.ok, tcpRecved c mem (UInt16.ofNat p.totLen) conn)
  | none => if err = .ok then tcpClose c mem conn else (.ok, conn)

/-- `TCP_EVENT_RECV(pcb, p, ERR_OK, err)` and, without data, `TCP_EVENT_CLOSED(pcb, err)`. -/
def tcpEventRecv (p : Option Chain) (finPending : Bool) (conn : Conn) : Err × Conn :=
  let (err, conn) := match conn.pcb.cb.recv with
    | .appTcpRecv => appTcpRecv c mem p .ok conn
    | .tcpRecvNull => tcpRecvNull c mem p .ok conn
  (err, { conn with calls := ⟨p.isSome, finPending, conn.pcb.rcv.rcvWnd⟩ :: conn.calls })

/-- `app_tcp_poll`. -/
def appTcpPoll (conn : Conn) : Err × Conn := (.ok, tcpAbort c mem conn)

/-- `TCP_EVENT_POLL`. -/
def tcpEventPoll (conn : Conn) : Err × Conn :=
  if conn.pcb.cb.poll then appTcpPoll c mem conn else (.ok, conn)

/-- `app_tcp_accept(arg, pcb, err)`. -/
def appTcpAccept (err : Err) (conn : Conn) : Err × Conn :=
  (err, { conn.onPcb fun pcb =>
      { pcb with
        cb := { recv := .appTcpRecv, errf := true, poll := true, arg := mem.calloc }
        pollinterval := 10 } with
    app := { obtained := mem.calloc } })

/-! ## The state machine -/

/-- `tcp_parseopt`: the MSS option. -/
def tcpParseopt (i : InSeg) : ℕ → ℕ → UInt16 → UInt16
  | 0, _, mss => mss
  | fuel + 1, k, mss =>
      let opt := fun j => i.opts.getD j 0
      if (i.hdrlen - 5) * 4 ≤ k then mss
      else if opt k = 0 then mss
      else if opt k = 1 then tcpParseopt i fuel (k + 1) mss
      else if opt k = 2 then
        if opt (k + 1) ≠ 4 ∨ (i.hdrlen - 5) * 4 < k + 4 then mss
        else
          let m := UInt16.ofNat ((opt (k + 2)).toNat * 256 + (opt (k + 3)).toNat)
          tcpParseopt i fuel (k + 4) (if c.tcpMss < m ∨ m = 0 then c.tcpMss else m)
      else if opt (k + 1) = 0 then mss
      else tcpParseopt i fuel (k + (opt (k + 1)).toNat) mss

/-- What `tcp_process` leaves: the connection, its result, `recv_flags` and `recv_data`. -/
structure Processed where
  conn : Conn
  err : Err := .ok
  reset : Bool := false
  closed : Bool := false
  gotFin : Bool := false
  recvData : Option Chain := none

/-- `tcp_receive(pcb)`. -/
def Conn.receive (i : InSeg) (conn : Conn) : Processed :=
  let r := tcpReceive c conn.ticks mem.ackAlloc mem.copied i conn.pcb
  { conn := { conn with pcb := r.pcb }, gotFin := r.gotFin, recvData := r.recvData }

/-- Acknowledge a FIN and go to `state`. -/
def ackFinTo (state : TcpState) (conn : Conn) : Conn :=
  conn.onPcb fun pcb => { tcpAckNow pcb with state := state }

/-- `TCP_ACK` is set and acknowledges everything that was sent. -/
def acksAll (i : InSeg) (pcb : Pcb) : Bool := i.flags.ack && i.ackno == pcb.snd.sndNxt

/-- The case `SYN_SENT` of `tcp_process`. -/
def processSynSent (i : InSeg) (conn : Conn) : Processed :=
  match conn.pcb.snd.unacked with
  | [] => { conn := conn }
  | rseg :: unacked =>
      if i.flags.ack = true ∧ i.flags.syn = true ∧ i.ackno = rseg.seqno + 1 then
        let pcb := conn.pcb
        let mss := c.tcpEffSendMss pcb.mss
        { conn := conn.onPcb fun pcb => tcpAckNow
            { pcb with
              state := .established
              mss := mss
              rcv := { pcb.rcv with rcvNxt := i.seqno + 1, rcvAnnRightEdge := i.seqno + 1 }
              snd :=
              { pcb.snd with
                sndBuf := pcb.snd.sndBuf + 1
                lastack := i.ackno
                sndWnd := i.wnd
                sndWndMax := i.wnd
                sndWl1 := i.seqno - 1
                ssthresh := mss * 10
                cwnd := if pcb.snd.cwnd = 1 then mss * 2 else mss
                sndQueuelen := pcb.snd.sndQueuelen - 1
                unacked := unacked
                rtime := if unacked.isEmpty then -1 else 0
                nrtx := if unacked.isEmpty then pcb.snd.nrtx else 0 } } }
      else { conn := conn }

/-- The case `SYN_RCVD` of `tcp_process`. -/
def processSynRcvd (i : InSeg) (conn : Conn) : Processed :=
  if i.flags.ack then
    if seqBetween i.ackno (conn.pcb.snd.lastack + 1) conn.pcb.snd.sndNxt then
      let (err, conn) := appTcpAccept mem .ok (conn.onPcb fun pcb => { pcb with state := .established })
      if err ≠ .ok then
        -- the accept function failed: the connection is aborted, unless it is already
        { conn := if err ≠ .abrt then tcpAbort c mem conn else conn, err := .abrt }
      else
        let oldCwnd := conn.pcb.snd.cwnd
        let r := Conn.receive c mem i conn.deref
        let conn := r.conn.onPcb fun pcb =>
          { pcb with snd :=
            { pcb.snd with
              acked := if pcb.snd.acked ≠ 0 then pcb.snd.acked - 1 else pcb.snd.acked
              cwnd := if oldCwnd = 1 then pcb.mss * 2 else pcb.mss } }
        { r with conn := if r.gotFin then ackFinTo .closeWait conn else conn }
    else { conn := conn }
  else if i.flags.syn = true ∧ i.seqno = conn.pcb.rcv.rcvNxt - 1 then { conn := conn.onPcb tcpRexmit }
  else { conn := conn }

/-- The cases behind the handshake of `tcp_process`: `tcp_receive`, and then what the state asks for. -/
def processSynchronized (i : InSeg) (conn : Conn) : Processed :=
  let r := Conn.receive c mem i conn
  match conn.pcb.state with
  | .established | .closeWait =>
      -- passive close
      { r with conn := if r.gotFin then ackFinTo .closeWait r.conn else r.conn }
  | .finWait1 =>
      if r.gotFin then
        if acksAll i r.conn.pcb then { r with conn := toTimeWait (r.conn.onPcb tcpAckNow) }
        else { r with conn := ackFinTo .closing r.conn }
      else if acksAll i r.conn.pcb then
        { r with conn := r.conn.onPcb fun pcb => { pcb with state := .finWait2 } }
      else r
  | .finWait2 =>
      if r.gotFin then { r with conn := toTimeWait (r.conn.onPcb tcpAckNow) } else r
  | .closing => if acksAll i r.conn.pcb then { r with conn := toTimeWait r.conn } else r
  | .lastAck => { r with closed := acksAll i r.conn.pcb }
  | _ => { conn := conn }

/-- A RST is acceptable. -/
def rstAcceptable (i : InSeg) (pcb : Pcb) : Bool :=
  if pcb.state = .synSent then i.ackno == pcb.snd.sndNxt
  else seqBetween i.seqno pcb.rcv.rcvNxt (pcb.rcv.rcvNxt + u32 pcb.rcv.rcvWnd)

/-- What `tcp_process` does to a block before it looks at the state. -/
def processCommon (i : InSeg) (conn : Conn) : Conn :=
  conn.onPcb fun pcb =>
    { pcb with
      tmr := if pcb.flags.rxClosed then pcb.tmr else conn.ticks
      keepCntSent := 0
      mss := tcpParseopt c i ((i.hdrlen - 5) * 4) 0 pcb.mss }

/-- `tcp_process`. -/
def tcpProcess (i : InSeg) (conn : Conn) : Processed :=
  if i.flags.rst then
    if rstAcceptable i conn.pcb then
      { conn := conn.onPcb fun pcb => { pcb with flags := { pcb.flags with ackDelay := false } }
        reset := true }
    else { conn := conn }
  else if i.flags.syn = true ∧ conn.pcb.state ≠ .synSent ∧ conn.pcb.state ≠ .synRcvd then
    { conn := conn.onPcb tcpAckNow }
  else
    let conn := processCommon c i conn
    match conn.pcb.state with
    | .synSent => processSynSent c i conn
    | .synRcvd => processSynRcvd c mem i conn
    | _ => processSynchronized c mem i conn

end BareMetal.Tcp
