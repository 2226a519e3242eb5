import BareMetal.Tcp.Connection
import BareMetal.Lib.Run

/-! # The events of a connection

`tcp_input` for a segment of the connection, one round of the timers, and `tcp_abandon` from outside, as the
steps of a machine that starts when `tcp_listen_input` answers a SYN. -/

namespace BareMetal.Tcp

variable (c : Config) (mem : Mem)

/-! ## `tcp_input` -/

/-- `TCP_EVENT_CLOSED`, with the window corrected for the FIN. -/
def tcpEventClosed (conn : Conn) : Err × Conn :=
  let conn := if conn.pcb.rcv.rcvWnd ≠ c.tcpWnd then
      conn.onPcb fun pcb => { pcb with rcv := { pcb.rcv with rcvWnd := pcb.rcv.rcvWnd + 1 } }
    else conn
  tcpEventRecv c mem none false conn

/-- `tcp_process_refused_data`; the data were refused with `fin` before. -/
def tcpProcessRefusedData (refused : Chain) (fin : Bool) (conn : Conn) : Err × Conn :=
  let conn := conn.onPcb fun pcb => { pcb with refusedData := none }
  let (err, conn) := tcpEventRecv c mem (some refused) fin conn
  if err = .ok then
    if fin then
      let (err, conn) := tcpEventClosed c mem conn.deref
      (if err = .abrt then .abrt else .ok, conn)
    else (.ok, conn)
  else if err = .abrt then (.abrt, conn)
  else (.ok, conn.deref.onPcb fun pcb => { pcb with refusedData := some (refused, fin) })

/-- The FIN behind the data: put off while the data are refused, else delivered. The end of `tcp_input`
goes on with the block unless the callback says that it was aborted. -/
def deliverFin (gotFin : Bool) (conn : Conn) : Conn :=
  let finish := fun conn : Conn => Conn.output c mem { conn.deref with inputPcb := false }
  if gotFin then
    let conn := conn.deref
    match conn.pcb.refusedData with
    | some (p, _) => finish (conn.onPcb fun pcb => { pcb with refusedData := some (p, true) })
    | none =>
        let (err, conn) := tcpEventClosed c mem conn
        if err = .abrt then conn else finish conn
  else finish conn

/-- What `tcp_input` does with the data and the FIN that `tcp_process` left. -/
def deliver (gotFin : Bool) (recvData : Option Chain) (conn : Conn) : Conn :=
  match recvData with
  | none => deliverFin c mem gotFin conn
  | some p =>
      if conn.pcb.flags.rxClosed then
        -- data on a connection that was closed: it is aborted
        tcpAbort c mem conn
      else
        let (err, conn) := tcpEventRecv c mem (some p) gotFin conn
        if err = .abrt then conn
        else if err = .ok then deliverFin c mem gotFin conn
        else deliverFin c mem gotFin (conn.deref.onPcb fun pcb => { pcb with refusedData := some (p, false) })

/-- `tcp_input` behind `tcp_process`. -/
def afterProcess (r : Processed) : Conn :=
  if r.err = .abrt then r.conn
  else if r.reset then
    mempFree (tcpPcbRemove c mem (tcpEventErr r.conn.pcb.cb r.conn))
  else if r.closed then
    let conn := if r.conn.pcb.flags.rxClosed then r.conn else tcpEventErr r.conn.pcb.cb r.conn
    mempFree (tcpPcbRemove c mem conn)
  else deliver c mem r.gotFin r.recvData r.conn

/-- `tcp_input` for a segment of the connection. -/
def tcpInput (i : InSeg) (conn : Conn) : Conn :=
  let process := fun conn : Conn =>
    { afterProcess c mem (tcpProcess c mem i { conn with inputPcb := true }) with inputPcb := false }
  match conn.pcb.refusedData with
  | none => process conn
  | some (refused, fin) =>
      let (err, conn) := tcpProcessRefusedData c mem refused fin conn
      if err = .abrt then conn
      else
        let conn := conn.deref
        if conn.pcb.refusedData ≠ none ∧ 0 < i.tcplen then conn else process conn

/-- `tcp_timewait_input`. -/
def tcpTimewaitInput (i : InSeg) (conn : Conn) : Conn :=
  if i.flags.rst then conn
  else if i.flags.syn = true ∧
      seqBetween i.seqno conn.pcb.rcv.rcvNxt (conn.pcb.rcv.rcvNxt + u32 conn.pcb.rcv.rcvWnd) = true then conn
  else
    let conn := if i.flags.syn = false ∧ i.flags.fin = true then
        conn.onPcb fun pcb => { pcb with tmr := conn.ticks }
      else conn
    if 0 < i.tcplen then Conn.output c mem (conn.onPcb tcpAckNow) else conn

/-! ## The timers -/

/-- `TCP_MAXRTX`. -/
def tcpMaxrtx : UInt8 := 12

/-- `TCP_SYNMAXRTX`. -/
def tcpSynmaxrtx : UInt8 := 6

/-- `tcp_backoff`; an index past the end reads as the last entry. -/
def tcpBackoff (n : ℕ) : Int16 := [1, 2, 3, 4, 5, 6].getD n 7

/-- `tcp_persist_backoff`. -/
def tcpPersistBackoff (n : ℕ) : UInt8 := [3, 6, 12, 24, 48, 96].getD n 120

/-- The retransmission limit is reached. -/
def rexmitLimit (pcb : Pcb) : Bool :=
  (pcb.state == .synSent && pcb.snd.nrtx == tcpSynmaxrtx) || pcb.snd.nrtx == tcpMaxrtx

/-- The persist timer of `tcp_slowtmr`. -/
def slowtmrPersist (pcb : Pcb) : Pcb :=
  let pcb := { pcb with persistCnt := pcb.persistCnt + 1 }
  if tcpPersistBackoff (pcb.persistBackoff.toNat - 1) ≤ pcb.persistCnt then
    tcpZeroWindowProbe mem.outAlloc
      { pcb with
        persistCnt := 0
        persistBackoff := if pcb.persistBackoff < 7 then pcb.persistBackoff + 1 else pcb.persistBackoff }
  else pcb

/-- The retransmission timer of `tcp_slowtmr`. -/
def slowtmrRexmit (ticks : UInt32) (pcb : Pcb) : Pcb :=
  let rtime := if 0 ≤ pcb.snd.rtime then pcb.snd.rtime + 1 else pcb.snd.rtime
  let pcb := { pcb with snd := { pcb.snd with rtime := rtime } }
  if pcb.snd.unacked ≠ [] ∧ pcb.snd.rto ≤ rtime then
    let half := min pcb.snd.cwnd pcb.snd.sndWnd / 2
    tcpRexmitRto c ticks mem.outAlloc { pcb with snd :=
      { pcb.snd with
        rto := if pcb.state ≠ .synSent then
            ((pcb.snd.sa >>> 3) + pcb.snd.sv) <<< tcpBackoff pcb.snd.nrtx.toNat else pcb.snd.rto
        rtime := 0
        ssthresh := if half.toNat < 2 * pcb.mss.toNat then 2 * pcb.mss else half
        cwnd := pcb.mss } }
  else pcb

/-- The timers that send: persist or retransmission. -/
def slowtmrSend (ticks : UInt32) (pcb : Pcb) : Pcb :=
  if rexmitLimit pcb then pcb
  else if 0 < pcb.persistBackoff then slowtmrPersist mem pcb
  else slowtmrRexmit c mem ticks pcb

/-- `TCP_KEEPINTVL_DEFAULT`, in ms. -/
def tcpKeepIntvl : UInt32 := 75000

/-- The keepalive timer applies. -/
def keepaliveOn (pcb : Pcb) : Bool :=
  pcb.soKeepalive && (pcb.state == .established || pcb.state == .closeWait)

/-- The other end did not answer the keepalive probes. -/
def keepaliveExpired (ticks : UInt32) (pcb : Pcb) : Bool :=
  keepaliveOn pcb && (pcb.keepIdle + 9 * tcpKeepIntvl) / 500 < ticks - pcb.tmr

/-- Send a keepalive probe when it is time. -/
def slowtmrKeepalive (ticks : UInt32) (pcb : Pcb) : Pcb :=
  if keepaliveOn pcb = true ∧ keepaliveExpired ticks pcb = false ∧
      (pcb.keepIdle + pcb.keepCntSent.toUInt32 * tcpKeepIntvl) / 500 < ticks - pcb.tmr then
    let pcb := tcpKeepalive mem.outAlloc pcb
    { pcb with keepCntSent := pcb.keepCntSent + 1 }
  else pcb

/-- Drop the data out of sequence of a connection that was inactive for too long. -/
def slowtmrOoseq (ticks : UInt32) (pcb : Pcb) : Pcb :=
  if pcb.ooseq ≠ [] ∧ pcb.snd.rto.toInt32.toUInt32 * 6 ≤ ticks - pcb.tmr then { pcb with ooseq := [] } else pcb

/-- The block has stayed too long in its state. -/
def stateExpired (ticks : UInt32) (pcb : Pcb) : Bool :=
  match pcb.state with
  | .finWait2 => pcb.flags.rxClosed && 20000 / 500 < ticks - pcb.tmr
  | .synRcvd => 20000 / 500 < ticks - pcb.tmr
  | .lastAck => 2 * 60000 / 500 < ticks - pcb.tmr
  | _ => false

/-- What `tcp_slowtmr` does to a block before it decides to remove it. -/
def slowtmrPcb (ticks : UInt32) (pcb : Pcb) : Pcb :=
  slowtmrOoseq ticks (slowtmrKeepalive mem ticks (slowtmrSend c mem ticks pcb))

/-- `tcp_slowtmr` removes the block. -/
def slowtmrRemove (conn : Conn) : Conn :=
  let cb := conn.pcb.cb
  tcpEventErr cb
    (mempFree { conn.onPcb tcpPcbPurge with home := .unlisted, activePcbsChanged := false })

/-- The end of the round of `tcp_slowtmr`: the application is polled. When the list of active blocks has
changed the loop starts again, otherwise it goes on with the block. -/
def slowtmrPoll (conn : Conn) : Conn :=
  let conn := conn.onPcb fun pcb => { pcb with polltmr := pcb.polltmr + 1 }
  if conn.pcb.pollinterval ≤ conn.pcb.polltmr then
    let conn := { conn.onPcb fun pcb => { pcb with polltmr := 0 } with activePcbsChanged := false }
    let (err, conn) := tcpEventPoll c mem conn
    if conn.activePcbsChanged then conn
    else if err = .ok then Conn.output c mem conn.deref
    else conn
  else conn

/-- The round of `tcp_slowtmr` for a block on `tcp_active_pcbs`. The limits are looked at where the source
does: the one of the retransmissions before it retransmits, the others behind. -/
def slowtmrActive (conn : Conn) : Conn :=
  if conn.pcb.lastTimer = conn.timerCtr then conn
  else
    let limit := rexmitLimit conn.pcb
    let conn := conn.onPcb fun pcb => slowtmrPcb c mem conn.ticks { pcb with lastTimer := conn.timerCtr }
    if limit || stateExpired conn.ticks conn.pcb || keepaliveExpired conn.ticks conn.pcb then
      slowtmrRemove conn
    else slowtmrPoll c mem conn

/-- The round of `tcp_slowtmr` for a block on `tcp_tw_pcbs`. -/
def slowtmrTimeWait (conn : Conn) : Conn :=
  if 2 * 60000 / 500 < conn.ticks - conn.pcb.tmr then mempFree (conn.onPcb tcpPcbPurge) else conn

/-- `tcp_slowtmr`. -/
def tcpSlowtmr (conn : Conn) : Conn :=
  let conn := { conn with ticks := conn.ticks + 1, timerCtr := conn.timerCtr + 1 }
  match conn.home with
  | .active => slowtmrActive c mem conn
  | .timeWait => slowtmrTimeWait conn
  | _ => conn

/-- The round of `tcp_fasttmr` for a block on `tcp_active_pcbs`. -/
def fasttmrActive (conn : Conn) : Conn :=
  if conn.pcb.lastTimer = conn.timerCtr then conn
  else
    let conn := conn.onPcb fun pcb => { pcb with lastTimer := conn.timerCtr }
    let conn := if conn.pcb.flags.ackDelay then
        (Conn.output c mem (conn.onPcb tcpAckNow)).onPcb fun pcb =>
          { pcb with flags := { pcb.flags with ackDelay := false, ackNow := false } }
      else conn
    match conn.pcb.refusedData with
    | none => conn
    | some (refused, fin) =>
        (tcpProcessRefusedData c mem refused fin { conn with activePcbsChanged := false }).2

/-- `tcp_fasttmr`. -/
def tcpFasttmr (conn : Conn) : Conn :=
  let conn := { conn with timerCtr := conn.timerCtr + 1 }
  if conn.home = .active then fasttmrActive c mem conn else conn

/-! ## The machine -/

/-- What can happen to a connection. -/
inductive Event
  /-- A segment arrives. -/
  | segment (i : InSeg) (mem : Mem)
  | slowtmr (mem : Mem)
  | fasttmr (mem : Mem)
  /-- `tcp_abandon` is called on the connection, for instance because another one needs its block. -/
  | abandon (mem : Mem)

/-- One event; there are none behind the end of the connection. -/
def step (conn : Conn) : Event → Option Conn
  | .segment i mem =>
      match conn.home with
      | .active => some (tcpInput c mem i conn)
      | .timeWait => some (tcpTimewaitInput c mem i conn)
      | _ => none
  | .slowtmr mem => if conn.home = .freed then none else some (tcpSlowtmr c mem conn)
  | .fasttmr mem => if conn.home = .freed then none else some (tcpFasttmr c mem conn)
  | .abandon mem => if conn.home = .freed then none else some (tcpAbandon c mem conn)

/-- `tcp_alloc`, with the initial send sequence number `iss`. -/
def tcpAlloc (iss ticks : UInt32) (timerCtr : UInt8) : Pcb where
  state := .closed
  flags := {}
  cb := ⟨.tcpRecvNull, false, false, false⟩
  rcv := ⟨0, c.tcpWnd, c.tcpWnd, 0⟩
  snd :=
    { rtime := -1, rttest := 0, rtseq := 0, sa := 0, sv := 3000 / 500, rto := 3000 / 500, nrtx := 0
      dupacks := 0, lastack := iss, cwnd := 1, ssthresh := 0, sndNxt := iss, sndWl1 := 0, sndWl2 := iss
      sndLbb := iss, sndWnd := 0, sndWndMax := 0, acked := 0, sndBuf := c.tcpSndBuf, sndQueuelen := 0
      unsent := [], unacked := [] }
  mss := if 536 < c.tcpMss then 536 else c.tcpMss
  ooseq := []
  refusedData := none
  soKeepalive := false
  polltmr := 0
  pollinterval := 0
  lastTimer := timerCtr
  tmr := ticks
  keepIdle := 7200000
  keepCntSent := 0
  persistCnt := 0
  persistBackoff := 0

/-- `tcp_listen_input` for the SYN `i`: the connection that it makes. -/
def tcpListenInput (i : InSeg) (soKeepalive : Bool) (iss ticks : UInt32) (timerCtr : UInt8) : Conn :=
  let pcb := tcpAlloc c iss ticks timerCtr
  let pcb := { pcb with
    state := .synRcvd
    rcv := { pcb.rcv with rcvNxt := i.seqno + 1, rcvAnnRightEdge := i.seqno + 1 }
    soKeepalive := soKeepalive
    snd := { pcb.snd with sndWnd := i.wnd, sndWndMax := i.wnd, ssthresh := i.wnd, sndWl1 := i.seqno - 1 }
    mss := c.tcpEffSendMss (tcpParseopt c i ((i.hdrlen - 5) * 4) 0 pcb.mss) }
  let (queued, pcb) := tcpEnqueueFlags c mem.finAlloc { syn := true, ack := true } pcb
  let conn : Conn :=
    { pcb := pcb, home := .active, inputPcb := false, activePcbsChanged := true, ticks := ticks
      timerCtr := timerCtr, app := {}, pcbUseAfterFree := false, calls := [] }
  if queued then Conn.output c mem conn else tcpAbandon c mem conn

end BareMetal.Tcp
