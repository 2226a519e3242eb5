import Mathlib.Data.List.Basic

/-! # The TCP control block

`struct tcp_pcb` of `tcp.h` with what belongs to one connection. The list link, the addresses and ports,
and the type-of-service fields are left out: they matter for finding the connection, not for what happens
on it. Sequence numbers are 32-bit words and compared with the wrapping comparisons of `tcp_impl.h`. A
chain of pbufs is the list of its payloads. The options of `opt.h` are the defaults, but for the numbers
in `Config`. -/

namespace BareMetal.Tcp

/-- `TCP_SEQ_LT`. -/
def seqLt (a b : UInt32) : Bool := 0x80000000 ≤ a - b

/-- `TCP_SEQ_LEQ`. -/
def seqLeq (a b : UInt32) : Bool := seqLt a b || a == b

/-- `TCP_SEQ_GT`. -/
def seqGt (a b : UInt32) : Bool := !seqLeq a b

/-- `TCP_SEQ_GEQ`. -/
def seqGeq (a b : UInt32) : Bool := !seqLt a b

/-- `TCP_SEQ_BETWEEN`: `b <= a <= c`. -/
def seqBetween (a b c : UInt32) : Bool := seqGeq a b && seqLeq a c

/-- `enum tcp_state`. -/
inductive TcpState
  | closed
  | listen
  | synSent
  | synRcvd
  | established
  | finWait1
  | finWait2
  | closeWait
  | closing
  | lastAck
  | timeWait
  deriving DecidableEq, Repr

/-- `pcb->state < CLOSE_WAIT`. -/
def TcpState.ltCloseWait : TcpState → Bool
  | .closeWait | .closing | .lastAck | .timeWait => false
  | _ => true

/-- `pcb->state >= ESTABLISHED`. -/
def TcpState.geEstablished : TcpState → Bool
  | .closed | .listen | .synSent | .synRcvd => false
  | _ => true

/-- The flags of a TCP header. -/
structure HdrFlags where
  fin : Bool := false
  syn : Bool := false
  rst : Bool := false
  ack : Bool := false
  deriving DecidableEq, Repr

/-- A chain of pbufs. -/
abbrev Chain := List (List UInt8)

/-- `p->tot_len`. -/
def Chain.totLen (p : Chain) : ℕ := p.flatten.length

/-- `struct tcp_seg`: the header and the data behind it. -/
structure Seg where
  seqno : UInt32
  flags : HdrFlags
  len : UInt16
  p : Chain
  deriving DecidableEq, Repr

/-- `TCP_TCPLEN`. -/
def Seg.tcpLen (seg : Seg) : UInt16 := seg.len + if seg.flags.fin || seg.flags.syn then 1 else 0

/-- A `u16_t` in 32-bit arithmetic. -/
abbrev u32 (x : UInt16) : UInt32 := x.toUInt32

/-- `pbuf_realloc(p, new_len)`. -/
def pbufRealloc : Chain → ℕ → Chain
  | [], _ => []
  | q :: qs, newLen => if q.length < newLen then q :: pbufRealloc qs (newLen - q.length) else [q.take newLen]

/-- Hide the first `off` bytes of a chain. -/
def pbufHide : Chain → ℕ → Chain
  | [], _ => []
  | q :: qs, off => if q.length < off then [] :: pbufHide qs (off - q.length) else q.drop off :: qs

/-- `pcb->flags`. -/
structure PcbFlags where
  ackDelay : Bool := false
  ackNow : Bool := false
  infr : Bool := false
  rxClosed : Bool := false
  fin : Bool := false
  nodelay : Bool := false
  nagleMemErr : Bool := false
  deriving DecidableEq, Repr

/-- The functions that `pcb->recv` can point to. -/
inductive RecvFn
  | tcpRecvNull
  | appTcpRecv
  deriving DecidableEq, Repr

/-- The receiver variables. -/
structure Rcv where
  rcvNxt : UInt32
  rcvWnd : UInt16
  rcvAnnWnd : UInt16
  rcvAnnRightEdge : UInt32
  deriving DecidableEq, Repr

/-- The sender variables, with the retransmission timer and the congestion control. -/
structure Snd where
  rtime : Int16
  rttest : UInt32
  rtseq : UInt32
  sa : Int16
  sv : Int16
  rto : Int16
  nrtx : UInt8
  dupacks : UInt8
  lastack : UInt32
  cwnd : UInt16
  ssthresh : UInt16
  sndNxt : UInt32
  sndWl1 : UInt32
  sndWl2 : UInt32
  sndLbb : UInt32
  sndWnd : UInt16
  sndWndMax : UInt16
  acked : UInt16
  sndBuf : UInt16
  sndQueuelen : UInt16
  unsent : List Seg
  unacked : List Seg
  deriving DecidableEq, Repr

/-- The callbacks. `sent` and `connected` are left out: nothing here sets them, so their events return
`ERR_OK`. -/
structure Callbacks where
  recv : RecvFn
  /-- `errf` is `app_tcp_conn_err`, else `NULL`. -/
  errf : Bool
  /-- `poll` is `app_tcp_poll`, else `NULL`. -/
  poll : Bool
  /-- `callback_arg` is not `NULL`. -/
  arg : Bool
  deriving DecidableEq, Repr

/-- `struct tcp_pcb`. -/
structure Pcb where
  state : TcpState
  flags : PcbFlags
  cb : Callbacks
  rcv : Rcv
  snd : Snd
  mss : UInt16
  ooseq : List Seg
  /-- `refused_data`, and `PBUF_FLAG_TCP_FIN` of its first pbuf. -/
  refusedData : Option (Chain × Bool)
  soKeepalive : Bool
  polltmr : UInt8
  pollinterval : UInt8
  lastTimer : UInt8
  tmr : UInt32
  keepIdle : UInt32
  keepCntSent : UInt8
  persistCnt : UInt8
  persistBackoff : UInt8
  deriving DecidableEq, Repr

/-- The numbers of the configuration. -/
structure Config where
  tcpWnd : UInt16
  tcpMss : UInt16
  tcpSndBuf : UInt16
  tcpSndQueuelen : UInt16
  /-- `netif->mtu` of the interface that `ip_route` finds, 0 for none. -/
  mtu : UInt16
  tcpWnd_pos : 0 < tcpWnd

/-- `TCP_WND_UPDATE_THRESHOLD`. -/
def Config.tcpWndUpdateThreshold (c : Config) : ℕ := c.tcpWnd.toNat / 4

/-- `tcp_eff_send_mss(sendmss, addr)`. -/
def Config.tcpEffSendMss (c : Config) (sendmss : UInt16) : UInt16 :=
  if c.mtu ≠ 0 then min sendmss (c.mtu - 20 - 20) else sendmss

/-- `tcp_ack`. -/
def tcpAck (pcb : Pcb) : Pcb :=
  if pcb.flags.ackDelay then
    { pcb with flags := { pcb.flags with ackDelay := false, ackNow := true } }
  else { pcb with flags := { pcb.flags with ackDelay := true } }

/-- `tcp_ack_now`. -/
def tcpAckNow (pcb : Pcb) : Pcb := { pcb with flags := { pcb.flags with ackNow := true } }

/-- `tcp_update_rcv_ann_wnd`; the extra window and the control block. -/
def tcpUpdateRcvAnnWnd (c : Config) (pcb : Pcb) : UInt32 × Pcb :=
  let newRightEdge := pcb.rcv.rcvNxt + u32 pcb.rcv.rcvWnd
  if seqGeq newRightEdge (pcb.rcv.rcvAnnRightEdge + u32 (min (c.tcpWnd / 2) pcb.mss)) then
    -- we can advertise more window
    (newRightEdge - pcb.rcv.rcvAnnRightEdge,
      { pcb with rcv := { pcb.rcv with rcvAnnWnd := pcb.rcv.rcvWnd } })
  else if seqGt pcb.rcv.rcvNxt pcb.rcv.rcvAnnRightEdge then
    -- the other end sent outside the advertised window
    (0, { pcb with rcv := { pcb.rcv with rcvAnnWnd := 0 } })
  else
    (0, { pcb with rcv :=
      { pcb.rcv with rcvAnnWnd := (pcb.rcv.rcvAnnRightEdge - pcb.rcv.rcvNxt).toUInt16 } })

/-- `tcp_pcb_purge`. -/
def tcpPcbPurge (pcb : Pcb) : Pcb :=
  if pcb.state ≠ .closed ∧ pcb.state ≠ .timeWait ∧ pcb.state ≠ .listen then
    { pcb with
      refusedData := none
      ooseq := []
      snd := { pcb.snd with rtime := -1, unsent := [], unacked := [] } }
  else pcb

/-! ## What the senders leave alone -/

/-- The part of a control block that sending does not touch. -/
structure View where
  state : TcpState
  rxClosed : Bool
  cb : Callbacks
  rcvNxt : UInt32
  rcvWnd : UInt16
  ooseq : List Seg
  refusedData : Option (Chain × Bool)
  soKeepalive : Bool
  polltmr : UInt8
  pollinterval : UInt8
  lastTimer : UInt8
  tmr : UInt32
  keepIdle : UInt32

/-- The part of `pcb` that sending does not touch. -/
def Pcb.view (pcb : Pcb) : View where
  state := pcb.state
  rxClosed := pcb.flags.rxClosed
  cb := pcb.cb
  rcvNxt := pcb.rcv.rcvNxt
  rcvWnd := pcb.rcv.rcvWnd
  ooseq := pcb.ooseq
  refusedData := pcb.refusedData
  soKeepalive := pcb.soKeepalive
  polltmr := pcb.polltmr
  pollinterval := pcb.pollinterval
  lastTimer := pcb.lastTimer
  tmr := pcb.tmr
  keepIdle := pcb.keepIdle

variable {pcb pcb' : Pcb}

/-- Delaying an ACK, or sending it now, only sets flags of the sender. -/
theorem view_tcpAck (pcb : Pcb) : (tcpAck pcb).view = pcb.view := by
  unfold tcpAck
  split <;> rfl

/-- `tcp_ack_now` only sets a flag of the sender. -/
theorem view_tcpAckNow (pcb : Pcb) : (tcpAckNow pcb).view = pcb.view := rfl

/-- The announced window is for the other end; the receiver does not read it. -/
theorem view_tcpUpdateRcvAnnWnd (c : Config) (pcb : Pcb) : (tcpUpdateRcvAnnWnd c pcb).2.view = pcb.view := by
  unfold tcpUpdateRcvAnnWnd
  dsimp only
  split
  · rfl
  · split <;> rfl

end BareMetal.Tcp
