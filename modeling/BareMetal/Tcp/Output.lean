import BareMetal.Tcp.Pcb

/-! # Sending

The functions of `tcp_out.c` that a connection calls on itself. What goes out on the wire is not recorded,
only what the calls do to the control block; a failing allocation is a `Bool` argument. None of them
touches the part of the block that is its `view`, and that is all that the receiving side needs to know
about them. -/

namespace BareMetal.Tcp

variable (c : Config) (ticks : UInt32)

/-- `tcp_output_alloc_header`, when the pbuf was allocated. -/
def tcpOutputAllocHeader (pcb : Pcb) : Pcb :=
  { pcb with rcv := { pcb.rcv with rcvAnnRightEdge := pcb.rcv.rcvNxt + u32 pcb.rcv.rcvAnnWnd } }

/-- `tcp_send_empty_ack`. -/
def tcpSendEmptyAck (alloc : Bool) (pcb : Pcb) : Pcb :=
  if alloc then
    let pcb := tcpOutputAllocHeader pcb
    { pcb with flags := { pcb.flags with ackDelay := false, ackNow := false } }
  else pcb

/-- `tcp_do_output_nagle`. -/
def tcpDoOutputNagle (pcb : Pcb) : Bool :=
  pcb.snd.unacked.isEmpty || (pcb.flags.nodelay || pcb.flags.infr) ||
    (match pcb.snd.unsent with
      | [] => false
      | [seg] => pcb.mss ≤ seg.len
      | _ :: _ :: _ => true) ||
    (pcb.snd.sndBuf == 0 || c.tcpSndQueuelen ≤ pcb.snd.sndQueuelen)

/-- `tcp_output_segment`. The local address of an accepted connection is set, so no route is looked up. -/
def tcpOutputSegment (seg : Seg) (pcb : Pcb) : Pcb :=
  let pcb := tcpOutputAllocHeader pcb
  let snd := { pcb.snd with rtime := if pcb.snd.rtime = -1 then 0 else pcb.snd.rtime }
  { pcb with snd :=
      if snd.rttest = 0 then { snd with rttest := ticks, rtseq := seg.seqno } else snd }

/-- Insert a segment in front of the first one that does not come before it. -/
def insertSorted (seg : Seg) : List Seg → List Seg
  | [] => [seg]
  | s :: ss => if seqLt s.seqno seg.seqno then s :: insertSorted seg ss else seg :: s :: ss

/-- Put a segment that was sent on the unacknowledged list: at the tail, or in its place before it. -/
def putUnacked (seg : Seg) (unacked : List Seg) : List Seg :=
  match unacked.getLast? with
  | none => [seg]
  | some useg => if seqLt seg.seqno useg.seqno then insertSorted seg unacked else unacked ++ [seg]

/-- One round of the loop of `tcp_output`: send the first segment of `unsent`. -/
def sendFirst (seg : Seg) (rest : List Seg) (pcb : Pcb) : Pcb :=
  let pcb := { pcb with snd := { pcb.snd with unsent := rest } }
  let seg := if pcb.state ≠ .synSent then { seg with flags := { seg.flags with ack := true } } else seg
  let pcb := if pcb.state ≠ .synSent then
      { pcb with flags := { pcb.flags with ackDelay := false, ackNow := false } } else pcb
  let pcb := tcpOutputSegment ticks seg pcb
  let sndNxt := seg.seqno + u32 seg.tcpLen
  { pcb with snd :=
    { pcb.snd with
      sndNxt := if seqLt pcb.snd.sndNxt sndNxt then sndNxt else pcb.snd.sndNxt
      unacked := if 0 < seg.tcpLen then putUnacked seg pcb.snd.unacked else pcb.snd.unacked } }

/-- The loop of `tcp_output` over `unsent`. -/
def outputLoop (wnd : UInt32) : List Seg → Pcb → Pcb
  | [], pcb => pcb
  | seg :: rest, pcb =>
      if seg.seqno - pcb.snd.lastack + u32 seg.len ≤ wnd then
        if tcpDoOutputNagle c pcb = false ∧ (pcb.flags.nagleMemErr || pcb.flags.fin) = false then pcb
        else outputLoop wnd rest (sendFirst ticks seg rest pcb)
      else pcb

/-- No segment will be sent: there is none, or the window does not allow the first one. -/
def outputBlocked (wnd : UInt32) (pcb : Pcb) : Bool :=
  match pcb.snd.unsent with
  | [] => true
  | seg :: _ => wnd < seg.seqno - pcb.snd.lastack + u32 seg.len

/-- `tcp_output`; `isInputPcb` says that the block is `tcp_input_pcb`. -/
def tcpOutput (isInputPcb alloc : Bool) (pcb : Pcb) : Pcb :=
  if isInputPcb then pcb
  else
    let wnd := u32 (min pcb.snd.sndWnd pcb.snd.cwnd)
    if pcb.flags.ackNow && outputBlocked wnd pcb then tcpSendEmptyAck alloc pcb
    else
      let pcb := outputLoop c ticks wnd pcb.snd.unsent pcb
      { pcb with flags := { pcb.flags with nagleMemErr := false } }

/-- `tcp_enqueue_flags`; `false` for `ERR_MEM`. -/
def tcpEnqueueFlags (alloc : Bool) (flags : HdrFlags) (pcb : Pcb) : Bool × Pcb :=
  let memErr := { pcb with flags := { pcb.flags with nagleMemErr := true } }
  if c.tcpSndQueuelen ≤ pcb.snd.sndQueuelen ∨ 0xffff - 3 < pcb.snd.sndQueuelen then (false, memErr)
  else if pcb.snd.sndBuf = 0 then (false, pcb)
  else if alloc = false then (false, memErr)
  else
    -- the segment has one pbuf and no data
    let seg : Seg := ⟨pcb.snd.sndLbb, flags, 0, [[]]⟩
    (true, { pcb with
      flags := { pcb.flags with fin := pcb.flags.fin || flags.fin }
      snd :=
      { pcb.snd with
        unsent := pcb.snd.unsent ++ [seg]
        sndLbb := pcb.snd.sndLbb + 1
        sndBuf := pcb.snd.sndBuf - 1
        sndQueuelen := pcb.snd.sndQueuelen + 1 } })

/-- `tcp_send_fin`. -/
def tcpSendFin (alloc : Bool) (pcb : Pcb) : Bool × Pcb :=
  match pcb.snd.unsent.getLast? with
  | some last =>
      if last.flags.syn || last.flags.fin || last.flags.rst then
        tcpEnqueueFlags c alloc { fin := true } pcb
      else
        -- the FIN goes on the last segment
        let last := { last with flags := { last.flags with fin := true } }
        (true, { pcb with
          flags := { pcb.flags with fin := true }
          snd := { pcb.snd with unsent := pcb.snd.unsent.dropLast ++ [last] } })
  | none => tcpEnqueueFlags c alloc { fin := true } pcb

/-- `tcp_rexmit_rto`. -/
def tcpRexmitRto (alloc : Bool) (pcb : Pcb) : Pcb :=
  if pcb.snd.unacked = [] then pcb
  else
    tcpOutput c ticks false alloc { pcb with snd :=
      { pcb.snd with
        unsent := pcb.snd.unacked ++ pcb.snd.unsent
        unacked := []
        nrtx := pcb.snd.nrtx + 1
        rttest := 0 } }

/-- `tcp_rexmit`. -/
def tcpRexmit (pcb : Pcb) : Pcb :=
  match pcb.snd.unacked with
  | [] => pcb
  | seg :: rest =>
      { pcb with snd :=
        { pcb.snd with
          unacked := rest
          unsent := insertSorted seg pcb.snd.unsent
          nrtx := pcb.snd.nrtx + 1
          rttest := 0 } }

/-- `tcp_rexmit_fast`. -/
def tcpRexmitFast (pcb : Pcb) : Pcb :=
  if pcb.snd.unacked ≠ [] ∧ pcb.flags.infr = false then
    let pcb := tcpRexmit pcb
    let half := if pcb.snd.sndWnd < pcb.snd.cwnd then pcb.snd.sndWnd / 2 else pcb.snd.cwnd / 2
    let ssthresh := if half.toNat < 2 * pcb.mss.toNat then 2 * pcb.mss else half
    { pcb with
      flags := { pcb.flags with infr := true }
      snd := { pcb.snd with ssthresh := ssthresh, cwnd := ssthresh + 3 * pcb.mss } }
  else pcb

/-- `tcp_keepalive`. -/
def tcpKeepalive (alloc : Bool) (pcb : Pcb) : Pcb :=
  if alloc then tcpOutputAllocHeader pcb else pcb

/-- `tcp_zero_window_probe`. -/
def tcpZeroWindowProbe (alloc : Bool) (pcb : Pcb) : Pcb :=
  if pcb.snd.unacked = [] ∧ pcb.snd.unsent = [] then pcb
  else if alloc then tcpOutputAllocHeader pcb
  else pcb

/-! ## The view -/

/-- An empty ACK clears the flags that asked for it, no more. -/
theorem view_tcpSendEmptyAck (alloc : Bool) (pcb : Pcb) : (tcpSendEmptyAck alloc pcb).view = pcb.view := by
  unfold tcpSendEmptyAck
  split <;> rfl

/-- A round of `tcp_output` moves a segment from one queue of the sender to the other. -/
theorem view_sendFirst (seg : Seg) (rest : List Seg) (pcb : Pcb) :
    (sendFirst ticks seg rest pcb).view = pcb.view := by
  by_cases h : pcb.state = .synSent
  · simp [sendFirst, h, tcpOutputSegment, tcpOutputAllocHeader, Pcb.view]
  · simp [sendFirst, h, tcpOutputSegment, tcpOutputAllocHeader, Pcb.view]

/-- By induction on `unsent`: no round touches the receiver. -/
theorem view_outputLoop (wnd : UInt32) (unsent : List Seg) (pcb : Pcb) :
    (outputLoop c ticks wnd unsent pcb).view = pcb.view := by
  induction unsent generalizing pcb with
  | nil => rfl
  | cons seg rest ih =>
      unfold outputLoop
      split
      · split
        · rfl
        · rw [ih, view_sendFirst]
      · rfl

/-- **Frame of `tcp_output`.** The receiving side does not notice it. -/
theorem view_tcpOutput (isInputPcb alloc : Bool) (pcb : Pcb) :
    (tcpOutput c ticks isInputPcb alloc pcb).view = pcb.view := by
  unfold tcpOutput
  dsimp only
  split
  · rfl
  · split
    · exact view_tcpSendEmptyAck alloc pcb
    · exact view_outputLoop c ticks _ _ pcb

/-- A segment without data goes to `unsent`, or there is no memory for it. -/
theorem view_tcpEnqueueFlags (alloc : Bool) (flags : HdrFlags) (pcb : Pcb) :
    (tcpEnqueueFlags c alloc flags pcb).2.view = pcb.view := by
  unfold tcpEnqueueFlags
  dsimp only
  split
  · rfl
  · split
    · rfl
    · split <;> rfl

/-- The FIN goes on the last segment, or in a segment of its own. -/
theorem view_tcpSendFin (alloc : Bool) (pcb : Pcb) : (tcpSendFin c alloc pcb).2.view = pcb.view := by
  unfold tcpSendFin
  split
  · split
    · exact view_tcpEnqueueFlags c alloc _ pcb
    · rfl
  · exact view_tcpEnqueueFlags c alloc _ pcb

/-- Requeueing everything is the sender's business only. -/
theorem view_tcpRexmitRto (alloc : Bool) (pcb : Pcb) : (tcpRexmitRto c ticks alloc pcb).view = pcb.view := by
  unfold tcpRexmitRto
  split
  · rfl
  · rw [view_tcpOutput]
    rfl

/-- Requeueing the first segment is the sender's business only. -/
theorem view_tcpRexmit (pcb : Pcb) : (tcpRexmit pcb).view = pcb.view := by
  unfold tcpRexmit
  split <;> rfl

/-- Fast retransmit changes the congestion window and what `tcp_rexmit` changes. -/
theorem view_tcpRexmitFast (pcb : Pcb) : (tcpRexmitFast pcb).view = pcb.view := by
  unfold tcpRexmitFast
  split
  · exact view_tcpRexmit pcb
  · rfl

/-- A keepalive packet leaves nothing behind but the edge of the announced window. -/
theorem view_tcpKeepalive (alloc : Bool) (pcb : Pcb) : (tcpKeepalive alloc pcb).view = pcb.view := by
  unfold tcpKeepalive
  split <;> rfl

/-- A probe leaves nothing behind but the edge of the announced window. -/
theorem view_tcpZeroWindowProbe (alloc : Bool) (pcb : Pcb) :
    (tcpZeroWindowProbe alloc pcb).view = pcb.view := by
  unfold tcpZeroWindowProbe
  split
  · rfl
  · split <;> rfl

end BareMetal.Tcp
