import BareMetal.Lib.LinkedPath
import BareMetal.Lib.SerialNumber
import BareMetal.Tcp.Output

/-! # The segment queues of a sender

`tcp_output`, `tcp_rexmit` and `tcp_rexmit_rto` of `tcp_out.c` once more, now with the queues `unsent` and
`unacked` as they are in memory: a segment is an address, 0 is `NULL`, and `next` is the link in it. The
functions read and write the links as the code does, with the running tail pointer `useg` of `tcp_output` and
the pointer `cur_seg` to the link under change. A loop gets the number `n` of segments there are as fuel and
fails when that does not end it. Read as lists, the queues change as those of `Tcp.Output` do (`tcpOutput_toPcb`).

What is handed to `tcp_output_segment` and to `tcp_seg_free` is recorded, in order. -/

namespace BareMetal.Tcp

/-- `TCP_TCPLEN` of a segment to be sent, added up in `int`: unlike `Seg.tcpLen`, which is stored in a `u16_t`,
it does not wrap. -/
def Seg.seqLen (seg : Seg) : UInt32 := u32 seg.len + if seg.flags.fin || seg.flags.syn then 1 else 0

/-- The segment without its ACK flag, which is all that sending changes in it. -/
def Seg.noAck (seg : Seg) : Seg := { seg with flags := { seg.flags with ack := false } }

/-- The later one of two sequence numbers: `if (TCP_SEQ_LT(a, b)) a = b;`. -/
def seqMax (a b : UInt32) : UInt32 := if seqLt a b then b else a

/-- A control block with its queues in memory. -/
structure Sender where
  /-- The control block; its own lists of segments are not used. -/
  pcb : Pcb
  seg : ℕ → Seg
  /-- `seg->next`. -/
  next : ℕ → ℕ
  unsent : ℕ
  unacked : ℕ
  unsentOversize : UInt16
  /-- The segments given to `tcp_output_segment`. -/
  sent : List ℕ
  /-- The segments given to `tcp_seg_free`. -/
  freed : List ℕ

/-- What a call of `tcp_output` finds outside the control block. -/
structure OutputEnv where
  /-- `tcp_input_pcb` is the control block. -/
  isInputPcb : Bool
  /-- The pbuf of an empty ACK can be allocated. -/
  alloc : Bool
  /-- There is a local address, or a route that gives one. -/
  route : Bool
  /-- `tcp_ticks`. -/
  ticks : UInt32

namespace Sender

variable (c : Config) (env : OutputEnv) (n : ℕ)

/-- `ntohl(seg->tcphdr->seqno)`. -/
def seqno (s : Sender) (x : ℕ) : UInt32 := (s.seg x).seqno

/-- `seg->len`. -/
def len (s : Sender) (x : ℕ) : UInt32 := u32 (s.seg x).len

/-- `TCP_TCPLEN(seg)`. -/
def seqLen (s : Sender) (x : ℕ) : UInt32 := (s.seg x).seqLen

/-- The segment occupies sequence space. -/
def occupies (s : Sender) (x : ℕ) : Bool := 0 < s.seqLen x

/-- `LWIP_MIN(pcb->snd_wnd, pcb->cwnd)`. -/
def wnd (s : Sender) : UInt32 := u32 (min s.pcb.snd.sndWnd s.pcb.snd.cwnd)

/-- `ntohl(seg->tcphdr->seqno) - pcb->lastack + seg->len`. -/
def reach (s : Sender) (x : ℕ) : UInt32 := s.seqno x - s.pcb.snd.lastack + s.len x

/-- `tcp_do_output_nagle`. -/
def tcpDoOutputNagle (s : Sender) : Bool :=
  s.unacked == 0 || (s.pcb.flags.nodelay || s.pcb.flags.infr) ||
    (s.unsent != 0 && (s.next s.unsent != 0 || s.pcb.mss ≤ (s.seg s.unsent).len)) ||
    (s.pcb.snd.sndBuf == 0 || c.tcpSndQueuelen ≤ s.pcb.snd.sndQueuelen)

/-- No segment will be sent: there is none, or the window does not allow the first one. -/
def outputBlocked (wnd : UInt32) (s : Sender) : Bool := s.unsent == 0 || wnd < s.reach s.unsent

/-- `tcp_output_segment`. Without a route it returns before it looks at the round-trip timer. -/
def tcpOutputSegment (x : ℕ) (s : Sender) : Sender :=
  let pcb :=
    if env.route then Tcp.tcpOutputSegment env.ticks (s.seg x) s.pcb
    else
      let pcb := tcpOutputAllocHeader s.pcb
      { pcb with snd := { pcb.snd with rtime := if pcb.snd.rtime = -1 then 0 else pcb.snd.rtime } }
  { s with pcb := pcb, sent := s.sent ++ [x] }

/-- The segment carries the ACK that is due, except in `SYN_SENT`. -/
def setAck (x : ℕ) (s : Sender) : Sender :=
  if s.pcb.state ≠ .synSent then
    { s with
      seg := Function.update s.seg x { s.seg x with flags := { (s.seg x).flags with ack := true } }
      pcb := { s.pcb with flags := { s.pcb.flags with ackDelay := false, ackNow := false } } }
  else s

/-- A round of the loop of `tcp_output` up to `snd_nxt`: take the first segment off `unsent` and send it. -/
def transmit (s : Sender) : Sender :=
  let x := s.unsent
  let s := { s with unsent := s.next x }
  let s := (s.setAck x).tcpOutputSegment env x
  { s with pcb := { s.pcb with snd :=
    { s.pcb.snd with sndNxt := seqMax s.pcb.snd.sndNxt (s.seqno x + s.seqLen x) } } }

/-- `while (*cur_seg && TCP_SEQ_LT(seqno(*cur_seg), seqno(seg))) cur_seg = &((*cur_seg)->next);`, and the insertion
there: the head and the links behind it. -/
def insertSeg (x head : ℕ) (s : Sender) : Option (ℕ × (ℕ → ℕ)) :=
  insertBefore 0 s.next (fun y => !seqLt (s.seqno y) (s.seqno x)) n x head

/-- The rest of the round: put the segment on `unacked`, or free it. The new `useg` and the sender. -/
def putUnacked (x useg : ℕ) (s : Sender) : Option (ℕ × Sender) :=
  if s.occupies x then
    let s := { s with next := Function.update s.next x 0 }
    if s.unacked = 0 then some (x, { s with unacked := x })
    else if seqLt (s.seqno x) (s.seqno useg) then
      -- after a fast retransmit: not at the tail
      (s.insertSeg n x s.unacked).map fun ⟨head, next⟩ => (useg, { s with unacked := head, next := next })
    else some (x, { s with next := Function.update s.next useg x })
  else some (useg, { s with freed := s.freed ++ [x] })

/-- The loop of `tcp_output` over `unsent`. -/
def outputLoop (wnd : UInt32) : ℕ → ℕ → Sender → Option Sender
  | 0, _, s => if s.outputBlocked wnd then some s else none
  | fuel + 1, useg, s =>
      if s.outputBlocked wnd then some s
      else if s.tcpDoOutputNagle c = false ∧ (s.pcb.flags.nagleMemErr || s.pcb.flags.fin) = false then some s
      else ((s.transmit env).putUnacked n s.unsent useg).bind fun ⟨useg, s⟩ => outputLoop wnd fuel useg s

/-- `tcp_output`. -/
def tcpOutput (s : Sender) : Option Sender :=
  if env.isInputPcb then some s
  else if s.pcb.flags.ackNow && s.outputBlocked s.wnd then
    some { s with pcb := tcpSendEmptyAck env.alloc s.pcb }
  else
    (lastNode 0 s.next n s.unacked).bind fun useg =>
      (outputLoop c env n s.wnd n useg s).map fun s =>
        { s with
          unsentOversize := if s.unsent = 0 then 0 else s.unsentOversize
          pcb := { s.pcb with flags := { s.pcb.flags with nagleMemErr := false } } }

/-- `++pcb->nrtx; pcb->rttest = 0;`. -/
def countRexmit (s : Sender) : Sender :=
  { s with pcb := { s.pcb with snd := { s.pcb.snd with nrtx := s.pcb.snd.nrtx + 1, rttest := 0 } } }

/-- `tcp_rexmit_rto` before its call of `tcp_output`. -/
def requeueAll (s : Sender) : Option Sender :=
  (lastNode 0 s.next n s.unacked).map fun last =>
    { s.countRexmit with next := Function.update s.next last s.unsent, unsent := s.unacked, unacked := 0 }

/-- `tcp_rexmit_rto`. -/
def tcpRexmitRto (s : Sender) : Option Sender :=
  if s.unacked = 0 then some s else (s.requeueAll n).bind (tcpOutput c env n)

/-- `tcp_rexmit`. -/
def tcpRexmit (s : Sender) : Option Sender :=
  if s.unacked = 0 then some s
  else
    let x := s.unacked
    let s := { s with unacked := s.next x }
    (s.insertSeg n x s.unsent).map fun ⟨head, next⟩ =>
      { s.countRexmit with
        unsent := head
        next := next
        unsentOversize := if next x = 0 then 0 else s.unsentOversize }

/-! ## What sending a segment changes -/

variable {s s' : Sender}

/-- Setting the ACK flag of a segment changes nothing else of it. -/
theorem noAck_setAck (s : Sender) (x y : ℕ) : ((s.setAck x).seg y).noAck = (s.seg y).noAck := by
  unfold setAck
  split
  · dsimp only
    rw [Function.update_apply]
    split
    · rename_i heq
      rw [heq]
      rfl
    · rfl
  · rfl

/-- And nothing of the connection. -/
theorem snd_setAck (s : Sender) (x : ℕ) : (s.setAck x).pcb.snd = s.pcb.snd := by
  unfold setAck
  split <;> rfl

/-- `tcp_output_segment` changes the timers only. -/
theorem snd_tcpOutputSegment (s : Sender) (x : ℕ) :
    ∃ rtime rttest rtseq, (s.tcpOutputSegment env x).pcb.snd =
      { s.pcb.snd with rtime := rtime, rttest := rttest, rtseq := rtseq } := by
  unfold tcpOutputSegment Tcp.tcpOutputSegment tcpOutputAllocHeader
  dsimp only
  split
  · dsimp only
    split
    · exact ⟨_, _, _, rfl⟩
    · exact ⟨_, s.pcb.snd.rttest, s.pcb.snd.rtseq, rfl⟩
  · exact ⟨_, s.pcb.snd.rttest, s.pcb.snd.rtseq, rfl⟩

/-- Segments that agree but for the ACK flag agree in their place and their length. -/
theorem seqno_eq_of_noAck (h : ∀ x, (s'.seg x).noAck = (s.seg x).noAck) : s'.seqno = s.seqno := by
  funext x
  have hx := congrArg Seg.seqno (h x)
  exact hx

/-- The lengths do not depend on it. -/
theorem len_eq_of_noAck (h : ∀ x, (s'.seg x).noAck = (s.seg x).noAck) : s'.len = s.len := by
  funext x
  have hx := congrArg (fun seg => u32 (Seg.len seg)) (h x)
  exact hx

/-- Nor do the sequence numbers that a segment takes. -/
theorem seqLen_eq_of_noAck (h : ∀ x, (s'.seg x).noAck = (s.seg x).noAck) : s'.seqLen = s.seqLen := by
  funext x
  have hx := congrArg Seg.seqLen (h x)
  exact hx

/-- `transmit` leaves the links and the other queue alone. -/
theorem transmit_frame (s : Sender) :
    (s.transmit env).next = s.next ∧ (s.transmit env).unacked = s.unacked ∧
      (s.transmit env).unsent = s.next s.unsent ∧ (s.transmit env).freed = s.freed := by
  unfold transmit tcpOutputSegment setAck
  dsimp only
  split <;> exact ⟨rfl, rfl, rfl, rfl⟩

/-- Transmitting a segment sets its ACK flag only. -/
theorem noAck_transmit (s : Sender) (y : ℕ) : ((s.transmit env).seg y).noAck = (s.seg y).noAck :=
  noAck_setAck { s with unsent := s.next s.unsent } s.unsent y

/-- `transmit` records the segment and takes its end into `snd_nxt`. -/
theorem snd_transmit (s : Sender) :
    (s.transmit env).sent = s.sent ++ [s.unsent] ∧
      ∃ rtime rttest rtseq, (s.transmit env).pcb.snd =
        { s.pcb.snd with
          rtime := rtime, rttest := rttest, rtseq := rtseq
          sndNxt := seqMax s.pcb.snd.sndNxt (s.seqno s.unsent + s.seqLen s.unsent) } := by
  have hseg := noAck_setAck { s with unsent := s.next s.unsent } s.unsent
  have hsnd := snd_setAck { s with unsent := s.next s.unsent } s.unsent
  have hend : seqno ((setAck s.unsent { s with unsent := s.next s.unsent }).tcpOutputSegment env s.unsent) s.unsent +
      seqLen ((setAck s.unsent { s with unsent := s.next s.unsent }).tcpOutputSegment env s.unsent) s.unsent =
        s.seqno s.unsent + s.seqLen s.unsent :=
    congrArg₂ (· + ·) (congrFun (seqno_eq_of_noAck (s := s) hseg) s.unsent)
      (congrFun (seqLen_eq_of_noAck (s := s) hseg) s.unsent)
  obtain ⟨rtime, rttest, rtseq, hout⟩ :=
    snd_tcpOutputSegment env (setAck s.unsent { s with unsent := s.next s.unsent }) s.unsent
  refine ⟨?_, rtime, rttest, rtseq, ?_⟩
  · unfold transmit tcpOutputSegment setAck
    dsimp only
    split <;> rfl
  · unfold transmit
    dsimp only
    rw [hend, hout, hsnd]

end Sender

end BareMetal.Tcp
