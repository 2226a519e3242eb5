import BareMetal.Tcp.Output
import Mathlib.Algebra.Group.Nat.Defs

/-! # Receiving

`tcp_receive` of `tcp_in.c`: the acknowledgement first, then the text of the segment. Text that is next in
sequence is taken, together with what waited for it on `ooseq`; text further on is put on `ooseq`; both end
at the receive window. -/

namespace BareMetal.Tcp

/-- An incoming segment behind its IP header. -/
structure InSeg where
  seqno : UInt32
  ackno : UInt32
  flags : HdrFlags
  wnd : UInt16
  /-- `TCPH_HDRLEN`, in words. -/
  hdrlen : ℕ
  /-- The bytes behind the fixed part of the header. -/
  opts : List UInt8
  /-- The data. -/
  p : Chain
  /-- The data fit into an IP packet behind the two headers. -/
  fits : p.totLen + 40 < 2 ^ 16

/-- `inseg`. -/
def InSeg.seg (i : InSeg) : Seg := ⟨i.seqno, i.flags, UInt16.ofNat i.p.totLen, i.p⟩

/-- `tcplen`. -/
def InSeg.tcplen (i : InSeg) : UInt16 := i.seg.tcpLen

variable (c : Config) (ticks : UInt32)

/-! ## The acknowledgement -/

/-- Drop the segments at the front that `acks` says are acknowledged; with `acked` and `snd_queuelen`. -/
def removeAcked (acks : Seg → Bool) : List Seg → UInt16 → UInt16 → List Seg × UInt16 × UInt16
  | [], acked, queuelen => ([], acked, queuelen)
  | next :: segs, acked, queuelen =>
      if acks next then
        -- the ACK for a FIN does not count as a sent event
        removeAcked acks segs (if acked ≠ 0 ∧ next.flags.fin = true then acked - 1 else acked)
          (queuelen - UInt16.ofNat next.p.length)
      else (next :: segs, acked, queuelen)

/-- The window update of `tcp_receive`. -/
def updateSndWnd (i : InSeg) (pcb : Pcb) : Pcb :=
  if seqLt pcb.snd.sndWl1 i.seqno ∨
      pcb.snd.sndWl1 = i.seqno ∧ seqLt pcb.snd.sndWl2 i.ackno = true ∨
      pcb.snd.sndWl2 = i.ackno ∧ pcb.snd.sndWnd < i.wnd then
    let pcb := { pcb with snd :=
      { pcb.snd with
        sndWnd := i.wnd
        sndWndMax := max pcb.snd.sndWndMax i.wnd
        sndWl1 := i.seqno
        sndWl2 := i.ackno } }
    if i.wnd = 0 then
      if pcb.persistBackoff = 0 then { pcb with persistCnt := 0, persistBackoff := 1 } else pcb
    else { pcb with persistBackoff := 0 }
  else pcb

/-- Count one up, and stay at the largest value. -/
def countUp (n : UInt8) : UInt8 := if n < n + 1 then n + 1 else n

/-- A duplicate acknowledgement. -/
def dupAck (pcb : Pcb) : Pcb :=
  let dupacks := countUp pcb.snd.dupacks
  let pcb := { pcb with snd := { pcb.snd with dupacks := dupacks } }
  if 3 < dupacks then
    if pcb.snd.cwnd < pcb.snd.cwnd + pcb.mss then
      { pcb with snd := { pcb.snd with cwnd := pcb.snd.cwnd + pcb.mss } }
    else pcb
  else if dupacks = 3 then tcpRexmitFast pcb
  else pcb

/-- The congestion window after new data were acknowledged. -/
def growCwnd (pcb : Pcb) : UInt16 :=
  let cwnd := pcb.snd.cwnd
  let grown := if cwnd < pcb.snd.ssthresh then cwnd + pcb.mss
    else UInt16.ofNat (cwnd.toNat + pcb.mss.toNat * pcb.mss.toNat / cwnd.toNat)
  if pcb.state.geEstablished ∧ cwnd < grown then grown else cwnd

/-- An acknowledgement of new data. -/
def newAck (ackno : UInt32) (pcb : Pcb) : Pcb :=
  let pcb := if pcb.flags.infr then
      { pcb with
        flags := { pcb.flags with infr := false }
        snd := { pcb.snd with cwnd := pcb.snd.ssthresh } }
    else pcb
  let acked := (ackno - pcb.snd.lastack).toUInt16
  let cwnd := growCwnd pcb
  let (unacked, acked', queuelen) :=
    removeAcked (fun s => seqLeq (s.seqno + u32 s.tcpLen) ackno) pcb.snd.unacked acked pcb.snd.sndQueuelen
  { pcb with
    polltmr := 0
    snd :=
    { pcb.snd with
      nrtx := 0
      rto := (pcb.snd.sa >>> 3) + pcb.snd.sv
      sndBuf := pcb.snd.sndBuf + acked
      dupacks := 0
      lastack := ackno
      cwnd := cwnd
      unacked := unacked
      acked := acked'
      sndQueuelen := queuelen
      rtime := if unacked.isEmpty then -1 else 0 } }

/-- Remove what is acknowledged from `unsent`: segments that were queued for a retransmission. -/
def ackUnsent (ackno : UInt32) (pcb : Pcb) : Pcb :=
  let (unsent, acked, queuelen) :=
    removeAcked (fun s => seqBetween ackno (s.seqno + u32 s.tcpLen) pcb.snd.sndNxt) pcb.snd.unsent
      pcb.snd.acked pcb.snd.sndQueuelen
  { pcb with snd := { pcb.snd with unsent := unsent, acked := acked, sndQueuelen := queuelen } }

/-- The estimate of the round-trip time. -/
def estimateRtt (ackno : UInt32) (pcb : Pcb) : Pcb :=
  if pcb.snd.rttest ≠ 0 ∧ seqLt pcb.snd.rtseq ackno = true then
    let m : Int16 := (ticks - pcb.snd.rttest).toUInt16.toInt16 - (pcb.snd.sa >>> 3)
    let sa := pcb.snd.sa + m
    let m := if m < 0 then -m else m
    let sv := pcb.snd.sv + (m - (pcb.snd.sv >>> 2))
    { pcb with snd := { pcb.snd with sa := sa, sv := sv, rto := (sa >>> 3) + sv, rttest := 0 } }
  else pcb

/-- The part of `tcp_receive` for a segment with `TCP_ACK`. -/
def receiveAck (i : InSeg) (pcb : Pcb) : Pcb :=
  let rightWndEdge := u32 pcb.snd.sndWnd + pcb.snd.sndWl2
  let pcb := updateSndWnd i pcb
  let pcb :=
    if seqLeq i.ackno pcb.snd.lastack then
      let pcb := { pcb with snd := { pcb.snd with acked := 0 } }
      if i.tcplen = 0 ∧ pcb.snd.sndWl2 + u32 pcb.snd.sndWnd = rightWndEdge ∧ 0 ≤ pcb.snd.rtime ∧
          pcb.snd.lastack = i.ackno then
        dupAck pcb
      else { pcb with snd := { pcb.snd with dupacks := 0 } }
    else if seqBetween i.ackno (pcb.snd.lastack + 1) pcb.snd.sndNxt then newAck i.ackno pcb
    else { pcb with snd := { pcb.snd with acked := 0 } }
  estimateRtt ticks i.ackno (ackUnsent i.ackno pcb)

/-! ## The text -/

/-- What `tcp_receive` leaves: the control block, `TF_GOT_FIN`, and `recv_data`. -/
structure Received where
  pcb : Pcb
  gotFin : Bool
  recvData : Option Chain

/-- Cut a segment to `len` bytes. -/
def Seg.cut (seg : Seg) (len : UInt16) : Seg :=
  { seg with
    len := len
    p := if len.toNat < seg.p.totLen then pbufRealloc seg.p len.toNat else seg.p }

/-- Trim the front of a segment that starts before `rcv_nxt` and reaches beyond it. -/
def trimFront (rcvNxt : UInt32) (seg : Seg) : Seg :=
  let off := rcvNxt - seg.seqno
  { seg with seqno := rcvNxt, len := seg.len - off.toUInt16, p := pbufHide seg.p off.toNat }

/-- Trim the end of the next segment in sequence to the window; a FIN behind the window is dropped. -/
def trimToWnd (rcvWnd : UInt16) (seg : Seg) : Seg :=
  if rcvWnd < seg.tcpLen then
    let seg := { seg with flags := { seg.flags with fin := false } }
    seg.cut (if seg.flags.syn then rcvWnd - 1 else rcvWnd)
  else seg

/-- Drop from `ooseq` what `seg` covers; a FIN that is dropped goes to `seg`. -/
def dropCovered (seg : Seg) : List Seg → Seg × List Seg
  | [] => (seg, [])
  | next :: rest =>
      if seqGeq (seg.seqno + u32 seg.tcpLen) (next.seqno + u32 next.len) then
        dropCovered (if next.flags.fin && !seg.flags.syn then
          { seg with flags := { seg.flags with fin := true } } else seg) rest
      else (seg, next :: rest)

/-- Adjust `ooseq` to the next segment in sequence, and that segment to what stays on `ooseq`. -/
def adjustOoseq (seg : Seg) (ooseq : List Seg) : Seg × List Seg :=
  if seg.flags.fin then (seg, [])
  else
    let (seg, ooseq) := dropCovered seg ooseq
    match ooseq with
    | [] => (seg, [])
    | next :: rest =>
        if seqGt (seg.seqno + u32 seg.tcpLen) next.seqno then
          let len := (next.seqno - seg.seqno).toUInt16
          (seg.cut (if seg.flags.syn then len - 1 else len), next :: rest)
        else (seg, next :: rest)

/-- Put `len` sequence numbers behind `rcv_nxt`. -/
def advance (len : UInt16) (pcb : Pcb) : Pcb :=
  (tcpUpdateRcvAnnWnd c { pcb with rcv :=
    { pcb.rcv with rcvNxt := pcb.rcv.rcvNxt + u32 len, rcvWnd := pcb.rcv.rcvWnd - len } }).2

/-- `pbuf_cat` on the data for the application, when there are any. -/
def catData (recvData : Option Chain) (p : Chain) : Option Chain :=
  if 0 < p.totLen then some (recvData.getD [] ++ p) else recvData

/-- The loop of `tcp_receive` that takes the segments of `ooseq` that are now in sequence. -/
def takeOoseq : List Seg → Received → Received
  | [], r => { r with pcb := { r.pcb with ooseq := [] } }
  | cseg :: rest, r =>
      if cseg.seqno = r.pcb.rcv.rcvNxt then
        let pcb := advance c cseg.tcpLen r.pcb
        takeOoseq rest
          { pcb := if cseg.flags.fin ∧ pcb.state = .established then { pcb with state := .closeWait } else pcb
            gotFin := r.gotFin || cseg.flags.fin
            recvData := catData r.recvData cseg.p }
      else { r with pcb := { r.pcb with ooseq := cseg :: rest } }

/-- The next segment in sequence. -/
def receiveInOrder (seg : Seg) (pcb : Pcb) : Received :=
  let seg := trimToWnd pcb.rcv.rcvWnd seg
  let (seg, ooseq) := adjustOoseq seg pcb.ooseq
  let r := takeOoseq c ooseq ⟨advance c seg.tcpLen pcb, seg.flags.fin, catData none seg.p⟩
  { r with pcb := tcpAck r.pcb }

/-- The loop of `tcp_oos_insert_segment`, and the trimming behind it. -/
def insertCovering (cseg : Seg) : List Seg → List Seg
  | [] => [cseg]
  | next :: rest =>
      if seqGeq (cseg.seqno + u32 cseg.len) (next.seqno + u32 next.len) then
        insertCovering (if next.flags.fin then { cseg with flags := { cseg.flags with fin := true } } else cseg)
          rest
      else
        (if seqGt (cseg.seqno + u32 cseg.len) next.seqno then cseg.cut (next.seqno - cseg.seqno).toUInt16
          else cseg) :: next :: rest

/-- `tcp_oos_insert_segment`: the segments that `cseg` covers are dropped, and its end is trimmed. -/
def tcpOosInsertSegment (cseg : Seg) (next : List Seg) : List Seg :=
  if cseg.flags.fin then [cseg] else insertCovering cseg next

/-- Trim the end of a segment that reaches beyond `seqno`. -/
def trimBefore (seqno : UInt32) (seg : Seg) : Seg :=
  if seqGt (seg.seqno + u32 seg.len) seqno then seg.cut (seqno - seg.seqno).toUInt16 else seg

/-- Trim a segment behind the end of `ooseq` to the window. -/
def trimOverrun (rcv : Rcv) (seg : Seg) : Seg :=
  let rightEdge := rcv.rcvNxt + u32 rcv.rcvWnd
  if rightEdge < u32 seg.tcpLen + seg.seqno then
    { seg with flags := { seg.flags with fin := false } }.cut (rightEdge - seg.seqno).toUInt16
  else seg

/-- The walk over `ooseq` that queues a segment, from the segment `next` on; `prev` is the one before. -/
def queueOoseq (rcv : Rcv) (copied : Bool) (seg : Seg) : Option Seg → List Seg → List Seg
  | prev, [] => prev.toList
  | prev, next :: rest =>
      if seg.seqno = next.seqno then
        -- of two segments with one sequence number the longer one stays
        prev.toList ++ if next.len < seg.len ∧ copied then tcpOosInsertSegment seg (next :: rest) else next :: rest
      else
        let fits := match prev with
          | none => seqLt seg.seqno next.seqno
          | some prev => seqBetween seg.seqno (prev.seqno + 1) (next.seqno - 1)
        if fits then
          if copied then
            (prev.map (trimBefore seg.seqno)).toList ++ tcpOosInsertSegment seg (next :: rest)
          else prev.toList ++ next :: rest
        else if rest.isEmpty ∧ seqGt seg.seqno next.seqno then
          -- behind the last segment, unless that one ends the stream
          if next.flags.fin = false ∧ copied = true then
            prev.toList ++ [trimBefore seg.seqno next, trimOverrun rcv seg]
          else prev.toList ++ [next]
        else prev.toList ++ queueOoseq rcv copied seg (some next) rest

/-- A segment out of sequence. -/
def receiveOutOfOrder (ackAlloc copied : Bool) (seg : Seg) (pcb : Pcb) : Received :=
  let pcb := tcpSendEmptyAck ackAlloc pcb
  let ooseq := if pcb.ooseq.isEmpty then if copied then [seg] else []
    else queueOoseq pcb.rcv copied seg none pcb.ooseq
  ⟨{ pcb with ooseq := ooseq }, false, none⟩

/-- The part of `tcp_receive` for the text of a segment. -/
def receiveText (ackAlloc copied : Bool) (i : InSeg) (pcb : Pcb) : Received :=
  let seg := i.seg
  if 0 < i.tcplen ∧ pcb.state.ltCloseWait then
    let front := seqBetween pcb.rcv.rcvNxt (seg.seqno + 1) (seg.seqno + u32 i.tcplen - 1)
    let pcb := if front = false ∧ seqLt seg.seqno pcb.rcv.rcvNxt = true then tcpAckNow pcb else pcb
    let seg := if front then trimFront pcb.rcv.rcvNxt seg else seg
    if seqBetween seg.seqno pcb.rcv.rcvNxt (pcb.rcv.rcvNxt + u32 pcb.rcv.rcvWnd - 1) then
      if pcb.rcv.rcvNxt = seg.seqno then receiveInOrder c seg pcb
      else receiveOutOfOrder ackAlloc copied seg pcb
    else ⟨tcpSendEmptyAck ackAlloc pcb, false, none⟩
  else
    if seqBetween seg.seqno pcb.rcv.rcvNxt (pcb.rcv.rcvNxt + u32 pcb.rcv.rcvWnd - 1) then ⟨pcb, false, none⟩
    else ⟨tcpAckNow pcb, false, none⟩

/-- `tcp_receive`. -/
def tcpReceive (ackAlloc copied : Bool) (i : InSeg) (pcb : Pcb) : Received :=
  receiveText c ackAlloc copied i (if i.flags.ack then receiveAck ticks i pcb else pcb)

/-! ## What receiving leaves alone -/

/-- The window of the other end is the sender's. -/
theorem view_updateSndWnd (i : InSeg) (pcb : Pcb) : (updateSndWnd i pcb).view = pcb.view := by
  unfold updateSndWnd
  dsimp only
  split
  · split
    · split <;> rfl
    · rfl
  · rfl

/-- A duplicate ACK is counted, and the third one starts fast retransmit. -/
theorem view_dupAck (pcb : Pcb) : (dupAck pcb).view = pcb.view := by
  unfold dupAck
  dsimp only
  split
  · split <;> rfl
  · split
    · exact view_tcpRexmitFast _
    · rfl

/-- A new ACK starts the poll timer again; the rest of it is the sender's. -/
theorem view_newAck (ackno : UInt32) (pcb : Pcb) :
    (newAck ackno pcb).view = { pcb.view with polltmr := 0 } := by
  by_cases h : pcb.flags.infr = true
  · simp [newAck, h, Pcb.view]
  · simp [newAck, h, Pcb.view]

/-- Acknowledged segments leave the queue `unsent`. -/
theorem view_ackUnsent (ackno : UInt32) (pcb : Pcb) : (ackUnsent ackno pcb).view = pcb.view := rfl

/-- The round-trip time is the sender's. -/
theorem view_estimateRtt (ackno : UInt32) (pcb : Pcb) : (estimateRtt ticks ackno pcb).view = pcb.view := by
  unfold estimateRtt
  dsimp only
  split <;> rfl

/-- New data that are acknowledged start the poll timer again. -/
theorem view_receiveAck (i : InSeg) (pcb : Pcb) :
    ∃ n, (n = pcb.polltmr ∨ n = 0) ∧ (receiveAck ticks i pcb).view = { pcb.view with polltmr := n } := by
  unfold receiveAck
  dsimp only
  rw [view_estimateRtt, view_ackUnsent]
  split
  · refine ⟨pcb.polltmr, .inl rfl, ?_⟩
    split
    · rw [view_dupAck]
      exact view_updateSndWnd i pcb
    · exact view_updateSndWnd i pcb
  · split
    · refine ⟨0, .inr rfl, ?_⟩
      rw [view_newAck, view_updateSndWnd]
    · exact ⟨pcb.polltmr, .inl rfl, view_updateSndWnd i pcb⟩

/-- Data in sequence moves `rcv_nxt` and shrinks the window by its length. -/
theorem view_advance (len : UInt16) (pcb : Pcb) : (advance c len pcb).view =
    { pcb.view with rcvNxt := pcb.rcv.rcvNxt + u32 len, rcvWnd := pcb.rcv.rcvWnd - len } :=
  view_tcpUpdateRcvAnnWnd c _

/-- What the application set up on the block stays. -/
structure KeepsApp (pcb pcb' : Pcb) : Prop where
  cb : pcb'.cb = pcb.cb
  rxClosed : pcb'.flags.rxClosed = pcb.flags.rxClosed
  refusedData : pcb'.refusedData = pcb.refusedData

/-- The state stays, but for a FIN that was out of sequence and ends the stream now. -/
def StateOrFin (pcb : Pcb) (r : Received) : Prop :=
  r.pcb.state = pcb.state ∨ pcb.state = .established ∧ r.pcb.state = .closeWait ∧ r.gotFin = true

variable {pcb pcb' pcb'' : Pcb}

/-- Equal views have the same callbacks and refused data. -/
theorem KeepsApp.of_view (h : pcb'.view = pcb.view) : KeepsApp pcb pcb' :=
  ⟨congrArg View.cb h, congrArg View.rxClosed h, congrArg View.refusedData h⟩

/-- What two parts keep, both of them keep. -/
theorem KeepsApp.trans (h : KeepsApp pcb pcb') (h' : KeepsApp pcb' pcb'') : KeepsApp pcb pcb'' :=
  ⟨h'.cb.trans h.cb, h'.rxClosed.trans h.rxClosed, h'.refusedData.trans h.refusedData⟩

/-- Receiving data sets no callback. -/
theorem keepsApp_advance (len : UInt16) (pcb : Pcb) : KeepsApp pcb (advance c len pcb) :=
  ⟨congrArg View.cb (view_advance c len pcb), congrArg View.rxClosed (view_advance c len pcb),
    congrArg View.refusedData (view_advance c len pcb)⟩

/-- Receiving data does not change the state. -/
theorem state_advance (len : UInt16) (pcb : Pcb) : (advance c len pcb).state = pcb.state :=
  congrArg View.state (view_advance c len pcb)

/-- The loop over `ooseq`: a FIN on the way closes the other side, and is not forgotten. -/
theorem takeOoseq_spec (ooseq : List Seg) (r : Received) :
    KeepsApp r.pcb (takeOoseq c ooseq r).pcb ∧ StateOrFin r.pcb (takeOoseq c ooseq r) ∧
      (r.gotFin = true → (takeOoseq c ooseq r).gotFin = true) := by
  induction ooseq generalizing r with
  | nil => exact ⟨⟨rfl, rfl, rfl⟩, Or.inl rfl, id⟩
  | cons cseg rest ih =>
      unfold takeOoseq
      by_cases hnext : cseg.seqno = r.pcb.rcv.rcvNxt
      · rw [if_pos hnext]
        dsimp only
        have hadv := keepsApp_advance c cseg.tcpLen r.pcb
        have hstate := state_advance c cseg.tcpLen r.pcb
        set pcb := advance c cseg.tcpLen r.pcb
        by_cases hfin : cseg.flags.fin = true ∧ pcb.state = .established
        · -- the FIN moves the connection to `CLOSE_WAIT`, where it stays
          rw [if_pos hfin]
          obtain ⟨hkeep, hor, hgot⟩ := ih ⟨{ pcb with state := .closeWait }, r.gotFin || cseg.flags.fin,
            catData r.recvData cseg.p⟩
          have hgot' := hgot (by simp [hfin.1])
          refine ⟨hadv.trans ⟨hkeep.cb, hkeep.rxClosed, hkeep.refusedData⟩, Or.inr ?_, fun _ => hgot'⟩
          refine ⟨hstate.symm.trans hfin.2, ?_, hgot'⟩
          rcases hor with h | ⟨h, -⟩
          · exact h
          · cases h
        · rw [if_neg hfin]
          obtain ⟨hkeep, hor, hgot⟩ := ih ⟨pcb, r.gotFin || cseg.flags.fin, catData r.recvData cseg.p⟩
          refine ⟨hadv.trans hkeep, ?_, fun h => hgot (by simp [h])⟩
          rcases hor with h | ⟨h, h', h''⟩
          · exact Or.inl (h.trans hstate)
          · exact Or.inr ⟨hstate.symm.trans h, h', h''⟩
      · rw [if_neg hnext]
        exact ⟨⟨rfl, rfl, rfl⟩, Or.inl rfl, id⟩

/-- A segment in sequence, with what it makes contiguous on `ooseq`. -/
theorem receiveInOrder_spec (seg : Seg) (pcb : Pcb) :
    KeepsApp pcb (receiveInOrder c seg pcb).pcb ∧ StateOrFin pcb (receiveInOrder c seg pcb) := by
  unfold receiveInOrder
  set seg₁ := (adjustOoseq (trimToWnd pcb.rcv.rcvWnd seg) pcb.ooseq).1
  obtain ⟨hkeep, hor, -⟩ := takeOoseq_spec c (adjustOoseq (trimToWnd pcb.rcv.rcvWnd seg) pcb.ooseq).2
    ⟨advance c seg₁.tcpLen pcb, seg₁.flags.fin, catData none seg₁.p⟩
  have hadv := keepsApp_advance c seg₁.tcpLen pcb
  have hstate := state_advance c seg₁.tcpLen pcb
  have hack := view_tcpAck (takeOoseq c (adjustOoseq (trimToWnd pcb.rcv.rcvWnd seg) pcb.ooseq).2
    ⟨advance c seg₁.tcpLen pcb, seg₁.flags.fin, catData none seg₁.p⟩).pcb
  refine ⟨(hadv.trans hkeep).trans (KeepsApp.of_view hack), ?_⟩
  rcases hor with h | ⟨h, h', h''⟩
  · exact Or.inl ((congrArg View.state hack).trans (h.trans hstate))
  · exact Or.inr ⟨hstate.symm.trans h, (congrArg View.state hack).trans h', h''⟩

/-- What `tcp_receive` does to a block: the application's part stays, and when the other end has already
closed its side there are neither data nor a FIN. -/
structure ReceivedFrom (pcb : Pcb) (r : Received) : Prop where
  keeps : KeepsApp pcb r.pcb
  state : StateOrFin pcb r
  none_of_closed : pcb.state.ltCloseWait = false → r.gotFin = false ∧ r.recvData = none

/-- What happened before `tcp_receive` does not count when it left the view alone. -/
theorem ReceivedFrom.of_view {r : Received} (hview : pcb'.view = pcb.view) (h : ReceivedFrom pcb' r) :
    ReceivedFrom pcb r := by
  have hstate : pcb'.state = pcb.state := congrArg View.state hview
  refine ⟨(KeepsApp.of_view hview).trans h.keeps, ?_, fun hclosed => h.none_of_closed (by rw [hstate, hclosed])⟩
  have hor := h.state
  unfold StateOrFin at hor ⊢
  rwa [hstate] at hor

/-- Nothing is received where only the sender's part changes. -/
theorem receivedFrom_view (hview : pcb'.view = pcb.view) : ReceivedFrom pcb ⟨pcb', false, none⟩ :=
  ⟨KeepsApp.of_view hview, Or.inl (congrArg View.state hview), fun _ => ⟨rfl, rfl⟩⟩

/-- A segment behind a hole is queued at most; nothing is handed on. -/
theorem receiveOutOfOrder_spec (ackAlloc copied : Bool) (seg : Seg) (pcb : Pcb) :
    ReceivedFrom pcb (receiveOutOfOrder ackAlloc copied seg pcb) := by
  have hview := view_tcpSendEmptyAck ackAlloc pcb
  have hkeep := KeepsApp.of_view hview
  exact ⟨⟨hkeep.cb, hkeep.rxClosed, hkeep.refusedData⟩, Or.inl (congrArg View.state hview),
    fun _ => ⟨rfl, rfl⟩⟩

/-- **The text of a segment**, in sequence or not. -/
theorem receiveText_spec (ackAlloc copied : Bool) (i : InSeg) (pcb : Pcb) :
    ReceivedFrom pcb (receiveText c ackAlloc copied i pcb) := by
  unfold receiveText
  dsimp only
  by_cases htext : 0 < i.tcplen ∧ pcb.state.ltCloseWait = true
  · rw [if_pos htext]
    set pcb₁ := if seqBetween pcb.rcv.rcvNxt (i.seg.seqno + 1) (i.seg.seqno + u32 i.tcplen - 1) = false ∧
      seqLt i.seg.seqno pcb.rcv.rcvNxt = true then tcpAckNow pcb else pcb with hpcb₁
    have hview : pcb₁.view = pcb.view := by
      rw [hpcb₁]
      split <;> rfl
    have hstate : pcb₁.state = pcb.state := congrArg View.state hview
    apply ReceivedFrom.of_view hview
    generalize (if seqBetween pcb.rcv.rcvNxt (i.seg.seqno + 1) (i.seg.seqno + u32 i.tcplen - 1) = true then
      trimFront pcb₁.rcv.rcvNxt i.seg else i.seg) = seg
    split
    · split
      · have hspec := receiveInOrder_spec c seg pcb₁
        -- a block whose other end has closed does not come here
        refine ⟨hspec.1, hspec.2, fun hclosed => ?_⟩
        rw [hstate, htext.2] at hclosed
        cases hclosed
      · exact receiveOutOfOrder_spec ackAlloc copied seg pcb₁
    · exact receivedFrom_view (view_tcpSendEmptyAck ackAlloc pcb₁)
  · rw [if_neg htext]
    split
    · exact receivedFrom_view rfl
    · exact receivedFrom_view rfl

/-- **`tcp_receive`.** The ACK part leaves the receiver alone, so only the text part counts. -/
theorem tcpReceive_spec (ackAlloc copied : Bool) (i : InSeg) (pcb : Pcb) :
    ReceivedFrom pcb (tcpReceive c ticks ackAlloc copied i pcb) := by
  unfold tcpReceive
  split
  · obtain ⟨n, -, hview⟩ := view_receiveAck ticks i pcb
    have htext := receiveText_spec c ackAlloc copied i (receiveAck ticks i pcb)
    have hstate : (receiveAck ticks i pcb).state = pcb.state := congrArg View.state hview
    have hkeep : KeepsApp pcb (receiveAck ticks i pcb) :=
      ⟨congrArg View.cb hview, congrArg View.rxClosed hview, congrArg View.refusedData hview⟩
    refine ⟨hkeep.trans htext.keeps, ?_, fun hclosed => htext.none_of_closed (by rw [hstate, hclosed])⟩
    have hor := htext.state
    unfold StateOrFin at hor ⊢
    rwa [hstate] at hor
  · exact receiveText_spec c ackAlloc copied i pcb

end BareMetal.Tcp
