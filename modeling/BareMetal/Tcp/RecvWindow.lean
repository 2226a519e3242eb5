import Mathlib.Data.List.Infix
import BareMetal.Tcp.Ownership

/-! # The receive window

`tcp_receive` takes what it receives out of `rcv_wnd`, and only `tcp_recved` puts it back. `app_tcp_recv` does
not call `tcp_recved`, so the first data that a connection receives in order are missing from the window
behind the callback, and behind every later one. -/

namespace BareMetal.Tcp

variable {c : Config} {m : Mem} {i : InSeg} {ph : Phase} {conn conn' : Conn}

/-! ## Data in order -/

/-- The length of a chain is the sum over its pbufs. -/
theorem totLen_cons (q : List UInt8) (qs : Chain) : Chain.totLen (q :: qs) = q.length + Chain.totLen qs := by
  unfold Chain.totLen
  rw [List.flatten_cons, List.length_append]

/-- `pbuf_realloc` cuts a chain to the length asked for, and never makes it longer. -/
theorem totLen_pbufRealloc (p : Chain) (n : ℕ) : (pbufRealloc p n).totLen = min n p.totLen := by
  induction p generalizing n with
  | nil =>
      have hnil : Chain.totLen [] = 0 := rfl
      unfold pbufRealloc
      rw [hnil, Nat.min_zero]
  | cons q qs ih =>
      unfold pbufRealloc
      rw [totLen_cons]
      split
      · rw [totLen_cons, ih]
        omega
      · have hone : Chain.totLen [q.take n] = (q.take n).length := by
          rw [totLen_cons]
          rfl
        rw [hone, List.length_take]
        omega

/-- A segment without SYN whose `len` is the length of its data, with room for a FIN. -/
structure Seg.Plain (seg : Seg) : Prop where
  len : seg.len.toNat = seg.p.totLen
  room : seg.p.totLen + 1 < 2 ^ 16
  noSyn : seg.flags.syn = false

variable {seg : Seg} {wnd : UInt16}

/-- The length of a plain segment is that of its data, and one more for a FIN. -/
theorem Seg.Plain.toNat_tcpLen (h : seg.Plain) :
    seg.tcpLen.toNat = seg.p.totLen + if seg.flags.fin then 1 else 0 := by
  have hroom := h.room
  unfold Seg.tcpLen
  rw [h.noSyn, Bool.or_false, UInt16.toNat_add, h.len]
  split
  · exact Nat.mod_eq_of_lt hroom
  · show (seg.p.totLen + 0) % 2 ^ 16 = seg.p.totLen + 0
    exact Nat.mod_eq_of_lt (by omega)

/-- A segment without a SYN comes in as a plain one. -/
theorem InSeg.plain (i : InSeg) (hsyn : i.flags.syn = false) : i.seg.Plain := by
  have hfits := i.fits
  refine ⟨?_, ?_, hsyn⟩
  · show (UInt16.ofNat i.p.totLen).toNat = i.p.totLen
    rw [UInt16.toNat_ofNat']
    omega
  · show i.p.totLen + 1 < 2 ^ 16
    omega

/-- What is left of a segment in the window fits into it, and is not empty when the segment was not. -/
theorem Seg.Plain.trimToWnd (h : seg.Plain) (hwnd : 0 < wnd) :
    (trimToWnd wnd seg).Plain ∧ ((trimToWnd wnd seg).p.totLen = 0 ↔ seg.p.totLen = 0) ∧
      ((trimToWnd wnd seg).flags.fin = true → seg.flags.fin = true) := by
  have hpos : 0 < wnd.toNat := UInt16.lt_iff_toNat_lt.mp hwnd
  have hlen := h.toNat_tcpLen
  have hroom := h.room
  by_cases hlong : wnd < seg.tcpLen
  · have hlt : wnd.toNat < seg.tcpLen.toNat := UInt16.lt_iff_toNat_lt.mp hlong
    have hle : wnd.toNat ≤ seg.p.totLen := by split at hlen <;> omega
    have hcut : Tcp.trimToWnd wnd seg = { seg with
        flags := { seg.flags with fin := false }
        len := wnd
        p := if wnd.toNat < seg.p.totLen then pbufRealloc seg.p wnd.toNat else seg.p } := by
      unfold Tcp.trimToWnd Seg.cut
      rw [if_pos hlong]
      simp [h.noSyn]
    -- the data end at the window in both cases
    have hdata : (if wnd.toNat < seg.p.totLen then pbufRealloc seg.p wnd.toNat else seg.p).totLen
        = wnd.toNat := by
      split
      · rw [totLen_pbufRealloc]
        omega
      · omega
    rw [hcut]
    refine ⟨⟨hdata.symm, ?_, h.noSyn⟩, ?_, fun hfin => by cases hfin⟩
    · dsimp only
      omega
    · dsimp only
      omega
  · have hkeep : Tcp.trimToWnd wnd seg = seg := by
      unfold Tcp.trimToWnd
      rw [if_neg hlong]
    rw [hkeep]
    exact ⟨h, Iff.rfl, id⟩

/-- Nothing waits out of sequence, so nothing is cut. -/
theorem adjustOoseq_nil (seg : Seg) : adjustOoseq seg [] = (seg, []) := by
  unfold adjustOoseq dropCovered
  split <;> rfl

/-- The window shrinks by what is received. -/
theorem rcvWnd_advance (len : UInt16) (pcb : Pcb) :
    (advance c len pcb).rcv.rcvWnd = pcb.rcv.rcvWnd - len :=
  congrArg View.rcvWnd (view_advance c len pcb)

/-- What `tcp_receive` takes from a segment in order goes out of the window `wnd`. -/
structure TakenFrom (wnd : UInt16) (p : Chain) (r : Received) : Prop where
  ooseq : r.pcb.ooseq = []
  data : r.recvData = none ↔ p.totLen = 0
  rcvWnd : r.pcb.rcv.rcvWnd = wnd - (if r.gotFin then 1 else 0) ↔ p.totLen = 0

/-- A segment in sequence is taken up to the end of the window. -/
theorem takenFrom_receiveInOrder {pcb : Pcb} (h : seg.Plain) (hooseq : pcb.ooseq = [])
    (hwnd : 0 < pcb.rcv.rcvWnd) :
    TakenFrom pcb.rcv.rcvWnd seg.p (receiveInOrder c seg pcb) := by
  obtain ⟨hplain, hempty, -⟩ := h.trimToWnd hwnd
  have hinOrder : receiveInOrder c seg pcb =
      { pcb := tcpAck { advance c (trimToWnd pcb.rcv.rcvWnd seg).tcpLen pcb with ooseq := [] }
        gotFin := (trimToWnd pcb.rcv.rcvWnd seg).flags.fin
        recvData := catData none (trimToWnd pcb.rcv.rcvWnd seg).p } := by
    unfold receiveInOrder
    dsimp only
    rw [hooseq, adjustOoseq_nil]
    rfl
  rw [hinOrder]
  generalize trimToWnd pcb.rcv.rcvWnd seg = seg' at hplain hempty
  have hlen := hplain.toNat_tcpLen
  have hview := view_tcpAck { advance c seg'.tcpLen pcb with ooseq := [] }
  have hrcv : (tcpAck { advance c seg'.tcpLen pcb with ooseq := [] }).rcv.rcvWnd
      = pcb.rcv.rcvWnd - seg'.tcpLen := (congrArg View.rcvWnd hview).trans (rcvWnd_advance _ _)
  refine ⟨congrArg View.ooseq hview, ?_, ?_⟩
  · show catData none seg'.p = none ↔ seg.p.totLen = 0
    rw [← hempty]
    unfold catData
    split
    · refine ⟨fun hnone => ?_, fun hzero => by omega⟩
      cases hnone
    · exact ⟨fun _ => by omega, fun _ => rfl⟩
  · show (tcpAck { advance c seg'.tcpLen pcb with ooseq := [] }).rcv.rcvWnd
      = pcb.rcv.rcvWnd - (if seg'.flags.fin then 1 else 0) ↔ seg.p.totLen = 0
    rw [hrcv, UInt16.sub_right_inj, ← UInt16.toNat_inj, hlen, ← hempty]
    split <;> simp

/-- A number is not between its successor and anything. -/
theorem seqBetween_succ (a b : UInt32) : seqBetween a (a + 1) b = false := by
  have hsub : a - (a + 1) = 0xFFFFFFFF := by grind
  have hlt : seqLt a (a + 1) = true := by
    unfold seqLt
    rw [hsub]
    decide
  unfold seqBetween seqGeq
  rw [hlt]
  rfl

/-- No number comes before itself. -/
theorem seqLt_self (a : UInt32) : seqLt a a = false := by
  unfold seqLt
  rw [UInt32.sub_self]
  decide

/-- A segment in order, when the window is open and nothing waits. -/
theorem takenFrom_receiveText {pcb : Pcb} (ackAlloc copied : Bool) (hsyn : i.flags.syn = false)
    (hseq : i.seqno = pcb.rcv.rcvNxt) (hooseq : pcb.ooseq = []) (hwnd : 0 < pcb.rcv.rcvWnd)
    (hstate : pcb.state.ltCloseWait = true) :
    TakenFrom pcb.rcv.rcvWnd i.p (receiveText c ackAlloc copied i pcb) := by
  have hplain := i.plain hsyn
  have hseg : i.seg.seqno = pcb.rcv.rcvNxt := hseq
  have hwindow := seqBetween_window_iff (a := pcb.rcv.rcvNxt).mpr hwnd
  unfold receiveText
  dsimp only
  rw [hstate, hseg, seqBetween_succ, seqLt_self]
  by_cases htext : 0 < i.tcplen
  · -- the front is not trimmed, and the segment is in the window
    rw [if_pos ⟨htext, rfl⟩]
    simp only [Bool.false_eq_true, and_false, if_false]
    rw [if_pos (by rw [hseg]; exact hwindow), if_pos hseg.symm]
    exact takenFrom_receiveInOrder hplain hooseq hwnd
  · rw [if_neg (fun hand => htext hand.1), if_pos hwindow]
    have hzero : i.tcplen.toNat = 0 := by
      have hnot : ¬(0 : UInt16).toNat < i.tcplen.toNat := fun hlt => htext (UInt16.lt_iff_toNat_lt.mpr hlt)
      have hz : (0 : UInt16).toNat = 0 := rfl
      omega
    have hlen : i.tcplen.toNat = i.p.totLen + if i.flags.fin then 1 else 0 := hplain.toNat_tcpLen
    have hempty : i.p.totLen = 0 := by omega
    refine ⟨hooseq, ⟨fun _ => hempty, fun _ => rfl⟩, ⟨fun _ => hempty, fun _ => ?_⟩⟩
    show pcb.rcv.rcvWnd = pcb.rcv.rcvWnd - 0
    exact (UInt16.sub_zero _).symm

/-- **`tcp_receive` in order**: a segment is taken up to the end of the window. -/
theorem takenFrom_tcpReceive {pcb : Pcb} (ticks : UInt32) (ackAlloc copied : Bool)
    (hsyn : i.flags.syn = false) (hseq : i.seqno = pcb.rcv.rcvNxt) (hooseq : pcb.ooseq = [])
    (hwnd : 0 < pcb.rcv.rcvWnd) (hstate : pcb.state.ltCloseWait = true) :
    TakenFrom pcb.rcv.rcvWnd i.p (tcpReceive c ticks ackAlloc copied i pcb) := by
  unfold tcpReceive
  split
  · obtain ⟨n, -, hview⟩ := view_receiveAck ticks i pcb
    have hrcvWnd : (receiveAck ticks i pcb).rcv.rcvWnd = pcb.rcv.rcvWnd := congrArg View.rcvWnd hview
    have hrcvNxt : (receiveAck ticks i pcb).rcv.rcvNxt = pcb.rcv.rcvNxt := congrArg View.rcvNxt hview
    have hstate' : (receiveAck ticks i pcb).state = pcb.state := congrArg View.state hview
    have htaken : TakenFrom (receiveAck ticks i pcb).rcv.rcvWnd i.p
        (receiveText c ackAlloc copied i (receiveAck ticks i pcb)) :=
      takenFrom_receiveText ackAlloc copied hsyn (by rw [hseq, hrcvNxt])
        ((congrArg View.ooseq hview).trans hooseq) (by rw [hrcvWnd]; exact hwnd) (by rw [hstate']; exact hstate)
    rw [hrcvWnd] at htaken
    exact htaken
  · exact takenFrom_receiveText ackAlloc copied hsyn hseq hooseq hwnd hstate

/-! ## `tcp_process` -/

/-- The connection takes data from the event: a segment with data comes, and the state and the window allow
them. -/
def takesText (conn : Conn) : Event → Bool
  | .segment i _ =>
      !i.flags.rst && 0 < i.p.totLen && 0 < conn.pcb.rcv.rcvWnd &&
        (conn.pcb.state == .established || conn.pcb.state == .synRcvd && i.flags.ack &&
          seqBetween i.ackno (conn.pcb.snd.lastack + 1) conn.pcb.snd.sndNxt)
  | _ => false

/-- A RST brings no data. -/
theorem takesText_rst (hrst : i.flags.rst = true) : takesText conn (.segment i m) = false := by
  unfold takesText
  dsimp only
  rw [hrst]
  rfl

/-- What `tcp_process` takes from a segment in order goes out of the window `wnd`; `takes` says that there
are data. -/
structure WindowFrom (takes : Bool) (wnd : UInt16) (r : Processed) : Prop where
  ooseq : r.conn.pcb.ooseq = []
  data : r.recvData = none ↔ takes = false
  rcvWnd : r.conn.pcb.rcv.rcvWnd = wnd - (if r.gotFin then 1 else 0) ↔ takes = false

/-- A segment that is not received leaves the window. -/
theorem WindowFrom.idle {takes : Bool} {r : Processed} (hooseq : r.conn.pcb.ooseq = [])
    (hrcvWnd : r.conn.pcb.rcv.rcvWnd = wnd) (hfin : r.gotFin = false) (hdata : r.recvData = none)
    (htakes : takes = false) : WindowFrom takes wnd r := by
  refine ⟨hooseq, ⟨fun _ => htakes, fun _ => hdata⟩, ⟨fun _ => htakes, fun _ => ?_⟩⟩
  rw [hfin, hrcvWnd]
  exact (UInt16.sub_zero _).symm

/-- What `tcp_process` does behind `tcp_receive` leaves the window. -/
theorem TakenFrom.windowFrom {takes : Bool} {p : Chain} {r : Received} {r' : Processed}
    (h : TakenFrom wnd p r) (hooseq : r'.conn.pcb.ooseq = r.pcb.ooseq)
    (hrcvWnd : r'.conn.pcb.rcv.rcvWnd = r.pcb.rcv.rcvWnd) (hfin : r'.gotFin = r.gotFin)
    (hdata : r'.recvData = r.recvData) (htakes : takes = false ↔ p.totLen = 0) : WindowFrom takes wnd r' := by
  refine ⟨hooseq.trans h.ooseq, ?_, ?_⟩
  · rw [hdata, h.data, htakes]
  · rw [hrcvWnd, hfin, h.rcvWnd, htakes]

/-- A connection that has not closed, with an open window and nothing out of order, and a segment for it that
is in order. -/
structure InOrderAt (i : InSeg) (conn : Conn) : Prop where
  noSyn : i.flags.syn = false
  seqno : i.seqno = conn.pcb.rcv.rcvNxt
  ooseq : conn.pcb.ooseq = []
  rcvWnd : 0 < conn.pcb.rcv.rcvWnd

/-- The next segment in order is taken from the window. -/
theorem InOrderAt.takenFrom (h : InOrderAt i conn) (hstate : conn.pcb.state.ltCloseWait = true) :
    TakenFrom conn.pcb.rcv.rcvWnd i.p (tcpReceive c conn.ticks m.ackAlloc m.copied i conn.pcb) :=
  takenFrom_tcpReceive _ _ _ h.noSyn h.seqno h.ooseq h.rcvWnd hstate

/-- No data are taken from a segment without any, or in a state that does not receive. -/
theorem InOrderAt.takesText_eq_false_iff (h : InOrderAt i conn) (hrst : i.flags.rst = false) :
    takesText conn (.segment i m) = false ↔ i.p.totLen = 0 ∨
      (conn.pcb.state == .established || conn.pcb.state == .synRcvd && i.flags.ack &&
        seqBetween i.ackno (conn.pcb.snd.lastack + 1) conn.pcb.snd.sndNxt) = false := by
  have hwnd := h.rcvWnd
  show (!i.flags.rst && decide (0 < i.p.totLen) && decide (0 < conn.pcb.rcv.rcvWnd) && _) = false ↔ _
  rw [hrst, decide_eq_true hwnd, Bool.not_false, Bool.true_and, Bool.and_true, Bool.and_eq_false_iff,
    decide_eq_false_iff_not, Nat.pos_iff_ne_zero, not_not]

/-- The ACK that ends the handshake may bring data. -/
theorem InOrderAt.processSynRcvd (h : InOrderAt i conn) (hstate : conn.pcb.state = .synRcvd)
    (hrst : i.flags.rst = false) :
    WindowFrom (takesText conn (.segment i m)) conn.pcb.rcv.rcvWnd (processSynRcvd c m i conn) := by
  have htakes := h.takesText_eq_false_iff (m := m) hrst
  rw [hstate] at htakes
  by_cases hack : i.flags.ack = true ∧ seqBetween i.ackno (conn.pcb.snd.lastack + 1) conn.pcb.snd.sndNxt = true
  · -- the connection is accepted, and the segment is received
    have haccepted : InOrderAt i
        (appTcpAccept m .ok (conn.onPcb fun pcb => { pcb with state := .established })).2.deref :=
      ⟨h.noSyn, h.seqno, h.ooseq, h.rcvWnd⟩
    have htaken := haccepted.takenFrom (c := c) (m := m) rfl
    unfold Tcp.processSynRcvd
    rw [if_pos hack.1, if_pos hack.2]
    dsimp only
    rw [if_neg (fun hne => hne rfl)]
    refine htaken.windowFrom ?_ ?_ rfl rfl ?_
    · split <;> rfl
    · split <;> rfl
    · rw [htakes, hack.1, hack.2]
      simp
  · have hidle : takesText conn (.segment i m) = false := by
      rw [htakes]
      right
      cases hflag : i.flags.ack
      · rfl
      · have hno := eq_false_of_ne_true fun hbetween => hack ⟨hflag, hbetween⟩
        rw [hno]
        rfl
    unfold Tcp.processSynRcvd
    split
    · rename_i hflag
      rw [if_neg fun hbetween => hack ⟨hflag, hbetween⟩]
      exact .idle h.ooseq rfl rfl rfl hidle
    · split
      · have hview := view_tcpRexmit conn.pcb
        exact .idle ((congrArg View.ooseq hview).trans h.ooseq) (congrArg View.rcvWnd hview) rfl rfl hidle
      · exact .idle h.ooseq rfl rfl rfl hidle

/-- Data on an open connection. -/
theorem InOrderAt.processSynchronized (h : InOrderAt i conn) (hstate : conn.pcb.state = .established)
    (hrst : i.flags.rst = false) :
    WindowFrom (takesText conn (.segment i m)) conn.pcb.rcv.rcvWnd (processSynchronized c m i conn) := by
  have htakes := h.takesText_eq_false_iff (m := m) hrst
  rw [hstate] at htakes
  have htaken := h.takenFrom (c := c) (m := m) (by rw [hstate]; rfl)
  unfold Tcp.processSynchronized
  rw [hstate]
  dsimp only
  refine htaken.windowFrom ?_ ?_ rfl rfl (by simpa using htakes)
  · split <;> rfl
  · split <;> rfl

/-- **`tcp_process` in order**: the window is as before exactly if no data are taken. -/
theorem InOrderAt.tcpProcess (hph : ph = .connecting ∨ ph = .opened) (halive : Alive ph conn)
    (h : InOrderAt i conn) :
    WindowFrom (takesText conn (.segment i m)) conn.pcb.rcv.rcvWnd (tcpProcess c m i conn) := by
  unfold Tcp.tcpProcess
  by_cases hrst : i.flags.rst = true
  · have hidle : takesText conn (.segment i m) = false := takesText_rst hrst
    rw [if_pos hrst]
    split
    · exact .idle h.ooseq rfl rfl rfl hidle
    · exact .idle h.ooseq rfl rfl rfl hidle
  · have hrst' := eq_false_of_ne_true hrst
    have hcommon : InOrderAt i (processCommon c i conn) := ⟨h.noSyn, h.seqno, h.ooseq, h.rcvWnd⟩
    rw [if_neg hrst, if_neg (by rw [h.noSyn]; simp)]
    dsimp only
    rcases hph with rfl | rfl
    · have hstate : (processCommon c i conn).pcb.state = .synRcvd := halive.state
      rw [hstate]
      exact hcommon.processSynRcvd hstate hrst'
    · have hstate : (processCommon c i conn).pcb.state = .established := halive.state
      rw [hstate]
      exact hcommon.processSynchronized hstate hrst'

/-! ## The calls -/

/-- The calls that are recorded and the window stay. -/
structure SameCalls (conn conn' : Conn) : Prop where
  calls : conn'.calls = conn.calls
  rcvWnd : conn'.pcb.rcv.rcvWnd = conn.pcb.rcv.rcvWnd

/-- Nothing happened. -/
theorem SameCalls.refl (conn : Conn) : SameCalls conn conn := ⟨rfl, rfl⟩

/-- What two parts keep, both of them keep. -/
theorem SameCalls.trans {conn'' : Conn} (h : SameCalls conn conn') (h' : SameCalls conn' conn'') :
    SameCalls conn conn'' :=
  ⟨h'.calls.trans h.calls, h'.rcvWnd.trans h.rcvWnd⟩

/-- `tcp_output` calls nobody and leaves the window. -/
theorem sameCalls_output (conn : Conn) : SameCalls conn (Conn.output c m conn) :=
  ⟨rfl, congrArg View.rcvWnd (view_tcpOutput c _ _ _ _)⟩

/-- Purging a block leaves its window. -/
theorem rcvWnd_tcpPcbPurge (pcb : Pcb) : (tcpPcbPurge pcb).rcv.rcvWnd = pcb.rcv.rcvWnd := by
  unfold tcpPcbPurge
  split <;> rfl

/-- Removing a block calls nobody and leaves its window. -/
theorem sameCalls_tcpPcbRemove (conn : Conn) : SameCalls conn (tcpPcbRemove c m conn) := by
  set conn₁ := { conn with home := .unlisted }.onPcb tcpPcbPurge with hconn₁
  have hpurge : SameCalls conn conn₁ := ⟨rfl, rcvWnd_tcpPcbPurge conn.pcb⟩
  unfold tcpPcbRemove
  dsimp only
  split
  · have hout := sameCalls_output (c := c) (m := m) (conn₁.onPcb tcpAckNow)
    exact hpurge.trans ⟨hout.calls, hout.rcvWnd⟩
  · exact hpurge.trans ⟨rfl, rfl⟩

/-- The error callback is not the receive callback. -/
theorem sameCalls_tcpEventErr (cb : Callbacks) (conn : Conn) : SameCalls conn (tcpEventErr cb conn) := by
  unfold tcpEventErr
  split <;> exact ⟨rfl, rfl⟩

/-- Abandoning a connection calls the error callback only. -/
theorem sameCalls_tcpAbandon (conn : Conn) : SameCalls conn (tcpAbandon c m conn) := by
  have hremove := sameCalls_tcpPcbRemove (c := c) (m := m) conn
  unfold tcpAbandon
  split
  · exact ⟨hremove.calls, hremove.rcvWnd⟩
  · have hremoved : SameCalls conn (mempFree (tcpPcbRemoveActive c m conn)) := ⟨hremove.calls, hremove.rcvWnd⟩
    exact hremoved.trans (sameCalls_tcpEventErr _ _)

/-- Sending a FIN calls nobody and leaves the window. -/
theorem sameCalls_sendFinTo (state : TcpState) (conn : Conn) :
    SameCalls conn (sendFinTo c m state conn).2 := by
  have hview := view_tcpSendFin c m.finAlloc conn.pcb
  have hrcvWnd := congrArg View.rcvWnd hview
  unfold sendFinTo
  dsimp only
  split
  · have hstate : SameCalls conn
        { conn with pcb := { (tcpSendFin c m.finAlloc conn.pcb).2 with state := state } } := ⟨rfl, hrcvWnd⟩
    exact hstate.trans (sameCalls_output _)
  · exact ⟨rfl, hrcvWnd⟩

/-- `tcp_close` calls nobody and leaves the window. -/
theorem sameCalls_tcpClose (conn : Conn) : SameCalls conn (tcpClose c m conn).2 := by
  unfold tcpClose
  set conn₁ := if conn.pcb.state ≠ .listen then
      conn.onPcb fun pcb => { pcb with flags := { pcb.flags with rxClosed := true } }
    else conn with hconn₁
  have hsame : SameCalls conn conn₁ := by
    rw [hconn₁]
    split <;> exact ⟨rfl, rfl⟩
  have hremove := sameCalls_tcpPcbRemove (c := c) (m := m) conn₁
  apply hsame.trans
  dsimp only
  unfold tcpCloseShutdown
  dsimp only
  split
  · split <;> exact ⟨rfl, rcvWnd_tcpPcbPurge conn₁.pcb⟩
  · split
    · exact ⟨rfl, rfl⟩
    · exact ⟨hremove.calls, hremove.rcvWnd⟩
    · exact ⟨hremove.calls, hremove.rcvWnd⟩
    · exact sameCalls_sendFinTo _ conn₁
    · exact sameCalls_sendFinTo _ conn₁
    · exact sameCalls_sendFinTo _ conn₁
    · exact SameCalls.refl conn₁

/-- Each call of the receive callback is recorded with the window, which the callback leaves as it is. -/
theorem calls_tcpEventRecv (h : conn.pcb.cb.recv = .appTcpRecv) (p : Option Chain) (fin : Bool) :
    (tcpEventRecv c m p fin conn).2.calls = ⟨p.isSome, fin, conn.pcb.rcv.rcvWnd⟩ :: conn.calls := by
  unfold tcpEventRecv
  rw [h]
  unfold appTcpRecv
  cases p with
  | some p =>
      dsimp only
      split <;> rfl
  | none =>
      have hclose := sameCalls_tcpClose (c := c) (m := m)
        { conn with app := conn.app.free conn.pcb.cb.arg }
      dsimp only
      rw [if_pos rfl]
      dsimp only
      rw [hclose.calls, hclose.rcvWnd]

/-- The receive callback is not called by `tcp_receive`. -/
theorem calls_processSynchronized (conn : Conn) :
    (processSynchronized c m i conn).conn.calls = conn.calls := by
  unfold processSynchronized
  dsimp only
  split
  · split <;> rfl
  · split <;> rfl
  · split
    · split <;> rfl
    · split <;> rfl
  · split <;> rfl
  · split <;> rfl
  · rfl
  · rfl

/-- The receive callback is called behind `tcp_process` only. -/
theorem calls_tcpProcess (conn : Conn) : (tcpProcess c m i conn).conn.calls = conn.calls := by
  unfold tcpProcess
  split
  · split <;> rfl
  · split
    · rfl
    · dsimp only
      split
      · unfold processSynSent
        split
        · rfl
        · dsimp only
          split <;> rfl
      · unfold processSynRcvd
        split
        · split
          · dsimp only
            rw [if_neg (fun hne => hne rfl)]
            dsimp only
            split <;> rfl
          · rfl
        · split <;> rfl
      · exact calls_processSynchronized (processCommon c i conn)

/-- The receive callback of an accepted connection. -/
theorem Alive.recv_eq (hph : ph ≠ .connecting) (h : Alive ph conn) : conn.pcb.cb.recv = .appTcpRecv := by
  rw [h.cb]
  cases ph with
  | connecting => exact absurd rfl hph
  | _ => rfl

/-- The window behind `TCP_EVENT_CLOSED`, with the FIN taken back. -/
def wndAtClose (c : Config) (pcb : Pcb) : UInt16 :=
  if pcb.rcv.rcvWnd ≠ c.tcpWnd then pcb.rcv.rcvWnd + 1 else pcb.rcv.rcvWnd

/-- The close indication is recorded with the window corrected for the FIN. -/
theorem Alive.calls_deliverFin_true (h : Alive .eof conn) :
    (deliverFin c m true conn).calls = ⟨false, false, wndAtClose c conn.pcb⟩ :: conn.calls := by
  have herr := (h.tcpEventClosed (c := c) (m := m)).1
  have hcalls : (Tcp.tcpEventClosed c m conn).2.calls = ⟨false, false, wndAtClose c conn.pcb⟩ :: conn.calls := by
    have hrecv := h.recv_eq (by decide)
    unfold Tcp.tcpEventClosed wndAtClose
    split
    · have hrecv' : (conn.onPcb fun pcb =>
          { pcb with rcv := { pcb.rcv with rcvWnd := pcb.rcv.rcvWnd + 1 } }).pcb.cb.recv = .appTcpRecv := hrecv
      exact calls_tcpEventRecv hrecv' none false
    · exact calls_tcpEventRecv hrecv none false
  unfold deliverFin
  dsimp only
  rw [if_pos rfl, h.deref, h.refused]
  dsimp only
  rw [herr, if_neg (by simp)]
  exact hcalls

/-- Without a FIN the application is told nothing at the end. -/
theorem calls_deliverFin_false (conn : Conn) : (deliverFin c m false conn).calls = conn.calls := rfl

/-- Data are recorded, and what comes behind them is recorded on top. -/
theorem Alive.calls_deliver (fin : Bool) (hph : ph = if fin then .eof else .opened) (h : Alive ph conn)
    (p : Chain) :
    (⟨true, fin, conn.pcb.rcv.rcvWnd⟩ : Call) :: conn.calls <:+ (Tcp.deliver c m fin (some p) conn).calls := by
  have hor : ph = .opened ∨ ph = .eof := by
    rw [hph]
    cases fin
    · exact Or.inl rfl
    · exact Or.inr rfl
  have hne : ph ≠ .connecting := by rcases hor with rfl | rfl <;> decide
  have hrecv := calls_tcpEventRecv (c := c) (m := m) (h.recv_eq hne) (some p) fin
  obtain ⟨-, halive, -, -⟩ := h.tcpEventRecv hor (c := c) (m := m) p fin
  rw [h.deliver_eq hor]
  cases fin with
  | false =>
      rw [calls_deliverFin_false, hrecv]
      exact List.suffix_refl _
  | true =>
      have heof : ph = .eof := hph
      rw [heof] at halive
      rw [halive.calls_deliverFin_true, hrecv]
      exact List.suffix_cons _ _

/-- What `tcp_input` records, and what becomes of the window. -/
inductive InputCalls (c : Config) (i : InSeg) (ph : Phase) (conn : Conn) (r : Processed) (conn' : Conn) : Prop
  | silent (noData : r.recvData = none ∨ i.flags.rst = true ∨ ph = .closing) (noFin : r.gotFin = false)
      (calls : conn'.calls = conn.calls)
      (keeps : conn'.home = .active → conn'.pcb.view = r.conn.pcb.view)
  | closes (hph : ph ≠ .closing) (noData : r.recvData = none) (gotFin : r.gotFin = true)
      (calls : conn'.calls = ⟨false, false, wndAtClose c r.conn.pcb⟩ :: conn.calls)
      (closed : ∀ ph', Alive ph' conn' → ph' = .closing)
  | data (hph : ph ≠ .closing) (hdata : r.recvData ≠ none)
      (calls : ⟨true, r.gotFin, r.conn.pcb.rcv.rcvWnd⟩ :: conn.calls <:+ conn'.calls)

/-- A connection that closes is in no other phase. -/
theorem Alive.phase_unique {ph' : Phase} (h : Alive ph conn) (h' : Alive ph' conn)
    (hclosing : ph = .closing) : ph' = .closing := by
  have hrx : conn.pcb.flags.rxClosed = true := by
    rw [h.rxClosed, hclosing]
    rfl
  rw [h'.rxClosed] at hrx
  exact eq_of_beq hrx

/-- **The calls of one segment**: with the data, and then for the end. -/
theorem Alive.inputCalls (hne : ph ≠ .eof) (h : Alive ph conn) :
    InputCalls c i ph conn (Tcp.tcpProcess c m i { conn with inputPcb := true }) (Tcp.tcpInput c m i conn) := by
  have hinput := h.setInputPcb true
  obtain ⟨herr, hspec⟩ := tcpProcess_spec hne hinput (c := c) (m := m) (i := i)
  have hcalls : (Tcp.tcpProcess c m i { conn with inputPcb := true }).conn.calls = conn.calls :=
    calls_tcpProcess _
  unfold Tcp.tcpInput
  dsimp only
  rw [h.refused]
  dsimp only
  generalize Tcp.tcpProcess c m i { conn with inputPcb := true } = r at herr hspec hcalls
  unfold afterProcess
  rw [herr, if_neg (by simp)]
  -- `tcp_input` acts on what `tcp_process` found: a RST, the end of LAST-ACK, a FIN, or none of these
  cases hspec with
  | reset alive app hr rst noFin =>
      rw [if_pos hr]
      have hsame := (sameCalls_tcpEventErr r.conn.pcb.cb r.conn).trans
        (sameCalls_tcpPcbRemove (c := c) (m := m) (tcpEventErr r.conn.pcb.cb r.conn))
      exact .silent (Or.inr (Or.inl rst.1)) noFin (hsame.calls.trans hcalls) fun hactive => by cases hactive
  | closed hph alive app hr hclosed rst noFin =>
      have hrx : r.conn.pcb.flags.rxClosed = true := alive.rxClosed
      have hsame := sameCalls_tcpPcbRemove (c := c) (m := m) r.conn
      rw [if_neg (by rw [hr]; decide), if_pos hclosed, if_pos hrx]
      exact .silent (Or.inr (Or.inr hph)) noFin (hsame.calls.trans hcalls) fun hactive => by cases hactive
  -- the callback is told of the end behind the data
  | fin hph alive hr hopen gotFin =>
      rw [if_neg (by rw [hr]; decide), if_neg (by rw [hopen]; decide), gotFin]
      cases hdata : r.recvData with
      | none =>
          have hclose := alive.calls_deliverFin_true (c := c) (m := m)
          refine .closes hph hdata gotFin ?_ ?_
          · rw [← hcalls]
            exact hclose
          · intro ph' halive'
            obtain ⟨hclosing, hfreed⟩ := alive.deliverFin_true (c := c) (m := m)
            cases hwnd : closesWithRst c r.conn.pcb with
            | false => exact ((hclosing hwnd).setInputPcb false).phase_unique halive' rfl
            | true =>
                have hhome : (deliverFin c m true r.conn).home = .freed := (hfreed hwnd).home
                have hactive : (deliverFin c m true r.conn).home = .active := halive'.home
                rw [hhome] at hactive
                cases hactive
      | some p =>
          have hcalls' := alive.calls_deliver (c := c) (m := m) true rfl p
          rw [hcalls, ← gotFin] at hcalls'
          refine .data hph (by rw [hdata]; exact Option.some_ne_none p) ?_
          rw [gotFin] at hcalls' ⊢
          exact hcalls'
  | goesOn ph' alive hne' hclosing hr hopen rst noFin noData =>
      rw [if_neg (by rw [hr]; decide), if_neg (by rw [hopen]; decide), noFin]
      -- only an open connection has data for it
      cases hdata : r.recvData with
      | none =>
          refine .silent (Or.inl hdata) noFin hcalls fun _ => ?_
          exact view_tcpOutput c _ _ _ _
      | some p =>
          have hopened : ph' = .opened := by
            by_contra hnot
            rw [noData hnot] at hdata
            cases hdata
          have hcalls' := alive.calls_deliver (c := c) (m := m) false hopened p
          rw [hcalls] at hcalls'
          refine .data (fun heq => by rw [hclosing heq] at hopened; cases hopened) (by rw [hdata]; exact Option.some_ne_none p) ?_
          rw [noFin]
          exact hcalls'

/-! ## The claim of `rawapi.txt` -/

/-- Every call of the callback leaves the window full, but for a FIN that is still to be processed. -/
def WindowBack (c : Config) (conn : Conn) : Prop :=
  ∀ call ∈ conn.calls, call.rcvWnd = c.tcpWnd - if call.finPending then 1 else 0

/-- A segment is in order: it starts at the next sequence number and is not a SYN. -/
def InOrder (conn : Conn) : Event → Prop
  | .segment i _ => i.seqno = conn.pcb.rcv.rcvNxt ∧ i.flags.syn = false
  | _ => True

instance decidableInOrder (conn : Conn) : (e : Event) → Decidable (InOrder conn e)
  | .segment i _ => inferInstanceAs (Decidable (i.seqno = conn.pcb.rcv.rcvNxt ∧ i.flags.syn = false))
  | .slowtmr _ | .fasttmr _ | .abandon _ => isTrue trivial

/-- Nothing was received: the window is full, and nothing waits out of order. -/
structure Untouched (c : Config) (conn : Conn) : Prop where
  rcvWnd : conn.pcb.rcv.rcvWnd = c.tcpWnd
  ooseq : conn.pcb.ooseq = []

/-- What holds between two events, when segments come in order. -/
def Windowed (c : Config) (conn : Conn) : Prop :=
  conn.home = .freed ∨
    ∃ ph, ph ≠ .eof ∧ Alive ph conn ∧ (ph ≠ .closing → WindowBack c conn → Untouched c conn)

/-- What holds of all calls held of the earlier ones. -/
theorem WindowBack.of_suffix (hsuffix : conn.calls <:+ conn'.calls) (h : WindowBack c conn') :
    WindowBack c conn :=
  fun call hcall => h call (hsuffix.subset hcall)

/-- Only the calls count. -/
theorem WindowBack.congr (hcalls : conn'.calls = conn.calls) : WindowBack c conn' ↔ WindowBack c conn := by
  unfold WindowBack
  rw [hcalls]

/-- A segment adds calls and takes none back. -/
theorem Alive.calls_segment (hne : ph ≠ .eof) (h : Alive ph conn) :
    conn.calls <:+ (Tcp.tcpInput c m i conn).calls := by
  cases h.inputCalls hne (c := c) (m := m) (i := i) with
  | silent noData noFin calls keeps =>
      rw [calls]
  | closes hph noData gotFin calls closed =>
      rw [calls]
      exact List.suffix_cons _ _
  | data hph hdata calls => exact (List.suffix_cons _ _).trans calls

/-- The timers and `tcp_abandon` record nothing, and keep the window while the connection goes on. -/
structure Quiet (conn conn' : Conn) : Prop where
  calls : conn'.calls = conn.calls
  rcvWnd : conn'.home = .active → conn'.pcb.rcv.rcvWnd = conn.pcb.rcv.rcvWnd
  ooseq : conn'.home = .active → conn.pcb.ooseq = [] → conn'.pcb.ooseq = []

/-- A function of the sender only. -/
theorem Quiet.of_view (hcalls : conn'.calls = conn.calls) (hview : conn'.pcb.view = conn.pcb.view) :
    Quiet conn conn' :=
  ⟨hcalls, fun _ => congrArg View.rcvWnd hview, fun _ hooseq => (congrArg View.ooseq hview).trans hooseq⟩

/-- The connection ends without a call. -/
theorem Quiet.of_ended {app : App} (hcalls : conn'.calls = conn.calls) (hend : Ended app conn') :
    Quiet conn conn' := by
  refine ⟨hcalls, fun hactive => ?_, fun hactive => ?_⟩
  · rw [hend.home] at hactive
    cases hactive
  · rw [hend.home] at hactive
    cases hactive

/-- Two parts are quiet one after the other. -/
theorem Quiet.trans {conn'' : Conn} (h : Quiet conn conn') (hactive : conn'.home = .active)
    (h' : Quiet conn' conn'') : Quiet conn conn'' :=
  ⟨h'.calls.trans h.calls, fun hend => (h'.rcvWnd hend).trans (h.rcvWnd hactive),
    fun hend hooseq => h'.ooseq hend (h.ooseq hactive hooseq)⟩

/-- Abandoning a connection is quiet. -/
theorem Alive.quiet_abandon (h : Alive ph conn) : Quiet conn (Tcp.tcpAbandon c m conn) :=
  .of_ended (sameCalls_tcpAbandon conn).calls h.tcpAbandon

/-- The poll sends, or aborts the connection. -/
theorem Alive.quiet_slowtmrPoll (h : Alive ph conn) : Quiet conn (Tcp.slowtmrPoll c m conn) := by
  unfold Tcp.slowtmrPoll
  dsimp only
  split
  · set conn₂ : Conn := { (conn.onPcb fun pcb => { pcb with polltmr := pcb.polltmr + 1 }).onPcb
        fun pcb => { pcb with polltmr := 0 } with activePcbsChanged := false } with hconn₂
    have h₂ : Alive ph conn₂ :=
      ⟨h.home, h.state, h.rxClosed, h.cb, h.refused, h.frees, h.unobtained, h.noUse, h.pcbSafe⟩
    have hunchanged : conn₂.activePcbsChanged = false := rfl
    have hkeep : Quiet conn conn₂ := ⟨rfl, fun _ => rfl, fun _ hooseq => hooseq⟩
    unfold tcpEventPoll
    cases hpoll : conn₂.pcb.cb.poll with
    | false =>
        have hview : (Conn.output c m conn₂).pcb.view = conn₂.pcb.view := view_tcpOutput c _ _ _ _
        simp only [Bool.false_eq_true, if_false]
        rw [if_neg (by rw [hunchanged]; decide), if_pos trivial, h₂.deref]
        exact ⟨rfl, fun _ => congrArg View.rcvWnd hview, fun _ hooseq => (congrArg View.ooseq hview).trans hooseq⟩
    | true =>
        have hchanged := activePcbsChanged_tcpAbandon h₂ (c := c) (m := m)
        have habandon := h₂.quiet_abandon (c := c) (m := m)
        simp only [if_true, appTcpPoll, tcpAbort]
        rw [if_pos hchanged]
        exact ⟨habandon.calls, habandon.rcvWnd, habandon.ooseq⟩
  · exact ⟨rfl, fun _ => rfl, fun _ hooseq => hooseq⟩

/-- Removing a connection by the timer does not call the receive callback. -/
theorem calls_slowtmrRemove (conn : Conn) : (slowtmrRemove conn).calls = conn.calls :=
  (sameCalls_tcpEventErr _ _).calls

/-- `tcp_slowtmr` receives nothing. -/
theorem Alive.quiet_slowtmr (h : Alive ph conn) : Quiet conn (Tcp.tcpSlowtmr c m conn) := by
  have hhome := h.home
  unfold Tcp.tcpSlowtmr
  dsimp only
  split
  · unfold Tcp.slowtmrActive
    dsimp only
    split
    · exact ⟨rfl, fun _ => rfl, fun _ hooseq => hooseq⟩
    · obtain ⟨ooseq, hor, hview⟩ := view_slowtmrPcb (c := c) (m := m) (conn.ticks + 1)
        { conn.pcb with lastTimer := conn.timerCtr + 1 }
      have halive := h.afterSlowtmrPcb (c := c) (m := m)
      have hkeep : Quiet conn (conn.afterSlowtmrPcb c m) := by
        refine ⟨rfl, fun _ => congrArg View.rcvWnd hview, fun _ hooseq => ?_⟩
        rcases hor with heq | heq
        · exact (congrArg View.ooseq hview).trans (heq.trans hooseq)
        · exact (congrArg View.ooseq hview).trans heq
      split
      · exact .of_ended (calls_slowtmrRemove (conn.afterSlowtmrPcb c m)) halive.slowtmrRemove
      · exact hkeep.trans halive.home halive.quiet_slowtmrPoll
  · rename_i htimeWait
    rw [hhome] at htimeWait
    cases htimeWait
  · exact ⟨rfl, fun _ => rfl, fun _ hooseq => hooseq⟩

/-- `tcp_fasttmr` has no refused data to hand on. -/
theorem Alive.quiet_fasttmr (h : Alive ph conn) : Quiet conn (Tcp.tcpFasttmr c m conn) := by
  rw [tcpFasttmr_eq h.home h.refused]
  split
  · exact ⟨rfl, fun _ => rfl, fun _ hooseq => hooseq⟩
  · set conn₁ : Conn := { conn with
      pcb := tcpAckNow { conn.pcb with lastTimer := conn.timerCtr + 1 }
      timerCtr := conn.timerCtr + 1 } with hconn₁
    have hview : (Conn.output c m conn₁).pcb.view = conn₁.pcb.view := view_tcpOutput c _ _ _ _
    split
    · exact ⟨rfl, fun _ => congrArg View.rcvWnd hview,
        fun _ hooseq => (congrArg View.ooseq hview).trans hooseq⟩
    · exact ⟨rfl, fun _ => rfl, fun _ hooseq => hooseq⟩

/-- What is recorded stays recorded. -/
theorem Alive.calls_step {e : Event} (hne : ph ≠ .eof) (h : Alive ph conn)
    (hs : Tcp.step c conn e = some conn') : conn.calls <:+ conn'.calls := by
  have hfreed : conn.home ≠ .freed := by
    rw [h.home]
    decide
  cases e with
  | segment i m =>
      obtain rfl := Option.some.inj ((step_segment h.home).symm.trans hs)
      exact h.calls_segment hne
  | slowtmr m =>
      obtain rfl := Option.some.inj ((if_neg hfreed).symm.trans hs)
      rw [(h.quiet_slowtmr (c := c) (m := m)).calls]
  | fasttmr m =>
      obtain rfl := Option.some.inj ((if_neg hfreed).symm.trans hs)
      rw [(h.quiet_fasttmr (c := c) (m := m)).calls]
  | abandon m =>
      obtain rfl := Option.some.inj ((if_neg hfreed).symm.trans hs)
      rw [(h.quiet_abandon (c := c) (m := m)).calls]

/-- A connection in a phase, with what is known of its window. -/
structure AliveWindowed (c : Config) (ph : Phase) (conn : Conn) : Prop where
  alive : Alive ph conn
  ne_eof : ph ≠ .eof
  untouched : ph ≠ .closing → WindowBack c conn → Untouched c conn

/-- What an event leaves is windowed when the window of a connection that goes on and has not closed is
untouched as long as the promise is kept. -/
theorem Outcome.windowed {e : Event} (hout : Outcome c ph conn e conn')
    (h : ∀ ph', ph ≠ .closing → ph' ≠ .closing → Alive ph' conn' → WindowBack c conn' → Untouched c conn') :
    Windowed c conn' := by
  cases hout with
  | goesOn ph' alive hne hclosing calm noRst =>
      exact Or.inr ⟨ph', hne, alive, fun hnot => h ph' (fun heq => hnot (hclosing heq)) hnot alive⟩
  | error ended _ _ => exact Or.inl ended.home
  | finished _ ended _ _ => exact Or.inl ended.home
  | rst _ _ _ used _ => exact Or.inl used.home

/-- A quiet event changes nothing about the promise. -/
theorem Quiet.windowed (hquiet : Quiet conn conn') (h : AliveWindowed c ph conn) {e : Event}
    (hout : Outcome c ph conn e conn') : Windowed c conn' := by
  apply hout.windowed
  intro ph' hph _ halive hback
  have huntouched := h.untouched hph ((WindowBack.congr hquiet.calls).mp hback)
  exact ⟨(hquiet.rcvWnd halive.home).trans huntouched.rcvWnd, hquiet.ooseq halive.home huntouched.ooseq⟩

/-- Behind the end no data are taken. -/
theorem Alive.takesText_closing (hph : ph = .closing) (h : Alive ph conn) :
    takesText conn (.segment i m) = false := by
  have hstate : (conn.pcb.state == .established || conn.pcb.state == .synRcvd && i.flags.ack &&
      seqBetween i.ackno (conn.pcb.snd.lastack + 1) conn.pcb.snd.sndNxt) = false := by
    have hs := h.state
    rw [hph] at hs
    rcases hs with hs | hs <;> rw [hs] <;> rfl
  unfold takesText
  dsimp only
  rw [hstate, Bool.and_false]

/-- A segment in order. -/
theorem AliveWindowed.segment (h : AliveWindowed c ph conn) (hback : WindowBack c conn)
    (horder : InOrder conn (.segment i m)) :
    Windowed c (Tcp.tcpInput c m i conn) ∧
      (WindowBack c (Tcp.tcpInput c m i conn) ↔ takesText conn (.segment i m) = false) := by
  have hout := h.alive.tcpInput h.ne_eof (c := c) (m := m) (i := i)
  have hcalls := h.alive.inputCalls h.ne_eof (c := c) (m := m) (i := i)
  by_cases hclosing : ph = .closing
  · -- a connection that was closed takes nothing
    have htakes := h.alive.takesText_closing hclosing (m := m) (i := i)
    cases hcalls with
    | silent noData noFin calls keeps =>
        exact ⟨hout.windowed fun _ hph => absurd hclosing hph, fun _ => htakes,
          fun _ => (WindowBack.congr calls).mpr hback⟩
    | closes hph noData gotFin calls closed => exact absurd hclosing hph
    | data hph hdata calls => exact absurd hclosing hph
  · have huntouched := h.untouched hclosing hback
    have hinOrder : InOrderAt i { conn with inputPcb := true } :=
      ⟨horder.2, horder.1, huntouched.ooseq, by
        show 0 < conn.pcb.rcv.rcvWnd
        rw [huntouched.rcvWnd]
        exact c.tcpWnd_pos⟩
    have hor : ph = .connecting ∨ ph = .opened := by
      have hne := h.ne_eof
      cases ph with
      | eof => exact absurd rfl hne
      | closing => exact absurd rfl hclosing
      | _ => simp
    have hwindow := hinOrder.tcpProcess hor (h.alive.setInputPcb true) (c := c) (m := m)
    have htakes : takesText { conn with inputPcb := true } (.segment i m) = takesText conn (.segment i m) := rfl
    have hwnd : ({ conn with inputPcb := true } : Conn).pcb.rcv.rcvWnd = c.tcpWnd := huntouched.rcvWnd
    rw [htakes, hwnd] at hwindow
    generalize Tcp.tcpProcess c m i { conn with inputPcb := true } = r at hwindow hcalls
    cases hcalls with
    | silent noData noFin calls keeps =>
        have hnone : takesText conn (.segment i m) = false := by
          rcases noData with hdata | hrst | hph
          · exact hwindow.data.mp hdata
          · exact takesText_rst hrst
          · exact absurd hph hclosing
        have hrcvWnd := hwindow.rcvWnd.mpr hnone
        rw [noFin] at hrcvWnd
        refine ⟨hout.windowed fun ph' _ _ halive _ => ?_, fun _ => hnone,
          fun _ => (WindowBack.congr calls).mpr hback⟩
        have hview := keeps halive.home
        have hkept : (Tcp.tcpInput c m i conn).pcb.rcv.rcvWnd = r.conn.pcb.rcv.rcvWnd :=
          congrArg View.rcvWnd hview
        refine ⟨hkept.trans (hrcvWnd.trans ?_), (congrArg View.ooseq hview).trans hwindow.ooseq⟩
        exact UInt16.sub_zero _
    | closes hph noData gotFin calls closed =>
        have hnone := hwindow.data.mp noData
        have hrcvWnd := hwindow.rcvWnd.mpr hnone
        rw [gotFin] at hrcvWnd
        have hfull : wndAtClose c r.conn.pcb = c.tcpWnd := by
          have hne : c.tcpWnd - 1 ≠ c.tcpWnd := by grind
          have hmissing : r.conn.pcb.rcv.rcvWnd = c.tcpWnd - 1 := hrcvWnd
          unfold wndAtClose
          rw [hmissing, if_pos hne]
          exact UInt16.sub_add_cancel _ _
        refine ⟨hout.windowed fun ph' _ hnot halive _ => absurd (closed ph' halive) hnot, fun _ => hnone,
          fun _ => ?_⟩
        intro call hcall
        rw [calls] at hcall
        rcases List.mem_cons.mp hcall with rfl | hold
        · exact hfull.trans (UInt16.sub_zero _).symm
        · exact hback call hold
    | data hph hdata calls =>
        have hsome : takesText conn (.segment i m) ≠ false := fun hnone => hdata (hwindow.data.mpr hnone)
        have hlost : ¬WindowBack c (Tcp.tcpInput c m i conn) := by
          intro hback'
          have hcall := hback' _ (calls.subset List.mem_cons_self)
          exact hsome (hwindow.rcvWnd.mp hcall)
        exact ⟨hout.windowed fun _ _ _ _ hback' => absurd hback' hlost,
          fun hback' => absurd hback' hlost, fun hnone => absurd hnone hsome⟩

/-- One event keeps the promise of `rawapi.txt` exactly if it brings no data. -/
theorem AliveWindowed.step {e : Event} (h : AliveWindowed c ph conn) (hback : WindowBack c conn)
    (horder : InOrder conn e) (hs : Tcp.step c conn e = some conn') :
    Windowed c conn' ∧ (WindowBack c conn' ↔ takesText conn e = false) := by
  have hfreed : conn.home ≠ .freed := by
    rw [h.alive.home]
    decide
  have hout := h.alive.step h.ne_eof hs
  have hkeep : Quiet conn conn' → takesText conn e = false →
      Windowed c conn' ∧ (WindowBack c conn' ↔ takesText conn e = false) := fun hquiet htakes =>
    ⟨hquiet.windowed h hout, fun _ => htakes, fun _ => (WindowBack.congr hquiet.calls).mpr hback⟩
  cases e with
  | segment i m =>
      obtain rfl := Option.some.inj ((step_segment h.alive.home).symm.trans hs)
      exact h.segment hback horder
  | slowtmr m =>
      obtain rfl := Option.some.inj ((if_neg hfreed).symm.trans hs)
      exact hkeep h.alive.quiet_slowtmr rfl
  | fasttmr m =>
      obtain rfl := Option.some.inj ((if_neg hfreed).symm.trans hs)
      exact hkeep h.alive.quiet_fasttmr rfl
  | abandon m =>
      obtain rfl := Option.some.inj ((if_neg hfreed).symm.trans hs)
      exact hkeep h.alive.quiet_abandon rfl

/-- A new connection has called nobody. -/
theorem calls_tcpListenInput (c : Config) (mem : Mem) (i : InSeg) (soKeepalive : Bool) (iss ticks : UInt32)
    (timerCtr : UInt8) : (tcpListenInput c mem i soKeepalive iss ticks timerCtr).calls = [] := by
  obtain ⟨conn, hfresh, heq | heq⟩ := tcpListenInput_eq c mem i soKeepalive iss ticks timerCtr
  · rw [heq]
    exact hfresh.calls
  · rw [heq]
    exact (sameCalls_tcpAbandon conn).calls.trans hfresh.calls

/-- A new connection has its whole window, or is given up. -/
theorem windowed_start (c : Config) (mem : Mem) (i : InSeg) (soKeepalive : Bool) (iss ticks : UInt32)
    (timerCtr : UInt8) : Windowed c (tcpListenInput c mem i soKeepalive iss ticks timerCtr) := by
  obtain ⟨conn, hfresh, heq | heq⟩ := tcpListenInput_eq c mem i soKeepalive iss ticks timerCtr
  · have hview : (Conn.output c mem conn).pcb.view = conn.pcb.view := view_tcpOutput c _ _ _ _
    rw [heq]
    exact Or.inr ⟨.connecting, by decide, hfresh.alive.output, fun _ _ =>
      ⟨(congrArg View.rcvWnd hview).trans hfresh.rcvWnd, (congrArg View.ooseq hview).trans hfresh.ooseq⟩⟩
  · rw [heq]
    exact Or.inl hfresh.alive.tcpAbandon.home

/-- **When the window comes back.** Along every run whose segments come in order, every call of the receive
callback leaves the window that `rawapi.txt` asks for exactly if no data are taken at all. -/
theorem window_back_iff (c : Config) (mem : Mem) (i : InSeg) (soKeepalive : Bool) (iss ticks : UInt32)
    (timerCtr : UInt8) (es : List Event) (conn : Conn)
    (horder : RunMeets (step c) InOrder (tcpListenInput c mem i soKeepalive iss ticks timerCtr) es)
    (hrun : run (step c) (tcpListenInput c mem i soKeepalive iss ticks timerCtr) es = some conn) :
    WindowBack c conn ↔ RunMeets (step c) (fun conn e => takesText conn e = false)
      (tcpListenInput c mem i soKeepalive iss ticks timerCtr) es := by
  have hcalls : (tcpListenInput c mem i soKeepalive iss ticks timerCtr).calls = [] :=
    calls_tcpListenInput c mem i soKeepalive iss ticks timerCtr
  have hback : WindowBack c (tcpListenInput c mem i soKeepalive iss ticks timerCtr) := by
    intro call hcall
    rw [hcalls] at hcall
    cases hcall
  refine runMeets_iff (I := Windowed c) ?_ ?_ (windowed_start c mem i soKeepalive iss ticks timerCtr) hback
    horder hrun
  · intro conn e conn' hwindowed hback horder hs
    rcases hwindowed with hfreed | ⟨ph, hne, halive, huntouched⟩
    · rw [step_freed hfreed] at hs
      cases hs
    · exact AliveWindowed.step ⟨halive, hne, huntouched⟩ hback horder hs
  · intro conn e conn' hwindowed hlost _ hs
    rcases hwindowed with hfreed | ⟨ph, hne, halive, huntouched⟩
    · rw [step_freed hfreed] at hs
      cases hs
    · have hlost' : ¬WindowBack c conn' := fun hback => hlost (hback.of_suffix (halive.calls_step hne hs))
      exact ⟨(halive.step hne hs).windowed fun _ _ _ _ hback => absurd hback hlost', hlost'⟩

/-- The window is back when the other end only closes, and not when it has sent a byte before. -/
theorem window_back_iff_dataThenFin :
    (∃ conn, run (step optDefaults) (tcpListenInput optDefaults {} synFromPeer false 0 0 0) finComes = some conn ∧
      WindowBack optDefaults conn) ∧
    ∃ conn, run (step optDefaults) (tcpListenInput optDefaults {} synFromPeer false 0 0 0) dataThenFin = some conn ∧
      ¬WindowBack optDefaults conn := by
  have hfin : ((run (step optDefaults) (tcpListenInput optDefaults {} synFromPeer false 0 0 0) finComes).map
      fun conn => conn.calls.length) = some 1 := by decide
  have hdata : ((run (step optDefaults) (tcpListenInput optDefaults {} synFromPeer false 0 0 0) dataThenFin).map
      fun conn => conn.calls.length) = some 2 := by decide
  obtain ⟨conn, hrun, -⟩ := Option.map_eq_some_iff.mp hfin
  obtain ⟨conn', hrun', -⟩ := Option.map_eq_some_iff.mp hdata
  have hback := window_back_iff optDefaults {} synFromPeer false 0 0 0 finComes conn (by decide) hrun
  have hback' := window_back_iff optDefaults {} synFromPeer false 0 0 0 dataThenFin conn' (by decide) hrun'
  exact ⟨⟨conn, hrun, hback.mpr (by decide)⟩, conn', hrun', fun h => absurd (hback'.mp h) (by decide)⟩

/-- The window does not always come back: behind one byte of data the callback leaves it one byte short. -/
theorem not_window_back : ¬ ∀ (c : Config) (mem : Mem) (i : InSeg) (soKeepalive : Bool)
    (iss ticks : UInt32) (timerCtr : UInt8) (es : List Event) (conn : Conn),
    RunMeets (step c) InOrder (tcpListenInput c mem i soKeepalive iss ticks timerCtr) es →
    run (step c) (tcpListenInput c mem i soKeepalive iss ticks timerCtr) es = some conn →
      WindowBack c conn := by
  intro h
  have hout : ((run (step optDefaults) (tcpListenInput optDefaults {} synFromPeer false 0 0 0)
      (dataThenFin.take 2)).map fun conn => conn.calls) = some [⟨true, false, 2143⟩] := by decide
  obtain ⟨conn, hrun, hcalls⟩ := Option.map_eq_some_iff.mp hout
  have hback := h optDefaults {} synFromPeer false 0 0 0 _ conn (by decide) hrun
  have hfull := hback ⟨true, false, 2143⟩ (by rw [hcalls]; exact List.mem_cons_self)
  exact absurd hfull (by decide)

end BareMetal.Tcp
