import BareMetal.Tcp.Input

/-! # The phases of a connection

What an accepted connection looks like between two calls of the stack: it is on `tcp_active_pcbs` in one of
four phases, and the phase fixes the state of the block, the callbacks, and what the application has done
with its buffer. This module has the phases and how `tcp_process` changes them. -/

namespace BareMetal.Tcp

/-- Where a connection is in its life. -/
inductive Phase
  /-- In the handshake; `app_tcp_accept` is still to be called. -/
  | connecting
  /-- Accepted, and both sides can send. -/
  | opened
  /-- The other end has closed its side; the application is still to be told. -/
  | eof
  /-- The application was told and has called `tcp_close`. -/
  | closing
  deriving DecidableEq, Repr

/-- The states of the block in a phase. -/
def Phase.HasState : Phase → TcpState → Prop
  | .connecting, s => s = .synRcvd
  | .opened, s => s = .established
  | .eof, s => s = .closeWait
  | .closing, s => s = .closeWait ∨ s = .lastAck

/-- The callbacks in a phase; `obtained` says that the application has a buffer. -/
def Phase.callbacks (obtained : Bool) : Phase → Callbacks
  | .connecting => ⟨.tcpRecvNull, false, false, false⟩
  | _ => ⟨.appTcpRecv, true, true, obtained⟩

/-- How often the application has passed its buffer to `mem_free`. -/
def Phase.frees (obtained : Bool) : Phase → ℕ
  | .closing => if obtained then 1 else 0
  | _ => 0

/-- A connection on `tcp_active_pcbs` in the phase `ph`. -/
structure Alive (ph : Phase) (conn : Conn) : Prop where
  home : conn.home = .active
  state : ph.HasState conn.pcb.state
  rxClosed : conn.pcb.flags.rxClosed = (ph == .closing)
  cb : conn.pcb.cb = ph.callbacks conn.app.obtained
  refused : conn.pcb.refusedData = none
  frees : conn.app.frees = ph.frees conn.app.obtained
  unobtained : ph = .connecting → conn.app.obtained = false
  noUse : conn.app.useAfterFree = false
  pcbSafe : conn.pcbUseAfterFree = false

variable {c : Config} {m : Mem} {i : InSeg} {ph : Phase} {conn : Conn}

/-! ## Steps that stay in the phase -/

/-- A change of the block that the application cannot see. -/
theorem Alive.onPcb {f : Pcb → Pcb} (h : Alive ph conn) (hkeep : KeepsApp conn.pcb (f conn.pcb))
    (hstate : (f conn.pcb).state = conn.pcb.state) : Alive ph (conn.onPcb f) where
  home := h.home
  state := by
    have hs : (conn.onPcb f).pcb.state = conn.pcb.state := hstate
    rw [hs]
    exact h.state
  rxClosed := hkeep.rxClosed.trans h.rxClosed
  cb := hkeep.cb.trans h.cb
  refused := hkeep.refusedData.trans h.refused
  frees := h.frees
  unobtained := h.unobtained
  noUse := h.noUse
  pcbSafe := h.pcbSafe

/-- A phase is a statement about the view. -/
theorem Alive.of_view {f : Pcb → Pcb} (h : Alive ph conn) (hview : (f conn.pcb).view = conn.pcb.view) :
    Alive ph (conn.onPcb f) :=
  h.onPcb (KeepsApp.of_view hview) (congrArg View.state hview)

/-- The sender's variables are not in the view. -/
theorem Alive.setSnd (h : Alive ph conn) (snd : Pcb → Snd) :
    Alive ph (conn.onPcb fun pcb => { pcb with snd := snd pcb }) :=
  h.onPcb ⟨rfl, rfl, rfl⟩ rfl

/-- `tcp_output` leaves a connection in its phase. -/
theorem Alive.output (h : Alive ph conn) : Alive ph (Conn.output c m conn) :=
  h.of_view (view_tcpOutput c _ _ _ _)

/-- So does `tcp_input_pcb`. -/
theorem Alive.setInputPcb (h : Alive ph conn) (b : Bool) : Alive ph { conn with inputPcb := b } :=
  ⟨h.home, h.state, h.rxClosed, h.cb, h.refused, h.frees, h.unobtained, h.noUse, h.pcbSafe⟩

/-- A block on a list may be used. -/
theorem Alive.deref (h : Alive ph conn) : conn.deref = conn := by
  have hhome := h.home
  have hne : (conn.home == Home.freed) = false := by rw [hhome]; rfl
  unfold Conn.deref
  rw [hne, Bool.or_false]

/-- And what `tcp_process` does first with every segment. -/
theorem Alive.processCommon (h : Alive ph conn) : Alive ph (processCommon c i conn) :=
  h.onPcb ⟨rfl, rfl, rfl⟩ rfl

/-! ## `tcp_process` -/

/-- What `tcp_process` leaves of a connection in the phase `ph`. -/
inductive ProcessedFrom (i : InSeg) (ph : Phase) (conn : Conn) (r : Processed) : Prop
  /-- A RST was accepted. -/
  | reset (alive : Alive ph r.conn) (app : r.conn.app = conn.app) (hr : r.reset = true)
      (rst : i.flags.rst = true ∧ rstAcceptable i conn.pcb = true) (noFin : r.gotFin = false)
  /-- The FIN of `tcp_close` was acknowledged. -/
  | closed (hph : ph = .closing) (alive : Alive .closing r.conn) (app : r.conn.app = conn.app)
      (hr : r.reset = false) (hclosed : r.closed = true) (rst : i.flags.rst = false)
      (noFin : r.gotFin = false)
  /-- The FIN of the other end was received. -/
  | fin (hph : ph ≠ .closing) (alive : Alive .eof r.conn) (hr : r.reset = false) (hopen : r.closed = false)
      (gotFin : r.gotFin = true)
  /-- The connection goes on; only an open one has data. -/
  | goesOn (ph' : Phase) (alive : Alive ph' r.conn) (hne : ph' ≠ .eof)
      (hclosing : ph = .closing → ph' = .closing) (hr : r.reset = false) (hopen : r.closed = false)
      (rst : ¬(i.flags.rst = true ∧ rstAcceptable i conn.pcb = true)) (noFin : r.gotFin = false)
      (noData : ph' ≠ .opened → r.recvData = none)

/-- What comes of a segment after that first part, comes of it before. -/
theorem ProcessedFrom.of_common {r : Processed} (h : ProcessedFrom i ph (processCommon c i conn) r) :
    ProcessedFrom i ph conn r := by
  have hacceptable : rstAcceptable i (processCommon c i conn).pcb = rstAcceptable i conn.pcb := rfl
  cases h with
  | reset alive app hr rst noFin => exact .reset alive app hr (hacceptable ▸ rst) noFin
  | closed hph alive app hr hclosed rst noFin => exact .closed hph alive app hr hclosed rst noFin
  | fin hph alive hr hopen gotFin => exact .fin hph alive hr hopen gotFin
  | goesOn ph' alive hne hclosing hr hopen rst noFin noData =>
      exact .goesOn ph' alive hne hclosing hr hopen (hacceptable ▸ rst) noFin noData

/-- `tcp_receive` on a connection whose other end is open. -/
theorem Alive.receive_opened (h : Alive .opened conn) :
    ((Conn.receive c m i conn).gotFin = true →
      Alive .eof (ackFinTo .closeWait (Conn.receive c m i conn).conn)) ∧
    ((Conn.receive c m i conn).gotFin = false → Alive .opened (Conn.receive c m i conn).conn) := by
  have hspec := tcpReceive_spec c conn.ticks m.ackAlloc m.copied i conn.pcb
  constructor
  · intro _
    exact ⟨h.home, rfl, hspec.keeps.rxClosed.trans h.rxClosed, hspec.keeps.cb.trans h.cb,
      hspec.keeps.refusedData.trans h.refused, h.frees, fun hph => Phase.noConfusion hph, h.noUse, h.pcbSafe⟩
  · intro hfin
    have hstate : (Conn.receive c m i conn).conn.pcb.state = conn.pcb.state := by
      rcases hspec.state with hs | ⟨-, -, hgot⟩
      · exact hs
      · have hfin' : (tcpReceive c conn.ticks m.ackAlloc m.copied i conn.pcb).gotFin = false := hfin
        rw [hgot] at hfin'
        cases hfin'
    exact h.onPcb (f := fun _ => (Conn.receive c m i conn).conn.pcb) hspec.keeps hstate

/-- `tcp_receive` on a connection whose other end has closed. -/
theorem Alive.receive_closing (h : Alive .closing conn) :
    Alive .closing (Conn.receive c m i conn).conn ∧ (Conn.receive c m i conn).gotFin = false ∧
      (Conn.receive c m i conn).recvData = none := by
  have hspec := tcpReceive_spec c conn.ticks m.ackAlloc m.copied i conn.pcb
  have hclosed : conn.pcb.state.ltCloseWait = false := by
    rcases h.state with hs | hs <;> rw [hs] <;> rfl
  have hstate : (Conn.receive c m i conn).conn.pcb.state = conn.pcb.state := by
    rcases hspec.state with hs | ⟨hs, -⟩
    · exact hs
    · rw [hs] at hclosed
      cases hclosed
  exact ⟨h.onPcb (f := fun _ => (Conn.receive c m i conn).conn.pcb) hspec.keeps hstate,
    hspec.none_of_closed hclosed⟩

/-- `app_tcp_accept`. -/
theorem Alive.accept (h : Alive .connecting conn) :
    Alive .opened (appTcpAccept m .ok (conn.onPcb fun pcb => { pcb with state := .established })).2 where
  home := h.home
  state := rfl
  rxClosed := h.rxClosed
  cb := rfl
  refused := h.refused
  frees := rfl
  unobtained := fun hph => Phase.noConfusion hph
  noUse := rfl
  pcbSafe := h.pcbSafe

/-- The case `SYN_RCVD`. -/
theorem processSynRcvd_spec (h : Alive .connecting conn) (hrst : ¬(i.flags.rst = true ∧ rstAcceptable i conn.pcb = true)) :
    (processSynRcvd c m i conn).err = .ok ∧
      ProcessedFrom i .connecting conn (processSynRcvd c m i conn) := by
  have hstay : ProcessedFrom i .connecting conn { conn := conn } :=
    .goesOn .connecting h (fun hph => Phase.noConfusion hph) (fun hph => Phase.noConfusion hph) rfl rfl hrst rfl
      fun _ => rfl
  unfold processSynRcvd
  by_cases hack : i.flags.ack = true
  · rw [if_pos hack]
    by_cases hbetween : seqBetween i.ackno (conn.pcb.snd.lastack + 1) conn.pcb.snd.sndNxt = true
    · rw [if_pos hbetween]
      -- the connection is accepted, and the segment is received as on an open connection
      have hopened : Alive .opened
          (appTcpAccept m .ok (conn.onPcb fun pcb => { pcb with state := .established })).2 := h.accept
      have herr : (appTcpAccept m .ok (conn.onPcb fun pcb => { pcb with state := .established })).1 = .ok := rfl
      generalize appTcpAccept m .ok (conn.onPcb fun pcb => { pcb with state := .established }) = accepted
        at hopened herr
      dsimp only
      rw [herr, if_neg (by simp), hopened.deref]
      have hreceive := hopened.receive_opened (c := c) (m := m) (i := i)
      set snd : Pcb → Snd := fun pcb =>
        { pcb.snd with
          acked := if pcb.snd.acked ≠ 0 then pcb.snd.acked - 1 else pcb.snd.acked
          cwnd := if accepted.2.pcb.snd.cwnd = 1 then pcb.mss * 2 else pcb.mss } with hsnd
      by_cases hfin : (Conn.receive c m i accepted.2).gotFin = true
      · have heof : Alive .eof (ackFinTo .closeWait ((Conn.receive c m i accepted.2).conn.onPcb
            fun pcb => { pcb with snd := snd pcb })) := (hreceive.1 hfin).setSnd snd
        rw [if_pos hfin]
        exact ⟨rfl, .fin (fun hph => Phase.noConfusion hph) heof rfl rfl hfin⟩
      · have hfin' := eq_false_of_ne_true hfin
        rw [if_neg hfin]
        exact ⟨rfl, .goesOn .opened ((hreceive.2 hfin').setSnd snd) (fun hph => Phase.noConfusion hph)
          (fun hph => Phase.noConfusion hph) rfl rfl hrst hfin' fun hne => absurd rfl hne⟩
    · rw [if_neg hbetween]
      exact ⟨rfl, hstay⟩
  · rw [if_neg hack]
    by_cases hsyn : i.flags.syn = true ∧ i.seqno = conn.pcb.rcv.rcvNxt - 1
    · rw [if_pos hsyn]
      have hrexmit := h.of_view (f := tcpRexmit) (view_tcpRexmit conn.pcb)
      exact ⟨rfl, .goesOn .connecting hrexmit (fun hph => Phase.noConfusion hph)
        (fun hph => Phase.noConfusion hph) rfl rfl hrst rfl fun _ => rfl⟩
    · rw [if_neg hsyn]
      exact ⟨rfl, hstay⟩

/-- The cases behind the handshake. -/
theorem processSynchronized_spec (hph : ph = .opened ∨ ph = .closing) (h : Alive ph conn)
    (hrst : i.flags.rst = false) :
    (processSynchronized c m i conn).err = .ok ∧
      ProcessedFrom i ph conn (processSynchronized c m i conn) := by
  have hnot : ¬(i.flags.rst = true ∧ rstAcceptable i conn.pcb = true) := by simp [hrst]
  unfold processSynchronized
  rcases hph with rfl | rfl
  · have hstate : conn.pcb.state = .established := h.state
    have hreceive := h.receive_opened (c := c) (m := m) (i := i)
    rw [hstate]
    dsimp only
    by_cases hfin : (Conn.receive c m i conn).gotFin = true
    · rw [if_pos hfin]
      exact ⟨rfl, .fin (fun hph => Phase.noConfusion hph) (hreceive.1 hfin) rfl rfl hfin⟩
    · have hfin' := eq_false_of_ne_true hfin
      rw [if_neg hfin]
      exact ⟨rfl, .goesOn .opened (hreceive.2 hfin') (fun hph => Phase.noConfusion hph)
        (fun hph => Phase.noConfusion hph) rfl rfl hnot hfin' fun hne => absurd rfl hne⟩
  · -- a connection that was closed receives nothing
    obtain ⟨halive, hfin, hdata⟩ := h.receive_closing (c := c) (m := m) (i := i)
    have hgoesOn : ProcessedFrom i .closing conn (Conn.receive c m i conn) :=
      .goesOn .closing halive (fun hph => Phase.noConfusion hph) id rfl rfl hnot hfin fun _ => hdata
    rcases h.state with hstate | hstate
    · rw [hstate]
      dsimp only
      rw [hfin]
      exact ⟨rfl, .goesOn .closing halive (fun hph => Phase.noConfusion hph) id rfl rfl hnot rfl fun _ => hdata⟩
    · rw [hstate]
      dsimp only
      cases hall : acksAll i (Conn.receive c m i conn).conn.pcb with
      | true => exact ⟨rfl, .closed rfl halive rfl rfl rfl hrst hfin⟩
      | false =>
          exact ⟨rfl, .goesOn .closing halive (fun hph => Phase.noConfusion hph) id rfl rfl hnot hfin
            fun _ => hdata⟩

/-- **`tcp_process`.** It returns `ERR_OK`, and what becomes of the connection depends on its phase. -/
theorem tcpProcess_spec (hne : ph ≠ .eof) (h : Alive ph conn) :
    (tcpProcess c m i conn).err = .ok ∧ ProcessedFrom i ph conn (tcpProcess c m i conn) := by
  have hcases : ph = .connecting ∨ ph = .opened ∨ ph = .closing := by
    cases ph with
    | eof => exact absurd rfl hne
    | _ => simp
  unfold tcpProcess
  -- a RST either ends the connection or is out of the window and dropped
  by_cases hrst : i.flags.rst = true
  · rw [if_pos hrst]
    by_cases hacceptable : rstAcceptable i conn.pcb = true
    · rw [if_pos hacceptable]
      have hreset := h.onPcb (f := fun pcb => { pcb with flags := { pcb.flags with ackDelay := false } })
        ⟨rfl, rfl, rfl⟩ rfl
      exact ⟨rfl, .reset hreset rfl rfl ⟨hrst, hacceptable⟩ rfl⟩
    · rw [if_neg hacceptable]
      exact ⟨rfl, .goesOn ph h hne id rfl rfl (fun hand => hacceptable hand.2) rfl fun _ => rfl⟩
  · rw [if_neg hrst]
    have hnot : ¬(i.flags.rst = true ∧ rstAcceptable i conn.pcb = true) := fun hand => hrst hand.1
    -- a SYN on a synchronized connection is only acknowledged
    by_cases hsyn : i.flags.syn = true ∧ conn.pcb.state ≠ .synSent ∧ conn.pcb.state ≠ .synRcvd
    · rw [if_pos hsyn]
      have hack := h.of_view (f := tcpAckNow) (view_tcpAckNow conn.pcb)
      exact ⟨rfl, .goesOn ph hack hne id rfl rfl hnot rfl fun _ => rfl⟩
    · rw [if_neg hsyn]
      have hcommon := h.processCommon (c := c) (i := i)
      have hnot' : ¬(i.flags.rst = true ∧ rstAcceptable i (processCommon c i conn).pcb = true) := hnot
      rcases hcases with rfl | hph
      · have hstate : (processCommon c i conn).pcb.state = .synRcvd := hcommon.state
        dsimp only
        rw [hstate]
        obtain ⟨herr, hspec⟩ := processSynRcvd_spec hcommon (c := c) (m := m) hnot'
        exact ⟨herr, hspec.of_common⟩
      · have hspec := processSynchronized_spec hph hcommon (c := c) (m := m) (eq_false_of_ne_true hrst)
        have hstate : (processCommon c i conn).pcb.state ≠ .synSent ∧
            (processCommon c i conn).pcb.state ≠ .synRcvd := by
          rcases hph with rfl | rfl
          · rw [show (processCommon c i conn).pcb.state = .established from hcommon.state]
            decide
          · rcases hcommon.state with hs | hs <;> rw [hs] <;> decide
        dsimp only
        split
        · exact absurd ‹_› hstate.1
        · exact absurd ‹_› hstate.2
        · exact ⟨hspec.1, hspec.2.of_common⟩

end BareMetal.Tcp
