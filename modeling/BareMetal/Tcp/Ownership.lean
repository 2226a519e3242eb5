import BareMetal.Tcp.Lifecycle
import BareMetal.Tcp.StreamEnd

/-! # Who owns what

Two blocks belong to a connection, and each has several owners. The buffer of the application is freed by
`app_tcp_recv` at the end of the stream and by `app_tcp_conn_err`; the control block is freed by `tcp_close`,
below the callback and below `tcp_input`. For both it is said exactly which events break the rules. -/

namespace BareMetal.Tcp

variable {c : Config} {conn conn' : Conn}

/-- What holds of a connection between two events: it is in a phase, or it is over. -/
def Between (conn : Conn) : Prop := (∃ ph, ph ≠ .eof ∧ Alive ph conn) ∨ conn.home = .freed

/-- In every phase but the one in which `tcp_input` tells of the end, a connection waits between two events. -/
theorem Alive.between {ph : Phase} (hne : ph ≠ .eof) (h : Alive ph conn) : Between conn := Or.inl ⟨ph, hne, h⟩

/-- A freed block takes no events. -/
theorem step_freed (hfreed : conn.home = .freed) (e : Event) : step c conn e = none := by
  cases e with
  | segment i mem =>
      unfold step
      rw [hfreed]
  | _ =>
      unfold step
      exact if_pos hfreed

/-- After an event the connection is alive in some phase, or over. -/
theorem Outcome.between {ph : Phase} {e : Event} (h : Outcome c ph conn e conn') : Between conn' := by
  cases h with
  | goesOn ph' alive hne _ _ _ => exact alive.between hne
  | error ended _ _ => exact Or.inr ended.home
  | finished _ ended _ _ => exact Or.inr ended.home
  | rst _ _ _ used _ => exact Or.inr used.home

/-- What is new about a connection that answers a SYN. -/
structure FreshConn (c : Config) (conn : Conn) : Prop where
  alive : Alive .connecting conn
  app : conn.app = {}
  calls : conn.calls = []
  rcvWnd : conn.pcb.rcv.rcvWnd = c.tcpWnd
  ooseq : conn.pcb.ooseq = []

/-- A connection that answers a SYN sends its answer, or it is abandoned when the answer was not queued. -/
theorem tcpListenInput_eq (c : Config) (mem : Mem) (i : InSeg) (soKeepalive : Bool) (iss ticks : UInt32)
    (timerCtr : UInt8) : ∃ conn, FreshConn c conn ∧
      (tcpListenInput c mem i soKeepalive iss ticks timerCtr = Conn.output c mem conn ∨
        tcpListenInput c mem i soKeepalive iss ticks timerCtr = tcpAbandon c mem conn) := by
  unfold tcpListenInput
  dsimp only
  generalize hpcb : ({ tcpAlloc c iss ticks timerCtr with
    state := .synRcvd
    rcv := { (tcpAlloc c iss ticks timerCtr).rcv with rcvNxt := i.seqno + 1, rcvAnnRightEdge := i.seqno + 1 }
    soKeepalive := soKeepalive
    snd := { (tcpAlloc c iss ticks timerCtr).snd with
      sndWnd := i.wnd, sndWndMax := i.wnd, ssthresh := i.wnd, sndWl1 := i.seqno - 1 }
    mss := c.tcpEffSendMss (tcpParseopt c i ((i.hdrlen - 5) * 4) 0 (tcpAlloc c iss ticks timerCtr).mss) } : Pcb)
      = pcb
  have hview := view_tcpEnqueueFlags c mem.finAlloc { syn := true, ack := true } pcb
  cases henqueue : tcpEnqueueFlags c mem.finAlloc { syn := true, ack := true } pcb with
  | mk queued pcb₁ =>
      rw [henqueue] at hview
      refine ⟨{ pcb := pcb₁, home := .active, inputPcb := false, activePcbsChanged := true, ticks := ticks
                timerCtr := timerCtr, app := {}, pcbUseAfterFree := false, calls := [] }, ?_, ?_⟩
      · refine ⟨⟨rfl, (congrArg View.state hview).trans ?_, (congrArg View.rxClosed hview).trans ?_,
          (congrArg View.cb hview).trans ?_, (congrArg View.refusedData hview).trans ?_, rfl, fun _ => rfl, rfl,
          rfl⟩, rfl, rfl, (congrArg View.rcvWnd hview).trans ?_, (congrArg View.ooseq hview).trans ?_⟩
        all_goals
          rw [← hpcb]
          rfl
      · cases queued with
        | true => exact Or.inl rfl
        | false => exact Or.inr rfl

/-- A SYN makes a connection that waits for its third segment, or one that was given up at once. -/
theorem tcpListenInput_spec (c : Config) (mem : Mem) (i : InSeg) (soKeepalive : Bool) (iss ticks : UInt32)
    (timerCtr : UInt8) :
    Alive .connecting (tcpListenInput c mem i soKeepalive iss ticks timerCtr) ∨
      Ended {} (tcpListenInput c mem i soKeepalive iss ticks timerCtr) := by
  obtain ⟨conn, hfresh, heq | heq⟩ := tcpListenInput_eq c mem i soKeepalive iss ticks timerCtr
  · rw [heq]
    exact Or.inl hfresh.alive.output
  · have hend := hfresh.alive.tcpAbandon (c := c) (m := mem)
    rw [hfresh.app] at hend
    rw [heq]
    exact Or.inr hend

/-! ## Runs -/

/-- The numbers of `opt.h`, on Ethernet. -/
def optDefaults : Config where
  tcpWnd := 2144
  tcpMss := 536
  tcpSndBuf := 1072
  tcpSndQueuelen := 8
  mtu := 1500
  tcpWnd_pos := by decide

/-- A segment of the other end that acknowledges the SYN. -/
def fromPeer (seqno : UInt32) (fin : Bool) (p : Chain) (h : p.totLen + 40 < 2 ^ 16) : InSeg where
  seqno := seqno
  ackno := 1
  flags := { fin := fin, ack := true }
  wnd := 2144
  hdrlen := 5
  opts := []
  p := p
  fits := h

/-- The SYN of the other end. -/
def synFromPeer : InSeg := { fromPeer 0 false [] (by decide) with flags := { syn := true } }

/-- The handshake ends, and the other end closes its side. -/
def finComes : List Event :=
  [.segment (fromPeer 1 false [] (by decide)) {}, .segment (fromPeer 1 true [] (by decide)) {}]

/-! ## The buffer of the application -/

/-- The buffer is passed to `mem_free` at most once, and once by the time the control block is freed; and it
is not used behind that. -/
structure BufferSafe (conn : Conn) : Prop where
  atMostOnce : conn.app.frees ≤ 1
  byTheEnd : conn.home = .freed → conn.app.obtained = true → conn.app.frees = 1
  noUse : conn.app.useAfterFree = false

/-- The event does not raise `TCP_EVENT_ERR` on a connection that the application has closed and whose buffer
it had obtained. -/
def NoErrBehindClose (conn : Conn) (e : Event) : Prop :=
  ¬(conn.pcb.flags.rxClosed = true ∧ conn.app.obtained = true ∧ raisesErr conn e = true)

/-- The buffer that was obtained and then freed once is accounted for. -/
theorem bufferSafe_free (app : App) (hfrees : app.frees = 0) (hnoUse : app.useAfterFree = false)
    (happ : conn.app = app.free app.obtained) : BufferSafe conn := by
  have hcount : conn.app.frees = if app.obtained then 1 else 0 := by
    rw [happ, frees_free, hfrees, Nat.zero_add]
  refine ⟨?_, fun _ hobtained => ?_, ?_⟩
  · rw [hcount]
    split <;> simp
  · rw [happ, obtained_free] at hobtained
    rw [hcount, if_pos hobtained]
  · rw [happ, useAfterFree_free, hnoUse]

/-- The phases say when the buffer is held. -/
theorem Alive.bufferSafe {ph : Phase} (h : Alive ph conn) : BufferSafe conn := by
  refine ⟨?_, fun hfreed => ?_, h.noUse⟩
  · rw [h.frees]
    unfold Phase.frees
    split
    · split <;> simp
    · simp
  · rw [h.home] at hfreed
    cases hfreed

/-- A connection that the application has not closed may raise an error. -/
theorem Alive.noErrBehindClose {ph : Phase} {e : Event} (h : Alive ph conn)
    (hcalm : ph = .closing → raisesErr conn e = false) : NoErrBehindClose conn e := by
  rintro ⟨hrx, -, hraises⟩
  have hclosing : ph = .closing := by
    rw [h.rxClosed] at hrx
    exact eq_of_beq hrx
  rw [hcalm hclosing] at hraises
  cases hraises

/-- One event keeps the buffer safe exactly if it raises no error behind the close. -/
theorem bufferSafe_step {ph : Phase} {e : Event} (h : Alive ph conn) (hout : Outcome c ph conn e conn') :
    BufferSafe conn' ↔ NoErrBehindClose conn e := by
  cases hout with
  | goesOn ph' alive hne hclosing calm noRst =>
      exact ⟨fun _ => h.noErrBehindClose calm, fun _ => alive.bufferSafe⟩
  | error ended raises noRst =>
      by_cases htwice : ph = .closing ∧ conn.app.obtained = true
      · -- `app_tcp_recv` has freed the buffer, and `app_tcp_conn_err` frees it again
        have hfrees : conn'.app.frees = 2 := by
          rw [ended.app, frees_free, h.frees, htwice.1]
          unfold Phase.frees
          rw [if_pos htwice.2]
        have hrx : conn.pcb.flags.rxClosed = true := by
          rw [h.rxClosed, htwice.1]
          rfl
        constructor
        · intro hsafe
          exact absurd hsafe.atMostOnce (by rw [hfrees]; decide)
        · intro hno
          exact absurd ⟨hrx, htwice.2, raises⟩ hno
      · have hno : NoErrBehindClose conn e := by
          rintro ⟨hrx, hobtained, -⟩
          rw [h.rxClosed] at hrx
          exact htwice ⟨eq_of_beq hrx, hobtained⟩
        refine ⟨fun _ => hno, fun _ => ?_⟩
        by_cases hph : ph = .closing
        · -- there is no buffer
          have hnone : conn.app.obtained = false := eq_false_of_ne_true fun hobtained => htwice ⟨hph, hobtained⟩
          have happ : conn'.app = conn.app := by
            rw [ended.app, hnone]
            rfl
          have hfrees : conn'.app.frees = 0 := by
            rw [happ, h.frees, hnone, hph]
            rfl
          refine ⟨by rw [hfrees]; decide, fun _ hobtained => ?_, by rw [happ, h.noUse]⟩
          rw [happ, hnone] at hobtained
          cases hobtained
        · have hfresh := h.fresh hph
          exact bufferSafe_free conn.app hfresh.1 hfresh.2 ended.app
  | finished hph ended calm noRst =>
      refine ⟨fun _ => h.noErrBehindClose fun _ => calm, fun _ => ?_⟩
      have hfrees : conn'.app.frees = if conn.app.obtained then 1 else 0 := by
        rw [ended.app, h.frees, hph]
        rfl
      refine ⟨?_, fun _ hobtained => ?_, ?_⟩
      · rw [hfrees]
        split <;> simp
      · rw [ended.app] at hobtained
        rw [hfrees, if_pos hobtained]
      · rw [ended.app, h.noUse]
  | rst hph app fresh used hrst =>
      refine ⟨fun _ => h.noErrBehindClose fun heq => absurd heq hph, fun _ => ?_⟩
      exact bufferSafe_free app fresh.1 fresh.2 used.app

/-- A run starts between two events. -/
theorem between_start (c : Config) (mem : Mem) (i : InSeg) (soKeepalive : Bool) (iss ticks : UInt32)
    (timerCtr : UInt8) : Between (tcpListenInput c mem i soKeepalive iss ticks timerCtr) := by
  rcases tcpListenInput_spec c mem i soKeepalive iss ticks timerCtr with halive | hended
  · exact halive.between (by decide)
  · exact Or.inr hended.home

/-- A connection that can take a step is in a phase. -/
theorem Between.exists_phase {e : Event} (h : Between conn) (hs : step c conn e = some conn') :
    ∃ ph, ph ≠ .eof ∧ Alive ph conn := by
  rcases h with halive | hfreed
  · exact halive
  · rw [step_freed hfreed] at hs
    cases hs

/-- **When the buffer is safe.** Along every run of a connection the buffer is freed at most once, once by
the end, and not used behind that, exactly if no event raises an error behind the close. -/
theorem buffer_safe_iff (c : Config) (mem : Mem) (i : InSeg) (soKeepalive : Bool) (iss ticks : UInt32)
    (timerCtr : UInt8) (es : List Event) (conn : Conn)
    (hrun : run (step c) (tcpListenInput c mem i soKeepalive iss ticks timerCtr) es = some conn) :
    BufferSafe conn ↔
      RunMeets (step c) NoErrBehindClose (tcpListenInput c mem i soKeepalive iss ticks timerCtr) es := by
  have hsafe : BufferSafe (tcpListenInput c mem i soKeepalive iss ticks timerCtr) := by
    rcases tcpListenInput_spec c mem i soKeepalive iss ticks timerCtr with halive | hended
    · exact halive.bufferSafe
    · exact bufferSafe_free {} rfl rfl hended.app
  refine runMeets_iff (I := Between) ?_ ?_ (between_start c mem i soKeepalive iss ticks timerCtr) hsafe
    (runMeets_true _ es) hrun
  · intro conn e conn' hbetween _ _ hs
    obtain ⟨ph, hne, halive⟩ := hbetween.exists_phase hs
    have hout := halive.step hne hs
    exact ⟨hout.between, bufferSafe_step halive hout⟩
  · intro conn e conn' hbetween hunsafe _ hs
    obtain ⟨ph, -, halive⟩ := hbetween.exists_phase hs
    exact absurd halive.bufferSafe hunsafe

/-- The theorem at a run in which the other end closes. -/
theorem buffer_safe_iff_finComes : ∃ conn, run (step optDefaults)
      (tcpListenInput optDefaults {} synFromPeer false 0 0 0) finComes = some conn ∧
    (BufferSafe conn ↔ RunMeets (step optDefaults) NoErrBehindClose
      (tcpListenInput optDefaults {} synFromPeer false 0 0 0) finComes) := by
  have hout : ((run (step optDefaults) (tcpListenInput optDefaults {} synFromPeer false 0 0 0) finComes).map
      fun conn => conn.app.frees) = some 1 := by decide
  obtain ⟨conn, hrun, -⟩ := Option.map_eq_some_iff.mp hout
  exact ⟨conn, hrun, buffer_safe_iff optDefaults {} synFromPeer false 0 0 0 finComes conn hrun⟩

/-- The buffer is not always safe: the other end closes, `app_tcp_recv` frees the buffer, and when the
connection is then aborted `app_tcp_conn_err` frees it again. -/
theorem not_buffer_safe : ¬ ∀ (c : Config) (mem : Mem) (i : InSeg) (soKeepalive : Bool)
    (iss ticks : UInt32) (timerCtr : UInt8) (es : List Event) (conn : Conn),
    run (step c) (tcpListenInput c mem i soKeepalive iss ticks timerCtr) es = some conn → BufferSafe conn := by
  intro h
  have hout : ((run (step optDefaults) (tcpListenInput optDefaults {} synFromPeer false 0 0 0)
      (finComes ++ [.abandon {}])).map fun conn => conn.app.frees) = some 2 := by decide
  obtain ⟨conn, hrun, hfrees⟩ := Option.map_eq_some_iff.mp hout
  have hsafe := h optDefaults {} synFromPeer false 0 0 0 _ conn hrun
  exact absurd hsafe.atMostOnce (by rw [hfrees]; decide)

/-! ## The control block -/

/-- The FIN of the segment leaves the window full, but for the FIN: no data were accepted in front of it, and the segment
brings none. -/
def FinWithoutData (c : Config) (pcb : Pcb) (i : InSeg) : Prop :=
  OwnFin pcb.rcv.rcvNxt pcb.rcv.rcvWnd i ∧
    (pcb.rcv.rcvWnd - newLen pcb.rcv.rcvNxt i = c.tcpWnd ∨ pcb.rcv.rcvWnd - newLen pcb.rcv.rcvNxt i + 1 = c.tcpWnd)

/-- A segment that ends the stream is a FIN without data. -/
def NoDataBeforeFin (c : Config) (conn : Conn) : Event → Prop
  | .segment i _ => takesSegment conn.pcb i = true →
      FinComes conn.pcb.rcv.rcvNxt conn.pcb.rcv.rcvWnd conn.pcb.ooseq i → FinWithoutData c conn.pcb i
  | _ => True

instance decidableNoDataBeforeFin (c : Config) (conn : Conn) : (e : Event) → Decidable (NoDataBeforeFin c conn e)
  | .segment i _ => inferInstanceAs (Decidable (takesSegment conn.pcb i = true →
      FinComes conn.pcb.rcv.rcvNxt conn.pcb.rcv.rcvWnd conn.pcb.ooseq i → _ ∧ (_ ∨ _)))
  | .slowtmr _ | .fasttmr _ | .abandon _ => isTrue trivial

/-- No FIN waits out of sequence. -/
def NoFinWaits (conn : Conn) : Prop := ∀ seg ∈ conn.pcb.ooseq, seg.flags.fin = false

instance decidableNoFinWaits (conn : Conn) : Decidable (NoFinWaits conn) :=
  inferInstanceAs (Decidable (∀ seg ∈ conn.pcb.ooseq, seg.flags.fin = false))

/-- The window is full, but for the FIN: `tcp_close_shutdown` sends no RST. -/
theorem closesWithRst_eq_false {pcb : Pcb} :
    closesWithRst c pcb = false ↔ pcb.rcv.rcvWnd = c.tcpWnd ∨ pcb.rcv.rcvWnd + 1 = c.tcpWnd := by
  rw [closesWithRst, Bool.and_eq_false_iff, bne_eq_false_iff_eq, bne_eq_false_iff_eq]

/-- `tcp_close` does not send a RST for a FIN without data, and where no FIN waits out of sequence it sends one for
every other. -/
theorem Alive.noDataBeforeFin {ph : Phase} (hne : ph ≠ .eof) (h : Alive ph conn) (e : Event) :
    (NoDataBeforeFin c conn e → rstAtFin c conn e = false) ∧
      (NoFinWaits conn → rstAtFin c conn e = false → NoDataBeforeFin c conn e) := by
  cases e with
  | segment i m =>
      have hinput := h.setInputPcb true
      obtain ⟨hcomes, hown⟩ := hinput.finFrom_tcpProcess hne (c := c) (m := m) (i := i)
      unfold rstAtFin
      dsimp only at hcomes hown ⊢
      generalize tcpProcess c m i { conn with inputPcb := true } = r at hcomes hown
      constructor
      · intro hmeets
        by_cases hgot : r.gotFin = true
        · obtain ⟨htakes, hfin⟩ := hcomes hgot
          obtain ⟨hfinOwn, hfull⟩ := hmeets htakes hfin
          rw [hgot, Bool.true_and, closesWithRst_eq_false, (hown htakes hfin.inSequence hfinOwn).2]
          exact hfull
        · rw [eq_false_of_ne_true hgot, Bool.false_and]
      · intro hwaits hno htakes hfin
        have hfinOwn : OwnFin conn.pcb.rcv.rcvNxt conn.pcb.rcv.rcvWnd i := by
          refine hfin.fin.resolve_right ?_
          rw [finReached_of_noFin hwaits]
          exact Bool.false_ne_true
        obtain ⟨hgot, hwnd⟩ := hown htakes hfin.inSequence hfinOwn
        rw [hgot, Bool.true_and, closesWithRst_eq_false, hwnd] at hno
        exact ⟨hfinOwn, hno⟩
  | _ => exact ⟨fun _ => rfl, fun _ _ => trivial⟩

/-- One event: the freed block is used again exactly when the FIN is answered by a RST. -/
theorem pcbSafe_step {ph : Phase} {e : Event} (hout : Outcome c ph conn e conn') :
    conn'.pcbUseAfterFree = false ↔ rstAtFin c conn e = false := by
  cases hout with
  | goesOn ph' alive hne hclosing calm noRst => exact ⟨fun _ => noRst, fun _ => alive.pcbSafe⟩
  | error ended raises noRst => exact ⟨fun _ => noRst, fun _ => ended.pcbSafe⟩
  | finished hph ended calm noRst => exact ⟨fun _ => noRst, fun _ => ended.pcbSafe⟩
  | rst hph app fresh used hrst =>
      rw [used.pcbUsed, hrst]

/-- **When the control block is safe.** Along every run of a connection the control block is not used behind
its return to the pool, if only FINs without data end the stream. As long as no FIN waits out of sequence this condition
is exact. -/
theorem pcb_safe_iff (c : Config) (mem : Mem) (i : InSeg) (soKeepalive : Bool) (iss ticks : UInt32)
    (timerCtr : UInt8) (es : List Event) (conn : Conn)
    (hrun : run (step c) (tcpListenInput c mem i soKeepalive iss ticks timerCtr) es = some conn) :
    (RunMeets (step c) (NoDataBeforeFin c) (tcpListenInput c mem i soKeepalive iss ticks timerCtr) es →
      conn.pcbUseAfterFree = false) ∧
    (RunMeets (step c) (fun conn _ => NoFinWaits conn) (tcpListenInput c mem i soKeepalive iss ticks timerCtr) es →
      (conn.pcbUseAfterFree = false ↔
        RunMeets (step c) (NoDataBeforeFin c) (tcpListenInput c mem i soKeepalive iss ticks timerCtr) es)) := by
  have hbetween := between_start c mem i soKeepalive iss ticks timerCtr
  have hsafe : (tcpListenInput c mem i soKeepalive iss ticks timerCtr).pcbUseAfterFree = false := by
    rcases tcpListenInput_spec c mem i soKeepalive iss ticks timerCtr with halive | hended
    · exact halive.pcbSafe
    · exact hended.pcbSafe
  constructor
  · intro hmeets
    have hend : Between conn ∧ conn.pcbUseAfterFree = false := by
      refine run_invariant_of_meets (I := fun conn => Between conn ∧ conn.pcbUseAfterFree = false) ?_
        ⟨hbetween, hsafe⟩ hmeets hrun
      rintro conn e conn' ⟨hconn, -⟩ hG hs
      obtain ⟨ph, hne, halive⟩ := hconn.exists_phase hs
      have hout := halive.step hne hs
      exact ⟨hout.between, (pcbSafe_step hout).mpr ((halive.noDataBeforeFin hne e).1 hG)⟩
    exact hend.2
  · intro hwaits
    refine runMeets_iff (I := Between) (P := fun conn => conn.pcbUseAfterFree = false) ?_ ?_ hbetween hsafe hwaits hrun
    · intro conn e conn' hconn _ hno hs
      obtain ⟨ph, hne, halive⟩ := hconn.exists_phase hs
      have hout := halive.step hne hs
      obtain ⟨henough, hexact⟩ := halive.noDataBeforeFin hne e (c := c)
      exact ⟨hout.between, (pcbSafe_step hout).trans ⟨hexact hno, henough⟩⟩
    · intro conn e conn' hconn hunsafe _ hs
      obtain ⟨ph, -, halive⟩ := hconn.exists_phase hs
      exact absurd halive.pcbSafe hunsafe

/-- The other end closes its side, a round of the timers comes, and then the FIN of `tcp_close` is acknowledged. -/
def finAcked : List Event :=
  finComes ++ [.slowtmr {}, .segment { fromPeer 2 false [] (by decide) with ackno := 2 } {}]

/-- The theorem at a run that ends with the ACK of the FIN. -/
theorem pcb_safe_iff_finAcked : ∃ conn, run (step optDefaults)
      (tcpListenInput optDefaults {} synFromPeer false 0 0 0) finAcked = some conn ∧ conn.home = .freed ∧
    conn.pcbUseAfterFree = false ∧
    (conn.pcbUseAfterFree = false ↔ RunMeets (step optDefaults) (NoDataBeforeFin optDefaults)
      (tcpListenInput optDefaults {} synFromPeer false 0 0 0) finAcked) := by
  have hout : (run (step optDefaults) (tcpListenInput optDefaults {} synFromPeer false 0 0 0) finAcked).map
      (fun conn => conn.home) = some .freed := by decide
  obtain ⟨conn, hrun, hhome⟩ := Option.map_eq_some_iff.mp hout
  obtain ⟨henough, hexact⟩ := pcb_safe_iff optDefaults {} synFromPeer false 0 0 0 finAcked conn hrun
  exact ⟨conn, hrun, hhome, henough (by decide), hexact (by decide)⟩

/-- The handshake ends, one byte of data comes, and the other end closes its side. -/
def dataThenFin : List Event :=
  [.segment (fromPeer 1 false [] (by decide)) {}, .segment (fromPeer 1 false [[0x41]] (by decide)) {},
    .segment (fromPeer 2 true [] (by decide)) {}]

/-- The control block is not always safe: behind one byte of data the window is not full, so `tcp_close`
frees the block, `app_tcp_recv` returns `ERR_OK`, and `tcp_input` calls `tcp_output` on the block. -/
theorem not_pcb_safe : ¬ ∀ (c : Config) (mem : Mem) (i : InSeg) (soKeepalive : Bool)
    (iss ticks : UInt32) (timerCtr : UInt8) (es : List Event) (conn : Conn),
    run (step c) (tcpListenInput c mem i soKeepalive iss ticks timerCtr) es = some conn →
      conn.pcbUseAfterFree = false := by
  intro h
  have hout : ((run (step optDefaults) (tcpListenInput optDefaults {} synFromPeer false 0 0 0)
      dataThenFin).map fun conn => conn.pcbUseAfterFree) = some true := by decide
  obtain ⟨conn, hrun, hused⟩ := Option.map_eq_some_iff.mp hout
  have hsafe := h optDefaults {} synFromPeer false 0 0 0 _ conn hrun
  rw [hused] at hsafe
  cases hsafe

end BareMetal.Tcp
