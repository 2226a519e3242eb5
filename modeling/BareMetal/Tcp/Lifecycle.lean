import BareMetal.Tcp.Phase

/-! # How a connection moves through its phases

Each event takes a connection in one phase to a connection in a phase, or ends it: by an error that the
application is told of, quietly in `LAST_ACK`, or in the branch of `tcp_close` that sends a RST. `Outcome`
lists the four cases, and `Outcome.step` shows that there are no others. -/

namespace BareMetal.Tcp

variable {c : Config} {m : Mem} {i : InSeg} {ph : Phase} {conn conn' : Conn}

/-- The connection is over: the block is back in its pool and was not used since. -/
structure Ended (app : App) (conn : Conn) : Prop where
  home : conn.home = .freed
  app : conn.app = app
  pcbSafe : conn.pcbUseAfterFree = false

/-! ## Removing a block -/

/-- Removing a block does not call the application. -/
theorem app_tcpPcbRemove (conn : Conn) : (tcpPcbRemove c m conn).app = conn.app := by
  unfold tcpPcbRemove
  dsimp only
  split <;> rfl

/-- A block is removed before it is freed. -/
theorem pcbUseAfterFree_tcpPcbRemove (conn : Conn) :
    (tcpPcbRemove c m conn).pcbUseAfterFree = conn.pcbUseAfterFree := by
  unfold tcpPcbRemove
  dsimp only
  split <;> rfl

/-- `TCP_EVENT_ERR` with the callbacks of a connection passes its buffer to `mem_free`. -/
theorem Alive.app_tcpEventErr (h : Alive ph conn) (hand : conn'.app = conn.app) :
    (tcpEventErr conn.pcb.cb conn').app = conn.app.free conn.app.obtained := by
  rw [h.cb]
  cases ph with
  | connecting =>
      have hnone := h.unobtained rfl
      rw [hnone]
      exact hand
  | _ =>
      have heq : (appTcpConnErr conn.app.obtained conn').app = conn'.app.free conn.app.obtained := rfl
      exact heq.trans (by rw [hand])

/-- The error callback frees the buffer, not the block. -/
theorem home_tcpEventErr (cb : Callbacks) (conn : Conn) : (tcpEventErr cb conn).home = conn.home := by
  unfold tcpEventErr
  split <;> rfl

/-- The error callback does not look at the block. -/
theorem pcbUseAfterFree_tcpEventErr (cb : Callbacks) (conn : Conn) :
    (tcpEventErr cb conn).pcbUseAfterFree = conn.pcbUseAfterFree := by
  unfold tcpEventErr
  split <;> rfl

/-- The application is told of the error behind the block's return to its pool. -/
theorem Alive.ended_err (h : Alive ph conn) (hend : Ended conn.app conn') :
    Ended (conn.app.free conn.app.obtained) (tcpEventErr conn.pcb.cb conn') :=
  ⟨(home_tcpEventErr _ _).trans hend.home, h.app_tcpEventErr hend.app,
    (pcbUseAfterFree_tcpEventErr _ _).trans hend.pcbSafe⟩

/-- A block that is removed and freed has ended. -/
theorem ended_remove {app : App} (conn : Conn) (happ : conn.app = app) (hsafe : conn.pcbUseAfterFree = false) :
    Ended app (mempFree (tcpPcbRemove c m conn)) :=
  ⟨rfl, (app_tcpPcbRemove conn).trans happ, (pcbUseAfterFree_tcpPcbRemove conn).trans hsafe⟩

/-- No phase is in TIME_WAIT. -/
theorem Alive.state_ne_timeWait (h : Alive ph conn) : conn.pcb.state ≠ .timeWait := by
  have hs := h.state
  intro heq
  rw [heq] at hs
  cases ph with
  | closing => rcases hs with hs | hs <;> cases hs
  | _ => cases hs

/-- An abandoned connection ends, and frees its buffer through the error callback. -/
theorem Alive.tcpAbandon (h : Alive ph conn) :
    Ended (conn.app.free conn.app.obtained) (tcpAbandon c m conn) := by
  have hend : Ended conn.app (mempFree (tcpPcbRemoveActive c m conn)) :=
    ⟨rfl, app_tcpPcbRemove conn, (pcbUseAfterFree_tcpPcbRemove conn).trans h.pcbSafe⟩
  unfold Tcp.tcpAbandon
  rw [if_neg h.state_ne_timeWait]
  exact h.ended_err hend

/-! ## The end of the stream -/

/-- `tcp_close`, called for the end of the stream, takes the branch that sends a RST and frees the block:
the window is neither full nor full but for the FIN. -/
def closesWithRst (c : Config) (pcb : Pcb) : Bool :=
  pcb.rcv.rcvWnd != c.tcpWnd && pcb.rcv.rcvWnd + 1 != c.tcpWnd

/-- The part of a connection that `tcp_close` works on behind the end of the stream. -/
structure Closable (app : App) (conn : Conn) : Prop where
  home : conn.home = .active
  state : conn.pcb.state = .closeWait
  cb : conn.pcb.cb = ⟨.appTcpRecv, true, true, app.obtained⟩
  refused : conn.pcb.refusedData = none
  freed : conn.app = app.free app.obtained
  frees : app.frees = 0
  noUse : app.useAfterFree = false
  pcbSafe : conn.pcbUseAfterFree = false

/-- `mem_free` does not take back that there was a buffer. -/
theorem obtained_free (app : App) (b : Bool) : (app.free b).obtained = app.obtained := by
  unfold App.free
  split <;> rfl

/-- `mem_free` does not look into the buffer. -/
theorem useAfterFree_free (app : App) (b : Bool) : (app.free b).useAfterFree = app.useAfterFree := by
  unfold App.free
  split <;> rfl

/-- `mem_free` is counted when there is a buffer. -/
theorem frees_free (app : App) (b : Bool) : (app.free b).frees = app.frees + if b then 1 else 0 := by
  unfold App.free
  split <;> rfl

/-- The FIN that answers a FIN leads to the closing phase. -/
theorem Closable.sendFin {app : App} (h : Closable app conn) (hrx : conn.pcb.flags.rxClosed = true) :
    Alive .closing (sendFinTo c m .lastAck conn).2 := by
  have hview := view_tcpSendFin c m.finAlloc conn.pcb
  have hobtained : conn.app.obtained = app.obtained := by rw [h.freed, obtained_free]
  have hclosing : ∀ pcb : Pcb, pcb.view = { conn.pcb.view with state := pcb.state } →
      Phase.closing.HasState pcb.state → Alive .closing { conn with pcb := pcb } := by
    intro pcb hpcb hstate
    refine ⟨h.home, hstate, (congrArg View.rxClosed hpcb).trans hrx, (congrArg View.cb hpcb).trans ?_,
      (congrArg View.refusedData hpcb).trans h.refused, ?_, fun hph => Phase.noConfusion hph, ?_, h.pcbSafe⟩
    · have hcb := h.cb
      rw [← hobtained] at hcb
      exact hcb
    · show conn.app.frees = Phase.closing.frees conn.app.obtained
      rw [hobtained, h.freed, frees_free, h.frees, Nat.zero_add]
      rfl
    · show conn.app.useAfterFree = false
      rw [h.freed, useAfterFree_free, h.noUse]
  unfold sendFinTo
  cases hsent : tcpSendFin c m.finAlloc conn.pcb with
  | mk sent pcb =>
      rw [hsent] at hview
      have hstate : pcb.state = conn.pcb.state := congrArg View.state hview
      dsimp only at hview ⊢
      cases sent with
      | true =>
          have hview' : ({ pcb with state := .lastAck } : Pcb).view = { pcb.view with state := .lastAck } := rfl
          rw [hview] at hview'
          exact (hclosing { pcb with state := .lastAck } hview' (Or.inr rfl)).output
      | false =>
          refine hclosing pcb ?_ (Or.inl (hstate.trans h.state))
          rw [hview, hstate]
          rfl

/-- `tcp_close` sends a FIN if the window is full, and frees the block with a RST if not. -/
theorem Closable.tcpClose {app : App} (h : Closable app conn) :
    (conn.pcb.rcv.rcvWnd = c.tcpWnd → Alive .closing (tcpClose c m conn).2) ∧
      (conn.pcb.rcv.rcvWnd ≠ c.tcpWnd → Ended (app.free app.obtained) (tcpClose c m conn).2) := by
  have hlisten : conn.pcb.state ≠ .listen := by
    rw [h.state]
    decide
  unfold Tcp.tcpClose
  rw [if_pos hlisten]
  set conn₁ := conn.onPcb fun pcb => { pcb with flags := { pcb.flags with rxClosed := true } } with hconn₁
  have hclosable : Closable app conn₁ :=
    ⟨h.home, h.state, h.cb, h.refused, h.freed, h.frees, h.noUse, h.pcbSafe⟩
  have hestablished : conn₁.pcb.state ≠ .established := by
    rw [hclosable.state]
    decide
  dsimp only
  unfold tcpCloseShutdown
  dsimp only
  constructor
  · intro hwnd
    rw [if_neg, hclosable.state]
    · exact hclosable.sendFin rfl
    · rintro ⟨-, -, hrefused | hne⟩
      · exact hrefused hclosable.refused
      · exact hne hwnd
  · intro hwnd
    rw [if_pos ⟨rfl, Or.inr hclosable.state, Or.inr hwnd⟩, if_neg hestablished]
    exact ⟨rfl, h.freed, h.pcbSafe⟩

/-- The close indication on a connection that has received the FIN. -/
theorem Alive.tcpEventClosed (h : Alive .eof conn) :
    (tcpEventClosed c m conn).1 = .ok ∧
      (closesWithRst c conn.pcb = false → Alive .closing (tcpEventClosed c m conn).2) ∧
      (closesWithRst c conn.pcb = true →
        Ended (conn.app.free conn.app.obtained) (tcpEventClosed c m conn).2) := by
  unfold Tcp.tcpEventClosed
  -- at the end of the stream the window opens by one for the FIN
  set conn₁ := if conn.pcb.rcv.rcvWnd ≠ c.tcpWnd then
      conn.onPcb fun pcb => { pcb with rcv := { pcb.rcv with rcvWnd := pcb.rcv.rcvWnd + 1 } }
    else conn with hconn₁
  have halive : Alive .eof conn₁ := by
    rw [hconn₁]
    split
    · exact h.onPcb ⟨rfl, rfl, rfl⟩ rfl
    · exact h
  have happ : conn₁.app = conn.app := by
    rw [hconn₁]
    split <;> rfl
  have hwnd : conn₁.pcb.rcv.rcvWnd = c.tcpWnd ↔ closesWithRst c conn.pcb = false := by
    rw [hconn₁]
    unfold closesWithRst
    by_cases hfull : conn.pcb.rcv.rcvWnd = c.tcpWnd
    · simp [hfull]
    · simp [hfull, Conn.onPcb]
  have hrecv : conn₁.pcb.cb.recv = .appTcpRecv := congrArg Callbacks.recv halive.cb
  have harg : conn₁.pcb.cb.arg = conn₁.app.obtained := congrArg Callbacks.arg halive.cb
  have hclosable : Closable conn₁.app { conn₁ with app := conn₁.app.free conn₁.app.obtained } :=
    ⟨halive.home, halive.state, halive.cb, halive.refused, rfl, halive.frees, halive.noUse, halive.pcbSafe⟩
  have hclose := hclosable.tcpClose (c := c) (m := m)
  dsimp only
  unfold tcpEventRecv
  rw [hrecv]
  unfold appTcpRecv
  dsimp only
  rw [if_pos rfl, harg, ← happ]
  refine ⟨rfl, fun hno => ?_, fun hrst => ?_⟩
  · -- a full window: a FIN is sent and the connection closes
    have hclosing := hclose.1 (hwnd.mpr hno)
    exact ⟨hclosing.home, hclosing.state, hclosing.rxClosed, hclosing.cb, hclosing.refused, hclosing.frees,
      hclosing.unobtained, hclosing.noUse, hclosing.pcbSafe⟩
  · -- the application never opened its window again: a RST is sent and the PCB is freed
    have hend := hclose.2 (fun heq => by rw [hwnd.mp heq] at hrst; cases hrst)
    exact ⟨hend.home, hend.app, hend.pcbSafe⟩

/-! ## Data -/

/-- Before it is freed, the buffer may be used. -/
theorem use_of_frees (app : App) (hfrees : app.frees = 0) : app.use = app := by
  cases app with
  | mk obtained frees useAfterFree bytes =>
      have hzero : frees = 0 := hfrees
      simp [App.use, hzero]

/-- Storing bytes in a buffer that was not freed. -/
theorem store_spec (app : App) (p : Chain) (hfrees : app.frees = 0) :
    (app.store p).obtained = app.obtained ∧ (app.store p).frees = 0 ∧
      (app.store p).useAfterFree = app.useAfterFree := by
  unfold App.store
  induction p.flatten generalizing app with
  | nil => exact ⟨rfl, hfrees, rfl⟩
  | cons b bytes ih =>
      rw [List.foldl_cons]
      rw [use_of_frees app hfrees]
      split
      · exact ih { app with bytes := app.bytes ++ [b] } hfrees
      · exact ih app hfrees

/-- Data for the application. -/
theorem Alive.tcpEventRecv (hph : ph = .opened ∨ ph = .eof) (h : Alive ph conn) (p : Chain) (fin : Bool) :
    (tcpEventRecv c m (some p) fin conn).1 = .ok ∧
      Alive ph (tcpEventRecv c m (some p) fin conn).2 ∧
      (tcpEventRecv c m (some p) fin conn).2.pcb = conn.pcb ∧
      (tcpEventRecv c m (some p) fin conn).2.app.obtained = conn.app.obtained := by
  have hrecv : conn.pcb.cb.recv = .appTcpRecv := by
    rw [h.cb]
    rcases hph with rfl | rfl <;> rfl
  have hfrees : conn.app.frees = 0 := by
    rw [h.frees]
    rcases hph with rfl | rfl <;> rfl
  have hcalls : ∀ call : Call, Alive ph { conn with calls := call :: conn.calls } := fun _ =>
    ⟨h.home, h.state, h.rxClosed, h.cb, h.refused, h.frees, h.unobtained, h.noUse, h.pcbSafe⟩
  unfold Tcp.tcpEventRecv
  rw [hrecv]
  unfold appTcpRecv
  dsimp only
  by_cases harg : conn.pcb.cb.arg = false
  · rw [if_pos harg]
    exact ⟨rfl, hcalls _, rfl, rfl⟩
  · rw [if_neg harg]
    obtain ⟨hobtained, hfrees', hnoUse⟩ := store_spec conn.app p hfrees
    refine ⟨rfl, ⟨h.home, h.state, h.rxClosed, ?_, h.refused, ?_, ?_, hnoUse.trans h.noUse, h.pcbSafe⟩, rfl,
      hobtained⟩
    · rw [hobtained]
      exact h.cb
    · rw [hobtained]
      exact hfrees'.trans (hfrees.symm.trans h.frees)
    · rcases hph with rfl | rfl <;> exact fun heq => Phase.noConfusion heq

/-- The end of `tcp_input` on a block that is on a list. -/
theorem Alive.finish (h : Alive ph conn) : Alive ph (Conn.output c m { conn.deref with inputPcb := false }) := by
  rw [h.deref]
  exact (h.setInputPcb false).output

/-- Without a FIN the phase stays. -/
theorem Alive.deliverFin_false (h : Alive ph conn) : Alive ph (deliverFin c m false conn) := by
  unfold deliverFin
  exact h.finish

/-- The block was used behind its return to the pool. -/
structure UsedAfterFree (app : App) (conn : Conn) : Prop where
  home : conn.home = .freed
  app : conn.app = app
  pcbUsed : conn.pcbUseAfterFree = true

/-- `tcp_output` behind `tcp_close` looks at a block that may be gone. -/
theorem pcbUsed_finish (hhome : conn.home = .freed) :
    (Conn.output c m { conn.deref with inputPcb := false }).pcbUseAfterFree = true := by
  have hfreed : (conn.home == Home.freed) = true := by
    rw [hhome]
    rfl
  have hderef : conn.deref.pcbUseAfterFree = true := by
    unfold Conn.deref
    rw [hfreed, Bool.or_true]
  exact hderef

/-- The FIN for the application: either the connection is closing, or `tcp_close` has freed the block and
`tcp_input` goes on with it. -/
theorem Alive.deliverFin_true (h : Alive .eof conn) :
    (closesWithRst c conn.pcb = false → Alive .closing (deliverFin c m true conn)) ∧
      (closesWithRst c conn.pcb = true →
        UsedAfterFree (conn.app.free conn.app.obtained) (deliverFin c m true conn)) := by
  obtain ⟨herr, hno, hrst⟩ := h.tcpEventClosed (c := c) (m := m)
  unfold deliverFin
  dsimp only
  rw [if_pos rfl, h.deref, h.refused]
  dsimp only
  rw [herr, if_neg (by simp)]
  refine ⟨fun hwnd => (hno hwnd).finish, fun hwnd => ?_⟩
  -- the callback returned `ERR_OK`, so `tcp_output` is called on the block
  have hend := hrst hwnd
  exact ⟨hend.home, hend.app, pcbUsed_finish hend.home⟩

/-- Data go to the application, and the FIN behind them. -/
theorem Alive.deliver_eq (hph : ph = .opened ∨ ph = .eof) (h : Alive ph conn) (fin : Bool) (p : Chain) :
    deliver c m fin (some p) conn = deliverFin c m fin (Tcp.tcpEventRecv c m (some p) fin conn).2 := by
  have herr := (h.tcpEventRecv hph (c := c) (m := m) p fin).1
  have hrx : conn.pcb.flags.rxClosed = false := by
    rw [h.rxClosed]
    rcases hph with rfl | rfl <;> rfl
  unfold deliver
  dsimp only
  rw [hrx, herr]
  simp

/-- The data go to the application, and then the end. -/
theorem Alive.deliver (hph : ph = .opened ∨ ph = .eof) (h : Alive ph conn) (fin : Bool) (p : Chain) :
    ∃ conn₁, Alive ph conn₁ ∧ conn₁.pcb = conn.pcb ∧ deliver c m fin (some p) conn = deliverFin c m fin conn₁ := by
  obtain ⟨-, halive, hpcb, -⟩ := h.tcpEventRecv hph (c := c) (m := m) p fin
  exact ⟨_, halive, hpcb, h.deliver_eq hph fin p⟩

/-! ## The outcomes -/

/-- `tcp_slowtmr` removes the block, or it polls the application, which aborts the connection. -/
def slowtmrRaises (conn : Conn) : Bool :=
  conn.pcb.lastTimer != conn.timerCtr + 1 &&
    (rexmitLimit conn.pcb || stateExpired (conn.ticks + 1) conn.pcb ||
      keepaliveExpired (conn.ticks + 1) conn.pcb || conn.pcb.pollinterval ≤ conn.pcb.polltmr + 1)

/-- The event raises `TCP_EVENT_ERR` on an accepted connection. -/
def raisesErr (conn : Conn) : Event → Bool
  | .segment i _ => i.flags.rst && rstAcceptable i conn.pcb
  | .slowtmr _ => slowtmrRaises conn
  | .fasttmr _ => false
  | .abandon _ => true

/-- The event delivers the end of the stream when `tcp_close` takes the branch that sends a RST. -/
def rstAtFin (c : Config) (conn : Conn) : Event → Bool
  | .segment i m =>
      let r := tcpProcess c m i { conn with inputPcb := true }
      r.gotFin && closesWithRst c r.conn.pcb
  | _ => false

/-- What an event makes of a connection in the phase `ph`. -/
inductive Outcome (c : Config) (ph : Phase) (conn : Conn) (e : Event) (conn' : Conn) : Prop
  | goesOn (ph' : Phase) (alive : Alive ph' conn') (hne : ph' ≠ .eof)
      (hclosing : ph = .closing → ph' = .closing) (calm : ph = .closing → raisesErr conn e = false)
      (noRst : rstAtFin c conn e = false)
  /-- The connection ended, and the application was told by `app_tcp_conn_err`. -/
  | error (ended : Ended (conn.app.free conn.app.obtained) conn') (raises : raisesErr conn e = true)
      (noRst : rstAtFin c conn e = false)
  /-- The connection ended in `LAST_ACK`. -/
  | finished (hph : ph = .closing) (ended : Ended conn.app conn') (calm : raisesErr conn e = false)
      (noRst : rstAtFin c conn e = false)
  /-- `tcp_close` freed the block below `tcp_input`. -/
  | rst (hph : ph ≠ .closing) (app : App) (fresh : app.frees = 0 ∧ app.useAfterFree = false)
      (used : UsedAfterFree (app.free app.obtained) conn') (hrst : rstAtFin c conn e = true)

/-- Before the end the buffer is not freed. -/
theorem Alive.fresh (hph : ph ≠ .closing) (h : Alive ph conn) :
    conn.app.frees = 0 ∧ conn.app.useAfterFree = false := by
  refine ⟨?_, h.noUse⟩
  rw [h.frees]
  cases ph with
  | closing => exact absurd rfl hph
  | _ => rfl

/-! ### Segments -/

/-- **A segment**: what it can make of a connection. -/
theorem Alive.tcpInput (hne : ph ≠ .eof) (h : Alive ph conn) :
    Outcome c ph conn (.segment i m) (tcpInput c m i conn) := by
  have hinput := h.setInputPcb true
  obtain ⟨herr, hspec⟩ := tcpProcess_spec hne hinput (c := c) (m := m) (i := i)
  have hrstAtFin : rstAtFin c conn (.segment i m) =
      ((tcpProcess c m i { conn with inputPcb := true }).gotFin &&
        closesWithRst c (tcpProcess c m i { conn with inputPcb := true }).conn.pcb) := rfl
  unfold Tcp.tcpInput
  dsimp only
  rw [h.refused]
  dsimp only
  generalize tcpProcess c m i { conn with inputPcb := true } = r at herr hspec hrstAtFin
  unfold afterProcess
  rw [herr, if_neg (by simp)]
  cases hspec with
  | reset alive app hr rst noFin =>
      rw [if_pos hr]
      have hend := ended_remove (c := c) (m := m) (tcpEventErr r.conn.pcb.cb r.conn)
        (alive.app_tcpEventErr rfl) ((pcbUseAfterFree_tcpEventErr _ _).trans alive.pcbSafe)
      refine .error ?_ ?_ ?_
      · rw [← app]
        exact ⟨hend.home, hend.app, hend.pcbSafe⟩
      · show (i.flags.rst && rstAcceptable i conn.pcb) = true
        rw [rst.1, rst.2]
        rfl
      · rw [hrstAtFin, noFin]
        rfl
  | closed hph alive app hr hclosed rst noFin =>
      have hrx : r.conn.pcb.flags.rxClosed = true := alive.rxClosed
      have hend := ended_remove (c := c) (m := m) r.conn app alive.pcbSafe
      rw [if_neg (by rw [hr]; decide), if_pos hclosed, if_pos hrx]
      refine .finished hph ⟨hend.home, hend.app, hend.pcbSafe⟩ ?_ ?_
      · show (i.flags.rst && rstAcceptable i conn.pcb) = false
        rw [rst]
        rfl
      · rw [hrstAtFin, noFin]
        rfl
  | fin hph alive hr hopen gotFin =>
      rw [if_neg (by rw [hr]; decide), if_neg (by rw [hopen]; decide), gotFin]
      -- the data go first, and leave the block and the buffer as they are
      have hdata : ∃ conn₁, Alive .eof conn₁ ∧ conn₁.pcb = r.conn.pcb ∧
          Tcp.deliver c m true r.recvData r.conn = deliverFin c m true conn₁ := by
        cases r.recvData with
        | none => exact ⟨r.conn, alive, rfl, rfl⟩
        | some p =>
            obtain ⟨conn₁, halive, hpcb, hdeliver⟩ := alive.deliver (Or.inr rfl) (c := c) (m := m) true p
            exact ⟨conn₁, halive, hpcb, hdeliver⟩
      obtain ⟨conn₁, halive, hpcb, hdeliver⟩ := hdata
      obtain ⟨hclose, hrst⟩ := halive.deliverFin_true (c := c) (m := m)
      rw [hdeliver]
      have hguard : rstAtFin c conn (.segment i m) = closesWithRst c conn₁.pcb := by
        rw [hrstAtFin, gotFin, hpcb, Bool.true_and]
      cases hwnd : closesWithRst c conn₁.pcb with
      | false =>
          exact .goesOn .closing ((hclose hwnd).setInputPcb false) (by decide) (fun _ => rfl)
            (fun heq => absurd heq hph) (hguard.trans hwnd)
      | true =>
          have hused := hrst hwnd
          exact .rst hph conn₁.app (halive.fresh (by decide)) ⟨hused.home, hused.app, hused.pcbUsed⟩
            (hguard.trans hwnd)
  | goesOn ph' alive hne hclosing hr hopen rst noFin noData =>
      rw [if_neg (by rw [hr]; decide), if_neg (by rw [hopen]; decide), noFin]
      have halive : Alive ph' (Tcp.deliver c m false r.recvData r.conn) := by
        cases hdata : r.recvData with
        | none => exact alive.deliverFin_false
        | some p =>
            have hopened : ph' = .opened := by
              by_contra hnot
              rw [noData hnot] at hdata
              cases hdata
            obtain ⟨conn₁, halive, -, hdeliver⟩ :=
              alive.deliver (Or.inl hopened) (c := c) (m := m) false p
            rw [hdeliver]
            exact halive.deliverFin_false
      refine .goesOn ph' (halive.setInputPcb false) hne hclosing (fun _ => ?_) ?_
      · show (i.flags.rst && rstAcceptable i conn.pcb) = false
        exact Bool.eq_false_iff.mpr fun hboth => rst (Bool.and_eq_true_iff.mp hboth)
      · rw [hrstAtFin, noFin]
        rfl

/-! ### The timers -/

/-- The retransmissions of the timer are the sender's. -/
theorem view_slowtmrSend (ticks : UInt32) (pcb : Pcb) : (slowtmrSend c m ticks pcb).view = pcb.view := by
  unfold slowtmrSend
  split
  · rfl
  · split
    · unfold slowtmrPersist
      dsimp only
      split
      · exact view_tcpZeroWindowProbe _ _
      · rfl
    · unfold slowtmrRexmit
      dsimp only
      generalize (if 0 ≤ pcb.snd.rtime then pcb.snd.rtime + 1 else pcb.snd.rtime) = rtime
      split
      · exact view_tcpRexmitRto c _ _ _
      · rfl

/-- Keepalive packets are the sender's. -/
theorem view_slowtmrKeepalive (ticks : UInt32) (pcb : Pcb) :
    (slowtmrKeepalive m ticks pcb).view = pcb.view := by
  unfold slowtmrKeepalive
  split
  · exact view_tcpKeepalive _ _
  · rfl

/-- The timers drop the data out of sequence, and leave the rest of the view. -/
theorem view_slowtmrPcb (ticks : UInt32) (pcb : Pcb) :
    ∃ ooseq, (ooseq = pcb.ooseq ∨ ooseq = []) ∧
      (slowtmrPcb c m ticks pcb).view = { pcb.view with ooseq := ooseq } := by
  have hview : (slowtmrKeepalive m ticks (slowtmrSend c m ticks pcb)).view = pcb.view := by
    rw [view_slowtmrKeepalive, view_slowtmrSend]
  unfold slowtmrPcb slowtmrOoseq
  split
  · refine ⟨[], Or.inr rfl, ?_⟩
    rw [← hview]
    rfl
  · exact ⟨pcb.ooseq, Or.inl rfl, hview⟩

/-- What decides that a connection stays too long in its state. -/
theorem stateExpired_congr {pcb pcb' : Pcb} (ticks : UInt32) (hstate : pcb'.state = pcb.state)
    (hrx : pcb'.flags.rxClosed = pcb.flags.rxClosed) (htmr : pcb'.tmr = pcb.tmr) :
    stateExpired ticks pcb' = stateExpired ticks pcb := by
  unfold stateExpired
  rw [hstate, hrx, htmr]

/-- What decides that the other end does not answer any more. -/
theorem keepaliveExpired_congr {pcb pcb' : Pcb} (ticks : UInt32) (hstate : pcb'.state = pcb.state)
    (hkeep : pcb'.soKeepalive = pcb.soKeepalive) (hidle : pcb'.keepIdle = pcb.keepIdle)
    (htmr : pcb'.tmr = pcb.tmr) : keepaliveExpired ticks pcb' = keepaliveExpired ticks pcb := by
  unfold keepaliveExpired keepaliveOn
  rw [hstate, hkeep, hidle, htmr]

/-- A round of `tcp_slowtmr` for the block, before the limits are looked at. -/
def Conn.afterSlowtmrPcb (c : Config) (m : Mem) (conn : Conn) : Conn :=
  { conn with
    pcb := slowtmrPcb c m (conn.ticks + 1) { conn.pcb with lastTimer := conn.timerCtr + 1 }
    ticks := conn.ticks + 1
    timerCtr := conn.timerCtr + 1 }

/-- The timer's work on the block leaves the phase. -/
theorem Alive.afterSlowtmrPcb (h : Alive ph conn) : Alive ph (conn.afterSlowtmrPcb c m) := by
  obtain ⟨ooseq, -, hview⟩ := view_slowtmrPcb (c := c) (m := m) (conn.ticks + 1)
    { conn.pcb with lastTimer := conn.timerCtr + 1 }
  have hstate : (conn.afterSlowtmrPcb c m).pcb.state = conn.pcb.state := congrArg View.state hview
  refine ⟨h.home, ?_, (congrArg View.rxClosed hview).trans h.rxClosed, (congrArg View.cb hview).trans h.cb,
    (congrArg View.refusedData hview).trans h.refused, h.frees, h.unobtained, h.noUse, h.pcbSafe⟩
  rw [hstate]
  exact h.state

/-- A connection that the timer removes ends, and frees its buffer through the error callback. -/
theorem Alive.slowtmrRemove (h : Alive ph conn) :
    Ended (conn.app.free conn.app.obtained) (slowtmrRemove conn) :=
  h.ended_err ⟨rfl, rfl, h.pcbSafe⟩

/-- An abort in a callback makes the loop start again. -/
theorem activePcbsChanged_tcpAbandon (h : Alive ph conn) : (tcpAbandon c m conn).activePcbsChanged = true := by
  unfold tcpAbandon
  rw [if_neg h.state_ne_timeWait]
  unfold tcpEventErr
  dsimp only
  split <;> rfl

/-- The poll aborts an accepted connection. -/
theorem Alive.slowtmrPoll (h : Alive ph conn) :
    (ph = .connecting ∨ ¬conn.pcb.pollinterval ≤ conn.pcb.polltmr + 1 → Alive ph (slowtmrPoll c m conn)) ∧
      (ph ≠ .connecting → conn.pcb.pollinterval ≤ conn.pcb.polltmr + 1 →
        Ended (conn.app.free conn.app.obtained) (slowtmrPoll c m conn)) := by
  unfold Tcp.slowtmrPoll
  dsimp only
  set conn₁ := conn.onPcb fun pcb => { pcb with polltmr := pcb.polltmr + 1 } with hconn₁
  have h₁ : Alive ph conn₁ := h.onPcb ⟨rfl, rfl, rfl⟩ rfl
  set conn₂ : Conn := { conn₁.onPcb fun pcb => { pcb with polltmr := 0 } with activePcbsChanged := false }
    with hconn₂
  have h₂ : Alive ph conn₂ :=
    ⟨h.home, h.state, h.rxClosed, h.cb, h.refused, h.frees, h.unobtained, h.noUse, h.pcbSafe⟩
  have hunchanged : conn₂.activePcbsChanged = false := rfl
  by_cases hpoll : conn₁.pcb.pollinterval ≤ conn₁.pcb.polltmr
  · rw [if_pos hpoll]
    unfold tcpEventPoll
    have hpollCb : conn₂.pcb.cb.poll = (ph.callbacks conn₂.app.obtained).poll := congrArg _ h₂.cb
    cases ph with
    | connecting =>
        have hnone : conn₂.pcb.cb.poll = false := hpollCb
        rw [hnone]
        refine ⟨fun _ => ?_, fun hne => absurd rfl hne⟩
        have hout := h₂.output (c := c) (m := m)
        simp only [Bool.false_eq_true, if_false]
        rw [if_neg (by rw [hunchanged]; decide), if_pos trivial, h₂.deref]
        exact hout
    | _ =>
        have hsome : conn₂.pcb.cb.poll = true := hpollCb
        rw [hsome]
        refine ⟨fun hor => ?_, fun _ _ => ?_⟩
        · rcases hor with heq | hno
          · cases heq
          · exact absurd hpoll hno
        · have hchanged := activePcbsChanged_tcpAbandon h₂ (c := c) (m := m)
          simp only [if_true, appTcpPoll, tcpAbort]
          rw [if_pos hchanged]
          exact h₂.tcpAbandon
  · rw [if_neg hpoll]
    exact ⟨fun _ => h₁, fun _ hle => absurd hle hpoll⟩

/-- The round of the timer for the connection. -/
theorem Alive.slowtmrActive (hne : ph ≠ .eof) (h : Alive ph conn) :
    Outcome c ph conn (.slowtmr m)
      (slowtmrActive c m { conn with ticks := conn.ticks + 1, timerCtr := conn.timerCtr + 1 }) := by
  have hraises : raisesErr conn (.slowtmr m) = slowtmrRaises conn := rfl
  unfold slowtmrRaises at hraises
  unfold Tcp.slowtmrActive
  dsimp only
  by_cases htimer : conn.pcb.lastTimer = conn.timerCtr + 1
  · rw [if_pos htimer]
    refine .goesOn ph ⟨h.home, h.state, h.rxClosed, h.cb, h.refused, h.frees, h.unobtained, h.noUse, h.pcbSafe⟩
      hne id (fun _ => ?_) rfl
    rw [hraises, htimer]
    simp
  · rw [if_neg htimer]
    rw [bne_iff_ne.mpr htimer, Bool.true_and] at hraises
    -- the timers that send leave what the limits look at
    obtain ⟨ooseq, -, hview⟩ := view_slowtmrPcb (c := c) (m := m) (conn.ticks + 1)
      { conn.pcb with lastTimer := conn.timerCtr + 1 }
    have halive := h.afterSlowtmrPcb (c := c) (m := m)
    unfold Conn.afterSlowtmrPcb at halive
    set pcb := slowtmrPcb c m (conn.ticks + 1) { conn.pcb with lastTimer := conn.timerCtr + 1 } with hpcb
    have hstate : pcb.state = conn.pcb.state := congrArg View.state hview
    have hexpired : stateExpired (conn.ticks + 1) pcb = stateExpired (conn.ticks + 1) conn.pcb :=
      stateExpired_congr _ hstate (congrArg View.rxClosed hview) (congrArg View.tmr hview)
    have hkeepalive : keepaliveExpired (conn.ticks + 1) pcb = keepaliveExpired (conn.ticks + 1) conn.pcb :=
      keepaliveExpired_congr _ hstate (congrArg View.soKeepalive hview) (congrArg View.keepIdle hview)
        (congrArg View.tmr hview)
    have hpoll : pcb.pollinterval ≤ pcb.polltmr + 1 ↔ conn.pcb.pollinterval ≤ conn.pcb.polltmr + 1 := by
      rw [show pcb.pollinterval = conn.pcb.pollinterval from congrArg View.pollinterval hview,
        show pcb.polltmr = conn.pcb.polltmr from congrArg View.polltmr hview]
    by_cases hlimit : (rexmitLimit conn.pcb || stateExpired (conn.ticks + 1) pcb ||
        keepaliveExpired (conn.ticks + 1) pcb) = true
    · have hend := halive.slowtmrRemove
      refine .error ?_ ?_ rfl
      · unfold Conn.onPcb
        rw [if_pos hlimit]
        exact hend
      · rw [hraises, ← hexpired, ← hkeepalive, hlimit]
        rfl
    · obtain ⟨hstay, hend⟩ := halive.slowtmrPoll (c := c) (m := m)
      have hraises' : raisesErr conn (.slowtmr m) = decide (conn.pcb.pollinterval ≤ conn.pcb.polltmr + 1) := by
        rw [hraises, ← hexpired, ← hkeepalive, eq_false_of_ne_true hlimit, Bool.false_or]
      unfold Conn.onPcb
      rw [if_neg hlimit]
      by_cases hconnecting : ph = .connecting
      · refine .goesOn ph (hstay (Or.inl hconnecting)) hne id (fun heq => ?_) rfl
        rw [hconnecting] at heq
        cases heq
      · by_cases hdue : conn.pcb.pollinterval ≤ conn.pcb.polltmr + 1
        · exact .error (hend hconnecting (hpoll.mpr hdue)) (hraises'.trans (decide_eq_true hdue)) rfl
        · exact .goesOn ph (hstay (Or.inr fun hle => hdue (hpoll.mp hle))) hne id
            (fun _ => hraises'.trans (decide_eq_false hdue)) rfl

/-- **A slow tick**: what it can make of a connection. -/
theorem Alive.tcpSlowtmr (hne : ph ≠ .eof) (h : Alive ph conn) :
    Outcome c ph conn (.slowtmr m) (tcpSlowtmr c m conn) := by
  have hhome := h.home
  unfold Tcp.tcpSlowtmr
  dsimp only
  split
  · exact h.slowtmrActive hne
  · rename_i htimeWait
    rw [hhome] at htimeWait
    cases htimeWait
  · rename_i hactive _
    exact absurd hhome hactive

/-- With no data refused, `tcp_fasttmr` sends the delayed acknowledgement and that is all. -/
theorem tcpFasttmr_eq (hhome : conn.home = .active) (hrefused : conn.pcb.refusedData = none) :
    tcpFasttmr c m conn =
      if conn.pcb.lastTimer = conn.timerCtr + 1 then { conn with timerCtr := conn.timerCtr + 1 }
      else if conn.pcb.flags.ackDelay then
        (Conn.output c m { conn with
          pcb := tcpAckNow { conn.pcb with lastTimer := conn.timerCtr + 1 }
          timerCtr := conn.timerCtr + 1 }).onPcb fun pcb =>
            { pcb with flags := { pcb.flags with ackDelay := false, ackNow := false } }
      else
        { conn with
          pcb := { conn.pcb with lastTimer := conn.timerCtr + 1 }
          timerCtr := conn.timerCtr + 1 } := by
  unfold Tcp.tcpFasttmr
  dsimp only
  rw [if_pos hhome]
  unfold fasttmrActive
  dsimp only
  by_cases htimer : conn.pcb.lastTimer = conn.timerCtr + 1
  · rw [if_pos htimer, if_pos htimer]
  rw [if_neg htimer, if_neg htimer]
  by_cases hack : conn.pcb.flags.ackDelay = true
  · -- what the acknowledgement changes is not the refused data
    have hview := view_tcpOutput c conn.ticks conn.inputPcb m.outAlloc
      (tcpAckNow { conn.pcb with lastTimer := conn.timerCtr + 1 })
    have hnone := (congrArg View.refusedData hview).trans hrefused
    simp only [Conn.onPcb, hack, if_true]
    split
    · rfl
    · rename_i heq
      exact absurd (hnone.symm.trans heq) (by simp)
  · simp only [Conn.onPcb, hack, Bool.false_eq_true, if_false, hrefused]

/-- No data are ever refused, so `tcp_fasttmr` only sends what was delayed. -/
theorem Alive.tcpFasttmr (hne : ph ≠ .eof) (h : Alive ph conn) :
    Outcome c ph conn (.fasttmr m) (tcpFasttmr c m conn) := by
  refine .goesOn ph ?_ hne id (fun _ => rfl) rfl
  have htick : Alive ph { conn with timerCtr := conn.timerCtr + 1 } :=
    ⟨h.home, h.state, h.rxClosed, h.cb, h.refused, h.frees, h.unobtained, h.noUse, h.pcbSafe⟩
  rw [tcpFasttmr_eq h.home h.refused]
  split
  · exact htick
  · have htimer := htick.onPcb (f := fun pcb => { pcb with lastTimer := conn.timerCtr + 1 }) ⟨rfl, rfl, rfl⟩ rfl
    have hsent := (htimer.of_view (f := tcpAckNow) rfl).output (c := c) (m := m)
    have hacked := hsent.onPcb (f := fun pcb =>
      { pcb with flags := { pcb.flags with ackDelay := false, ackNow := false } }) ⟨rfl, rfl, rfl⟩ rfl
    split
    · exact hacked
    · exact htimer

/-- A segment on an active connection goes through `tcp_input`. -/
theorem step_segment {i : InSeg} {m : Mem} (hhome : conn.home = .active) :
    Tcp.step c conn (.segment i m) = some (Tcp.tcpInput c m i conn) := by
  unfold Tcp.step
  rw [hhome]

/-- **Every event of a connection in a phase.** -/
theorem Alive.step {e : Event} (hne : ph ≠ .eof) (h : Alive ph conn) (hs : step c conn e = some conn') :
    Outcome c ph conn e conn' := by
  have hfreed : conn.home ≠ .freed := by
    rw [h.home]
    decide
  cases e with
  | segment i m =>
      obtain rfl := Option.some.inj ((step_segment h.home).symm.trans hs)
      exact h.tcpInput hne
  | slowtmr m =>
      obtain rfl := Option.some.inj ((if_neg hfreed).symm.trans hs)
      exact h.tcpSlowtmr hne
  | fasttmr m =>
      obtain rfl := Option.some.inj ((if_neg hfreed).symm.trans hs)
      exact h.tcpFasttmr hne
  | abandon m =>
      obtain rfl := Option.some.inj ((if_neg hfreed).symm.trans hs)
      exact .error h.tcpAbandon rfl rfl

end BareMetal.Tcp
