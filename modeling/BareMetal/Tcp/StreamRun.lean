import BareMetal.Tcp.RecvBuffer
import BareMetal.Tcp.StreamReceive

/-! # The application gets the stream

From the SYN to the end of the connection, the buffer of the application holds the first bytes that the other end sends, whatever
happens to its segments on the way. -/

namespace BareMetal.Tcp

variable {c : Config} {m : Mem} {i : InSeg} {ph : Phase} {conn conn' : Conn} {σ : Peer} {n n' : ℕ} {app : App}

/-! ## The buffer -/

/-- The buffer holds what fits of the first `n` bytes. -/
def Stored (σ : Peer) (n : ℕ) (app : App) : Prop :=
  app.bytes = if app.obtained then (σ.data.take n).take maxString else []

/-- What the application has is the front of the stream. -/
theorem Stored.isPrefix (h : Stored σ n app) : app.bytes <+: σ.data := by
  rw [h]
  split
  · exact (List.take_prefix _ _).trans (List.take_prefix _ _)
  · exact List.nil_prefix

/-- Behind the bytes stored so far comes what `tcp_receive` hands on. -/
theorem take_append_slice (hle : n ≤ n') (l : List UInt8) : l.take n ++ slice l n n' = l.take n' := by
  have hzero : ∀ k, slice l 0 k = l.take k := fun k => rfl
  rw [← hzero, ← hzero, slice_append (Nat.zero_le n) hle]

/-- `app_tcp_recv` puts what comes next behind what it has, as far as there is room. -/
theorem Stored.store (h : Stored σ n app) (hle : n ≤ n') (hobtained : app.obtained = true) {p : Chain}
    (hfrees : app.frees = 0) (htext : p.flatten = slice σ.data n n') : Stored σ n' (app.store p) := by
  have hstored : app.bytes = (σ.data.take n).take maxString := by
    rw [h, if_pos hobtained]
  have hbytes := RecvBuffer.bytes_store app (σ.data.take n) p hstored
  rw [htext, take_append_slice hle] at hbytes
  rw [Stored, (store_spec app p hfrees).1, if_pos hobtained, hbytes]

/-- Only the bytes and the buffer count. -/
theorem Stored.congr {app' : App} (h : Stored σ n app) (hbytes : app'.bytes = app.bytes)
    (hobtained : app'.obtained = app.obtained) : Stored σ n app' := by
  rw [Stored, hbytes, hobtained]
  exact h

/-- Nothing is stored when nothing is handed on. -/
theorem Stored.skip (h : Stored σ n app) (hle : n ≤ n') (htext : slice σ.data n n' = []) : Stored σ n' app := by
  rw [Stored, ← take_append_slice hle, htext, List.append_nil]
  exact h

/-- The application keeps its buffer, or passes it to `mem_free`. -/
structure SameStore (conn conn' : Conn) : Prop where
  bytes : conn'.app.bytes = conn.app.bytes
  obtained : conn'.app.obtained = conn.app.obtained

/-- What two calls keep, both of them keep. -/
theorem SameStore.trans {conn'' : Conn} (h : SameStore conn conn') (h' : SameStore conn' conn'') : SameStore conn conn'' :=
  ⟨h'.bytes.trans h.bytes, h'.obtained.trans h.obtained⟩

/-- The application was not called. -/
theorem SameStore.of_app (h : conn'.app = conn.app) : SameStore conn conn' :=
  ⟨congrArg App.bytes h, congrArg App.obtained h⟩

/-- `mem_free` does not change the bytes. -/
theorem SameStore.of_free {b : Bool} (h : conn'.app = conn.app.free b) : SameStore conn conn' := by
  refine ⟨?_, ?_⟩
  · rw [h]
    unfold App.free
    split <;> rfl
  · rw [h, obtained_free]

/-- `app_tcp_conn_err` only frees the buffer. -/
theorem sameStore_tcpEventErr (cb : Callbacks) (conn : Conn) : SameStore conn (tcpEventErr cb conn) := by
  unfold tcpEventErr
  split
  · exact .of_free rfl
  · exact .of_app rfl

/-- `tcp_close` does not call the application. -/
theorem sameStore_tcpClose (conn : Conn) : SameStore conn (tcpClose c m conn).2 := by
  apply SameStore.of_app
  unfold tcpClose
  set conn₁ := if conn.pcb.state ≠ .listen then
      conn.onPcb fun pcb => { pcb with flags := { pcb.flags with rxClosed := true } }
    else conn with hconn₁
  have happ : conn₁.app = conn.app := by
    rw [hconn₁]
    split <;> rfl
  have hfin : ∀ state, (sendFinTo c m state conn₁).2.app = conn₁.app := fun state => by
    unfold sendFinTo
    dsimp only
    split <;> rfl
  rw [← happ]
  dsimp only
  unfold tcpCloseShutdown
  dsimp only
  split
  · split <;> rfl
  · split
    · rfl
    · exact app_tcpPcbRemove conn₁
    · exact app_tcpPcbRemove conn₁
    · exact hfin _
    · exact hfin _
    · exact hfin _
    · rfl

/-- The end of the stream frees the buffer, and changes no byte of it. -/
theorem Alive.sameStore_deliverFin (h : Alive .eof conn) : SameStore conn (deliverFin c m true conn) := by
  have hrecv := h.recv_eq (by decide)
  have hclosed : SameStore conn (Tcp.tcpEventClosed c m conn).2 := by
    unfold Tcp.tcpEventClosed
    dsimp only
    set conn₁ := if conn.pcb.rcv.rcvWnd ≠ c.tcpWnd then
        conn.onPcb fun pcb => { pcb with rcv := { pcb.rcv with rcvWnd := pcb.rcv.rcvWnd + 1 } }
      else conn with hconn₁
    have happ : conn₁.app = conn.app := by
      rw [hconn₁]
      split <;> rfl
    have hrecv₁ : conn₁.pcb.cb.recv = .appTcpRecv := by
      rw [hconn₁]
      split <;> exact hrecv
    unfold Tcp.tcpEventRecv
    rw [hrecv₁]
    unfold appTcpRecv
    dsimp only
    rw [if_pos rfl]
    have hfree : SameStore conn { conn₁ with app := conn₁.app.free conn₁.pcb.cb.arg } := by
      refine (SameStore.of_app happ).trans ?_
      exact .of_free rfl
    have hclose := hfree.trans (sameStore_tcpClose (c := c) (m := m) _)
    exact ⟨hclose.bytes, hclose.obtained⟩
  unfold deliverFin
  dsimp only
  rw [if_pos rfl, h.deref, h.refused]
  dsimp only
  rw [(h.tcpEventClosed (c := c) (m := m)).1, if_neg (by simp)]
  exact ⟨hclosed.bytes, hclosed.obtained⟩

/-- The data go behind those stored so far. -/
theorem Alive.stored_tcpEventRecv (hph : ph = .opened ∨ ph = .eof) (h : Alive ph conn) (hstored : Stored σ n conn.app)
    (hle : n ≤ n') {p : Chain} (htext : p.flatten = slice σ.data n n') (fin : Bool) :
    Stored σ n' (Tcp.tcpEventRecv c m (some p) fin conn).2.app := by
  have hrecv : conn.pcb.cb.recv = .appTcpRecv := h.recv_eq (by rcases hph with rfl | rfl <;> decide)
  have harg : conn.pcb.cb.arg = conn.app.obtained := by
    rw [h.cb]
    rcases hph with rfl | rfl <;> rfl
  have hfrees : conn.app.frees = 0 := by
    rw [h.frees]
    rcases hph with rfl | rfl <;> rfl
  unfold Tcp.tcpEventRecv
  rw [hrecv]
  unfold appTcpRecv
  dsimp only
  rw [harg]
  split
  · rename_i hnone
    rw [Stored, if_neg (ne_of_eq_of_ne hnone Bool.false_ne_true)] at hstored ⊢
    exact hstored
  · rename_i hobtained
    exact hstored.store hle (eq_true_of_ne_false hobtained) hfrees htext

/-! ## The mark of `tcp_close` -/

/-- Purging a block leaves its mark. -/
theorem rxClosed_tcpPcbPurge (pcb : Pcb) : (tcpPcbPurge pcb).flags.rxClosed = pcb.flags.rxClosed := by
  unfold tcpPcbPurge
  split <;> rfl

/-- Removing a block leaves its mark. -/
theorem rxClosed_tcpPcbRemove (conn : Conn) :
    (tcpPcbRemove c m conn).pcb.flags.rxClosed = conn.pcb.flags.rxClosed := by
  unfold tcpPcbRemove
  dsimp only
  split
  · refine (congrArg View.rxClosed (view_tcpOutput c _ _ _ _)).trans ?_
    exact (congrArg View.rxClosed (view_tcpAckNow _)).trans (rxClosed_tcpPcbPurge conn.pcb)
  · exact rxClosed_tcpPcbPurge conn.pcb

/-- The error callback does not see the block. -/
theorem rxClosed_tcpEventErr (cb : Callbacks) (conn : Conn) :
    (tcpEventErr cb conn).pcb.flags.rxClosed = conn.pcb.flags.rxClosed := by
  unfold tcpEventErr
  split <;> rfl

/-- A connection that is abandoned is not marked. -/
theorem rxClosed_tcpAbandon (conn : Conn) : (tcpAbandon c m conn).pcb.flags.rxClosed = conn.pcb.flags.rxClosed := by
  unfold tcpAbandon
  split
  · exact rxClosed_tcpPcbRemove conn
  · exact (rxClosed_tcpEventErr _ _).trans (rxClosed_tcpPcbRemove conn)

/-- A connection that `tcp_slowtmr` removes is not marked. -/
theorem rxClosed_slowtmrRemove (conn : Conn) : (slowtmrRemove conn).pcb.flags.rxClosed = conn.pcb.flags.rxClosed :=
  (rxClosed_tcpEventErr _ _).trans (rxClosed_tcpPcbPurge conn.pcb)

/-- `tcp_close` has not marked a block that waits for data. -/
theorem Alive.not_rxClosed (h : Alive ph conn) (hne : ph ≠ .closing) : conn.pcb.flags.rxClosed = false :=
  h.rxClosed.trans (beq_false_of_ne hne)

/-! ## `tcp_process` -/

/-- `tcp_process` found the first `n` places and has received the first `n'`; the application has not been told yet. -/
structure ProcessedTo (σ : Peer) (n n' : ℕ) (conn : Conn) (r : Processed) : Prop where
  receiving : Receiving σ n' r.conn.pcb
  ge : n ≤ n'
  le : n' ≤ σ.data.length + 1
  text : recvText r.recvData = slice σ.data n n'
  fin : r.gotFin = decide (n' = σ.data.length + 1)
  state : r.gotFin = false → r.conn.pcb.state = conn.pcb.state ∨ r.conn.pcb.state = .established
  stored : Stored σ n conn.app → Stored σ n r.conn.app

/-- A segment that changes nothing for the receiver leaves it where it was. -/
theorem processedTo_idle {r : Processed} (h : Receiving σ n conn.pcb) (hopen : n ≤ σ.data.length)
    (hview : r.conn.pcb.view = conn.pcb.view) (happ : r.conn.app = conn.app) (hfin : r.gotFin = false)
    (hdata : r.recvData = none) : ProcessedTo σ n n conn r := by
  refine ⟨h.of_view hview, Nat.le_refl n, Nat.le_succ_of_le hopen, ?_, ?_, fun _ => Or.inl (congrArg View.state hview),
    fun hstored => ?_⟩
  · rw [hdata, slice_self]
    rfl
  · rw [hfin]
    exact (decide_eq_false (Nat.ne_of_lt (Nat.lt_succ_of_le hopen))).symm
  · rw [happ]
    exact hstored

/-- The end of `tcp_process` changes neither the queue nor the number that it waits for. -/
theorem ReceivedTo.processedTo {goal : ℕ} {r : Received} {r' : Processed} (h : ReceivedTo σ n goal n' r)
    (hrcvNxt : r'.conn.pcb.rcv.rcvNxt = r.pcb.rcv.rcvNxt) (hooseq : r'.conn.pcb.ooseq = r.pcb.ooseq)
    (hfin : r'.gotFin = r.gotFin) (hdata : r'.recvData = r.recvData)
    (hstate : r.gotFin = false → r'.conn.pcb.state = .established)
    (hstored : Stored σ n conn.app → Stored σ n r'.conn.app) : ProcessedTo σ n n' conn r' :=
  ⟨h.receiving.congr hrcvNxt hooseq, h.took.ge, h.took.le, hdata ▸ h.took.text, hfin ▸ h.took.fin,
    fun hno => Or.inr (hstate (hfin ▸ hno)), hstored⟩

/-- As long as there is no FIN the state stays. -/
theorem ReceivedFrom.state_established {pcb : Pcb} {r : Received} (h : ReceivedFrom pcb r) (hstate : pcb.state = .established)
    (hfin : r.gotFin = false) : r.pcb.state = .established := by
  rcases h.state with hs | ⟨-, -, hgot⟩
  · exact hs.trans hstate
  · exact absurd (hfin.symm.trans hgot) (by decide)

/-- What the other end sends: a RST, its SYN again, a segment without text, or a piece of its stream that comes in time. -/
def FromPeer (σ : Peer) (conn : Conn) : Event → Prop
  | .segment i _ =>
      i.flags.rst = true ∨ i.flags.syn = true ∧ i.flags.ack = false ∨ i.tcplen = 0 ∨
        σ.Piece (seqOffset σ.irs i.seqno) i.seg ∧
          Timely (seqOffset σ.irs conn.pcb.rcv.rcvNxt) (seqOffset σ.irs i.seqno) ∧ NoWrap conn.pcb
  | _ => True

instance decidablePiece (σ : Peer) (a : ℕ) (seg : Seg) : Decidable (σ.Piece a seg) :=
  decidable_of_iff (seg.seqno = seqNo σ.irs a ∧ seg.len.toNat = seg.p.totLen ∧
      seg.p.flatten = slice σ.data a (a + seg.len.toNat) ∧ a + seg.len.toNat ≤ σ.data.length ∧
      (seg.flags.fin = true → a + seg.len.toNat = σ.data.length) ∧ seg.flags.syn = false ∧ seg.len.toNat + 1 < 0x10000)
    ⟨fun ⟨h₁, h₂, h₃, h₄, h₅, h₆, h₇⟩ => ⟨h₁, h₂, h₃, h₄, h₅, h₆, h₇⟩,
      fun h => ⟨h.seqno, h.len, h.text, h.le, h.fin, h.syn, h.short⟩⟩

instance decidableTimely (n a : ℕ) : Decidable (Timely n a) :=
  inferInstanceAs (Decidable (n + 0x20000 ≤ a + 0x80000000 ∧ a + 0x20000 ≤ n + 0x80000000))

instance decidableNoWrap (pcb : Pcb) : Decidable (NoWrap pcb) :=
  inferInstanceAs (Decidable (pcb.ooseq = [] ∨ pcb.rcv.rcvNxt.toNat + pcb.rcv.rcvWnd.toNat < 0x100000000))

instance decidableFromPeer (σ : Peer) (conn : Conn) : (e : Event) → Decidable (FromPeer σ conn e)
  | .segment i _ => inferInstanceAs (Decidable (i.flags.rst = true ∨ i.flags.syn = true ∧ i.flags.ack = false ∨
      i.tcplen = 0 ∨ σ.Piece (seqOffset σ.irs i.seqno) i.seg ∧
        Timely (seqOffset σ.irs conn.pcb.rcv.rcvNxt) (seqOffset σ.irs i.seqno) ∧ NoWrap conn.pcb))
  | .slowtmr _ | .fasttmr _ | .abandon _ => isTrue trivial

/-- The ACK that ends the handshake may bring the first data. -/
theorem processSynRcvd_processedTo (h : Receiving σ 0 conn.pcb)
    (hcomes : i.flags.ack = true → Comes σ 0 i conn.pcb) :
    ∃ n', ProcessedTo σ 0 n' conn (processSynRcvd c m i conn) := by
  have hidle : ProcessedTo σ 0 0 conn { conn := conn } := processedTo_idle h (Nat.zero_le _) rfl rfl rfl rfl
  unfold processSynRcvd
  split
  · rename_i hack
    split
    · dsimp only
      set accepted := appTcpAccept m .ok (conn.onPcb fun pcb => { pcb with state := .established }) with haccepted
      have herr : accepted.1 = .ok := rfl
      have haccept : Receiving σ 0 accepted.2.pcb := h.congr rfl rfl
      obtain ⟨n', hn', -⟩ := tcpReceive_receivedTo (c := c) conn.ticks m.ackAlloc m.copied haccept (Nat.zero_le _) rfl
        (hcomes hack)
      rw [herr, if_neg (by simp)]
      have hspec := tcpReceive_spec c conn.ticks m.ackAlloc m.copied i accepted.2.pcb
      refine ⟨n', hn'.processedTo ?_ ?_ rfl rfl (fun hfin => ?_) fun _ => ?_⟩
      · split <;> rfl
      · split <;> rfl
      · have hopened := hspec.state_established rfl hfin
        split
        · rename_i hgot
          exact absurd (hfin.symm.trans hgot) (by decide)
        · exact hopened
      · have hempty : ∀ b, (if b = true then (σ.data.take 0).take maxString else []) = ([] : List UInt8) := fun b => by
          split <;> simp
        split
        · exact (hempty _).symm
        · exact (hempty _).symm
    · exact ⟨0, hidle⟩
  · split
    · exact ⟨0, processedTo_idle h (Nat.zero_le _) (view_tcpRexmit conn.pcb) rfl rfl rfl⟩
    · exact ⟨0, hidle⟩

/-- An open connection gets at least as far as a piece in sequence reaches. -/
theorem processSynchronized_processedTo (h : Receiving σ n conn.pcb) (hopen : n ≤ σ.data.length)
    (hstate : conn.pcb.state = .established) (hcomes : Comes σ n i conn.pcb) :
    ∃ n', ProcessedTo σ n n' conn (processSynchronized c m i conn) ∧
      ∀ a, σ.Piece a i.seg → Timely n a → reachable n conn.pcb.rcv.rcvWnd.toNat a i.tcplen.toNat ≤ n' := by
  have hlt : conn.pcb.state.ltCloseWait = true := by
    rw [hstate]
    rfl
  obtain ⟨n', hn', hgoal⟩ :=
    tcpReceive_receivedTo (c := c) conn.ticks m.ackAlloc m.copied h hopen hlt hcomes
  refine ⟨n', ?_, hgoal⟩
  unfold processSynchronized
  rw [hstate]
  dsimp only
  have hspec := tcpReceive_spec c conn.ticks m.ackAlloc m.copied i conn.pcb
  refine hn'.processedTo ?_ ?_ rfl rfl (fun hfin => ?_) fun hstored => ?_
  · split <;> rfl
  · split <;> rfl
  · have hopened := hspec.state_established hstate hfin
    split
    · rename_i hgot
      exact absurd (hfin.symm.trans hgot) (by decide)
    · exact hopened
  · split <;> exact hstored

/-- Where a connection is in the stream; behind the end when the application was told of it, also when the block is gone. -/
structure Reached (σ : Peer) (n : ℕ) (conn : Conn) : Prop where
  le : n ≤ σ.data.length + 1
  stored : Stored σ n conn.app
  fresh : conn.home = .active → conn.pcb.state = .synRcvd → n = 0
  receiving : conn.home = .active → conn.pcb.state.ltCloseWait = true → n ≤ σ.data.length ∧ Receiving σ n conn.pcb
  ended : conn.pcb.flags.rxClosed = true → n = σ.data.length + 1

/-- The number that the block waits for is the one of its place. -/
theorem Receiving.seqOffset_rcvNxt {pcb : Pcb} (h : Receiving σ n pcb) (hlong : n < 0x100000000) :
    seqOffset σ.irs pcb.rcv.rcvNxt = n := by
  have hzero : seqNo σ.irs 0 = σ.irs := UInt32.add_zero σ.irs
  have hsub : seqNo σ.irs n - seqNo σ.irs 0 = UInt32.ofNat (n - 0) := seqNo_sub (Nat.zero_le n)
  rw [hzero] at hsub
  rw [seqOffset, h.rcvNxt, hsub, UInt32.toNat_ofNat']
  exact Nat.mod_eq_of_lt hlong

/-- What the other end sends comes to `tcp_receive` as such a piece. -/
theorem FromPeer.comes (h : FromPeer σ conn (.segment i m)) (hrst : ¬i.flags.rst = true)
    (hsyn : ¬(i.flags.syn = true ∧ i.flags.ack = false)) (hreceiving : Receiving σ n conn.pcb)
    (hlong : n < 0x100000000) : Comes σ n i conn.pcb := by
  rcases h with hflag | hflag | hempty | ⟨hseg, htimely, hwrap⟩
  · exact absurd hflag hrst
  · exact absurd hflag hsyn
  · exact Or.inl hempty
  · rw [hreceiving.seqOffset_rcvNxt hlong] at htimely
    exact Or.inr ⟨_, hseg, htimely, hwrap⟩

/-- `tcp_process` on a connection whose other end is open. -/
theorem Alive.tcpProcess_processedTo (hph : ph = .connecting ∨ ph = .opened) (h : Alive ph conn) (hr : Reached σ n conn)
    (hlong : σ.data.length < 0x100000000) (hpeer : FromPeer σ conn (.segment i m)) :
    ∃ n', ProcessedTo σ n n' conn (Tcp.tcpProcess c m i conn) ∧ (ph = .opened → i.flags.rst = false →
      ∀ a, σ.Piece a i.seg → Timely n a → reachable n conn.pcb.rcv.rcvWnd.toNat a i.tcplen.toNat ≤ n') := by
  have hlt : conn.pcb.state.ltCloseWait = true := by
    have hs := h.state
    rcases hph with rfl | rfl
    · rw [show conn.pcb.state = .synRcvd from hs]
      rfl
    · rw [show conn.pcb.state = .established from hs]
      rfl
  obtain ⟨hopen, hreceiving⟩ := hr.receiving h.home hlt
  have hcommon : Receiving σ n (Tcp.processCommon c i conn).pcb := hreceiving.congr rfl rfl
  unfold Tcp.tcpProcess
  by_cases hrst : i.flags.rst = true
  · rw [if_pos hrst]
    refine ⟨n, ?_, fun _ hno => absurd (hrst.symm.trans hno) (by decide)⟩
    split
    · exact processedTo_idle hreceiving hopen rfl rfl rfl rfl
    · exact processedTo_idle hreceiving hopen rfl rfl rfl rfl
  rw [if_neg hrst]
  by_cases hsyn : i.flags.syn = true ∧ conn.pcb.state ≠ .synSent ∧ conn.pcb.state ≠ .synRcvd
  · rw [if_pos hsyn]
    refine ⟨n, processedTo_idle hreceiving hopen (view_tcpAckNow conn.pcb) rfl rfl rfl, fun _ _ a hseg _ => ?_⟩
    exact absurd (hsyn.1.symm.trans hseg.syn) (by decide)
  rw [if_neg hsyn]
  dsimp only
  rcases hph with rfl | rfl
  · -- nothing was received before the handshake ends
    have hstate : (Tcp.processCommon c i conn).pcb.state = .synRcvd := h.state
    obtain rfl := hr.fresh h.home h.state
    obtain ⟨n', hn'⟩ := processSynRcvd_processedTo (c := c) (m := m) hcommon fun hack =>
      hpeer.comes hrst (fun hflag => absurd (hack.symm.trans hflag.2) (by decide)) hreceiving (by omega)
    rw [hstate]
    exact ⟨n', ⟨hn'.receiving, hn'.ge, hn'.le, hn'.text, hn'.fin, hn'.state, hn'.stored⟩, fun heq => by cases heq⟩
  · have hstate : (Tcp.processCommon c i conn).pcb.state = .established := h.state
    have hstate' : conn.pcb.state = .established := h.state
    have hnoSyn : ¬(i.flags.syn = true ∧ i.flags.ack = false) := fun hflag =>
      hsyn ⟨hflag.1, by rw [hstate']; decide, by rw [hstate']; decide⟩
    obtain ⟨n', hn', hgoal⟩ := processSynchronized_processedTo (c := c) (m := m) hcommon hopen hstate
      (hpeer.comes hrst hnoSyn hreceiving (by omega))
    rw [hstate]
    exact ⟨n', ⟨hn'.receiving, hn'.ge, hn'.le, hn'.text, hn'.fin, hn'.state, hn'.stored⟩, fun _ _ => hgoal⟩

/-! ## `tcp_input` -/

/-- The block is gone; the buffer stays. -/
theorem Reached.of_freed (hle : n ≤ σ.data.length + 1) (hstored : Stored σ n conn.app) (hfreed : conn.home = .freed)
    (hended : conn.pcb.flags.rxClosed = true → n = σ.data.length + 1) : Reached σ n conn := by
  have hno : ¬conn.home = .active := ne_of_eq_of_ne hfreed (by decide)
  exact ⟨hle, hstored, fun hactive => absurd hactive hno, fun hactive => absurd hactive hno,
    hended⟩

/-- The application was told of the end. -/
theorem Reached.of_closing (hstored : Stored σ (σ.data.length + 1) conn.app) (h : Alive .closing conn) :
    Reached σ (σ.data.length + 1) conn := by
  have hclosed : conn.pcb.state.ltCloseWait = false := by
    rcases h.state with hs | hs <;> rw [hs] <;> rfl
  refine ⟨Nat.le_refl _, hstored, fun _ hstate => ?_, fun _ hlt => ?_, fun _ => rfl⟩
  · rcases h.state with hs | hs <;> exact absurd (hs.symm.trans hstate) (by decide)
  · exact absurd (hclosed.symm.trans hlt) (by decide)

/-- The other end may go on sending. -/
theorem Reached.of_open (hph : ph = .connecting ∨ ph = .opened) (h : Alive ph conn) (hopen : n ≤ σ.data.length)
    (hstored : Stored σ n conn.app) (hreceiving : Receiving σ n conn.pcb) (hfresh : ph = .connecting → n = 0) :
    Reached σ n conn := by
  have hs := h.state
  refine ⟨Nat.le_succ_of_le hopen, hstored, fun _ hstate => ?_, fun _ _ => ⟨hopen, hreceiving⟩, fun hrx => ?_⟩
  · rcases hph with rfl | rfl
    · exact hfresh rfl
    · exact absurd ((show conn.pcb.state = .established from hs).symm.trans hstate) (by decide)
  · have hnot := h.not_rxClosed (by rcases hph with rfl | rfl <;> decide)
    exact absurd (hrx.symm.trans hnot) (by decide)

/-- The FIN takes the last place. -/
theorem ended_of_fin {r : Processed} (h : ProcessedTo σ n n' conn r) (hfin : r.gotFin = true) : n' = σ.data.length + 1 :=
  of_decide_eq_true (h.fin.symm.trans hfin)

/-- Without the FIN the end is not reached. -/
theorem open_of_noFin {r : Processed} (h : ProcessedTo σ n n' conn r) (hfin : r.gotFin = false) : n' ≤ σ.data.length := by
  have hne : n' ≠ σ.data.length + 1 := of_decide_eq_false (h.fin.symm.trans hfin)
  have hle := h.le
  omega

/-- In these states the other end has not closed. -/
theorem Alive.open_of_state (h : Alive ph conn) (hne : ph ≠ .eof)
    (hstate : conn.pcb.state = .synRcvd ∨ conn.pcb.state = .established) : ph = .connecting ∨ ph = .opened := by
  have hs := h.state
  cases ph with
  | connecting => exact Or.inl rfl
  | opened => exact Or.inr rfl
  | eof => exact absurd rfl hne
  | closing =>
      rcases hs with hs | hs <;> rw [hs] at hstate <;> rcases hstate with hstate | hstate <;> cases hstate

/-- The data go to the application first. -/
theorem exists_deliver {r : Processed} (hph : r.recvData ≠ none → ph = .opened ∨ ph = .eof) (h : Alive ph r.conn)
    (hto : ProcessedTo σ n n' conn r) (hstored : Stored σ n conn.app) (fin : Bool) :
    ∃ conn₁, Alive ph conn₁ ∧ conn₁.pcb = r.conn.pcb ∧ Stored σ n' conn₁.app ∧
      deliver c m fin r.recvData r.conn = deliverFin c m fin conn₁ := by
  have htext := hto.text
  have hstored' := hto.stored hstored
  cases hdata : r.recvData with
  | none =>
      rw [hdata] at htext
      exact ⟨r.conn, h, rfl, hstored'.skip hto.ge htext.symm, rfl⟩
  | some p =>
      rw [hdata] at hph htext
      have hor := hph (Option.some_ne_none p)
      obtain ⟨-, halive, hpcb, -⟩ := h.tcpEventRecv hor (c := c) (m := m) p fin
      exact ⟨_, halive, hpcb, h.stored_tcpEventRecv hor hstored' hto.ge htext fin, h.deliver_eq hor fin p⟩

/-- `tcp_input` on a connection whose other end is open. -/
theorem Alive.reached_segment (hph : ph = .connecting ∨ ph = .opened) (h : Alive ph conn) (hr : Reached σ n conn)
    (hlong : σ.data.length < 0x100000000) (hpeer : FromPeer σ conn (.segment i m)) :
    ∃ n', Reached σ n' (Tcp.tcpInput c m i conn) ∧ (ph = .opened → i.flags.rst = false →
      ∀ a, σ.Piece a i.seg → Timely n a → reachable n conn.pcb.rcv.rcvWnd.toNat a i.tcplen.toNat ≤ n') := by
  have hne : ph ≠ .eof := by rcases hph with rfl | rfl <;> decide
  have hinput := h.setInputPcb true
  have hr' : Reached σ n { conn with inputPcb := true } :=
    ⟨hr.le, hr.stored, hr.fresh, hr.receiving, hr.ended⟩
  obtain ⟨herr, hspec⟩ := tcpProcess_spec hne hinput (c := c) (m := m) (i := i)
  obtain ⟨n', hto, hgoal⟩ := hinput.tcpProcess_processedTo (c := c) (m := m) hph hr' hlong hpeer
  unfold Tcp.tcpInput
  dsimp only
  rw [h.refused]
  dsimp only
  generalize Tcp.tcpProcess c m i { conn with inputPcb := true } = r at herr hspec hto
  unfold afterProcess
  rw [herr, if_neg (by simp)]
  cases hspec with
  | reset alive app hreset rst noFin =>
      rw [if_pos hreset]
      have hsame : SameStore r.conn (tcpPcbRemove c m (tcpEventErr r.conn.pcb.cb r.conn)) :=
        (sameStore_tcpEventErr r.conn.pcb.cb r.conn).trans (.of_app (app_tcpPcbRemove _))
      have hnot : (tcpPcbRemove c m (tcpEventErr r.conn.pcb.cb r.conn)).pcb.flags.rxClosed = false := by
        rw [rxClosed_tcpPcbRemove, rxClosed_tcpEventErr]
        exact alive.not_rxClosed (by rcases hph with rfl | rfl <;> decide)
      refine ⟨n, .of_freed hr.le ((hto.stored hr.stored).congr hsame.bytes hsame.obtained) rfl ?_, fun _ hno => ?_⟩
      · exact fun hrx => absurd (hrx.symm.trans hnot) (by decide)
      · exact absurd (rst.1.symm.trans hno) (by decide)
  | closed hclosing => rcases hph with rfl | rfl <;> cases hclosing
  | fin hnot alive hreset hopen gotFin =>
      rw [if_neg (by rw [hreset]; decide), if_neg (by rw [hopen]; decide), gotFin]
      obtain ⟨conn₁, halive, -, hstored, hdeliver⟩ :=
        exists_deliver (c := c) (m := m) (fun _ => Or.inr rfl) alive hto hr.stored true
      obtain ⟨hclose, hrst⟩ := halive.deliverFin_true (c := c) (m := m)
      have hsame := halive.sameStore_deliverFin (c := c) (m := m)
      have hstored' := hstored.congr hsame.bytes hsame.obtained
      obtain rfl := ended_of_fin hto gotFin
      rw [hdeliver]
      refine ⟨_, ?_, hgoal⟩
      cases hwnd : closesWithRst c conn₁.pcb with
      | false => exact .of_closing hstored' ((hclose hwnd).setInputPcb false)
      | true => exact .of_freed (Nat.le_refl _) hstored' (hrst hwnd).home fun _ => rfl
  | goesOn ph' alive hne' hclosing hreset hopen rst noFin noData =>
      rw [if_neg (by rw [hreset]; decide), if_neg (by rw [hopen]; decide), noFin]
      have hle := open_of_noFin hto noFin
      obtain ⟨conn₁, halive, hpcb, hstored, hdeliver⟩ :=
        exists_deliver (c := c) (m := m) (fun hdata => Or.inl (by_contra fun hnot => hdata (noData hnot))) alive hto
          hr.stored false
      have hview : (deliverFin c m false conn₁).pcb.view = conn₁.pcb.view := view_tcpOutput c _ _ _ _
      rw [hpcb] at hview
      rw [hdeliver]
      have halive' : Alive ph' { deliverFin c m false conn₁ with inputPcb := false } :=
        halive.deliverFin_false.setInputPcb false
      refine ⟨n', .of_open (alive.open_of_state hne' ?_) halive' hle hstored (hto.receiving.of_view hview) ?_, hgoal⟩
      · rcases hto.state noFin with hstate | hstate
        · have hs := h.state
          rw [hstate]
          rcases hph with rfl | rfl
          · exact Or.inl hs
          · exact Or.inr hs
        · exact Or.inr hstate
      · -- nothing is received as long as the handshake goes on
        rintro rfl
        have hs : r.conn.pcb.state = .synRcvd := alive.state
        have htext := hto.text
        have hzero : n = 0 := by
          rcases hto.state noFin with hstate | hstate
          · exact hr.fresh h.home (hstate.symm.trans hs)
          · exact absurd (hs.symm.trans hstate) (by decide)
        rw [noData (by decide), hzero] at htext
        have hlen := congrArg List.length htext
        rw [length_slice hle] at hlen
        exact hlen.symm

/-- A connection that was closed takes nothing more. -/
theorem app_tcpProcess (hstate : conn.pcb.state ≠ .synRcvd) : (tcpProcess c m i conn).conn.app = conn.app := by
  unfold tcpProcess
  split
  · split <;> rfl
  · split
    · rfl
    · dsimp only
      split
      · unfold processSynSent
        split
        · rfl
        · dsimp only
          split <;> rfl
      · rename_i hsyn
        exact absurd hsyn hstate
      · unfold processSynchronized
        dsimp only
        split
        · split <;> rfl
        · split <;> rfl
        · split
          · split <;> rfl
          · split <;> rfl
        · split <;> rfl
        · split <;> rfl
        · rfl
        · rfl

/-- Behind the end no segment reaches the application. -/
theorem Alive.sameStore_closing (h : Alive .closing conn) : SameStore conn (Tcp.tcpInput c m i conn) := by
  have hinput := h.setInputPcb true
  obtain ⟨herr, hspec⟩ := tcpProcess_spec (by decide) hinput (c := c) (m := m) (i := i)
  have hstate : conn.pcb.state ≠ .synRcvd := by
    rcases h.state with hs | hs <;> rw [hs] <;> decide
  have happ : (Tcp.tcpProcess c m i { conn with inputPcb := true }).conn.app = conn.app := app_tcpProcess hstate
  unfold Tcp.tcpInput
  dsimp only
  rw [h.refused]
  dsimp only
  generalize Tcp.tcpProcess c m i { conn with inputPcb := true } = r at herr hspec happ
  have hsame : SameStore conn r.conn := .of_app happ
  unfold afterProcess
  rw [herr, if_neg (by simp)]
  cases hspec with
  | reset alive app hreset rst noFin =>
      rw [if_pos hreset]
      have hremove : SameStore r.conn (tcpPcbRemove c m (tcpEventErr r.conn.pcb.cb r.conn)) :=
        (sameStore_tcpEventErr r.conn.pcb.cb r.conn).trans (.of_app (app_tcpPcbRemove _))
      exact hsame.trans ⟨hremove.bytes, hremove.obtained⟩
  | closed hph alive app hreset hclosed rst noFin =>
      rw [if_neg (by rw [hreset]; decide), if_pos hclosed, if_pos (show r.conn.pcb.flags.rxClosed = true from alive.rxClosed)]
      exact hsame.trans (.of_app (app_tcpPcbRemove r.conn))
  | fin hph => exact absurd rfl hph
  | goesOn ph' alive hne hclosing hreset hopen rst noFin noData =>
      have hclosing' := hclosing rfl
      rw [if_neg (by rw [hreset]; decide), if_neg (by rw [hopen]; decide), noFin, noData (by rw [hclosing']; decide)]
      exact hsame.trans (.of_app rfl)

/-! ## The timers -/

/-- The timers take nothing from the other end, and hand nothing on. -/
structure Still (conn conn' : Conn) : Prop where
  same : SameStore conn conn'
  rxClosed : conn'.pcb.flags.rxClosed = conn.pcb.flags.rxClosed
  state : conn'.home = .active → conn'.pcb.state = conn.pcb.state
  rcvNxt : conn'.home = .active → conn'.pcb.rcv.rcvNxt = conn.pcb.rcv.rcvNxt
  ooseq : conn'.home = .active → conn'.pcb.ooseq = conn.pcb.ooseq ∨ conn'.pcb.ooseq = []

/-- A function of the sender only. -/
theorem Still.of_view (happ : conn'.app = conn.app) (hview : conn'.pcb.view = conn.pcb.view) : Still conn conn' :=
  ⟨.of_app happ, congrArg View.rxClosed hview, fun _ => congrArg View.state hview,
    fun _ => congrArg View.rcvNxt hview, fun _ => Or.inl (congrArg View.ooseq hview)⟩

/-- The connection ends, and its buffer is freed. -/
theorem Still.of_ended (hend : Ended (conn.app.free conn.app.obtained) conn')
    (hrx : conn'.pcb.flags.rxClosed = conn.pcb.flags.rxClosed) : Still conn conn' := by
  have hno : ¬conn'.home = .active := ne_of_eq_of_ne hend.home (by decide)
  exact ⟨.of_free hend.app, hrx, fun hactive => absurd hactive hno, fun hactive => absurd hactive hno,
    fun hactive => absurd hactive hno⟩

/-- What a timer leaves of a connection is where it was in the stream. -/
theorem Still.reached (h : Still conn conn') (hhome : conn.home = .active) (hr : Reached σ n conn) : Reached σ n conn' := by
  refine ⟨hr.le, hr.stored.congr h.same.bytes h.same.obtained, fun hactive hstate => ?_, fun hactive hlt => ?_,
    fun hrx => hr.ended (h.rxClosed.symm.trans hrx)⟩
  · exact hr.fresh hhome ((h.state hactive).symm.trans hstate)
  · rw [h.state hactive] at hlt
    obtain ⟨hopen, hreceiving⟩ := hr.receiving hhome hlt
    refine ⟨hopen, (h.rcvNxt hactive).trans hreceiving.rcvNxt, ?_⟩
    rcases h.ooseq hactive with heq | heq
    · rw [heq]
      exact hreceiving.waits
    · rw [heq]
      trivial

/-- The poll sends, or aborts the connection. -/
theorem Alive.still_slowtmrPoll (h : Alive ph conn) : Still conn (Tcp.slowtmrPoll c m conn) := by
  unfold Tcp.slowtmrPoll
  dsimp only
  split
  · set conn₂ : Conn := { (conn.onPcb fun pcb => { pcb with polltmr := pcb.polltmr + 1 }).onPcb
        fun pcb => { pcb with polltmr := 0 } with activePcbsChanged := false } with hconn₂
    have h₂ : Alive ph conn₂ :=
      ⟨h.home, h.state, h.rxClosed, h.cb, h.refused, h.frees, h.unobtained, h.noUse, h.pcbSafe⟩
    have hunchanged : conn₂.activePcbsChanged = false := rfl
    unfold tcpEventPoll
    cases hpoll : conn₂.pcb.cb.poll with
    | false =>
        have hview : (Conn.output c m conn₂).pcb.view = conn₂.pcb.view := view_tcpOutput c _ _ _ _
        simp only [Bool.false_eq_true, if_false]
        rw [if_neg (by rw [hunchanged]; decide), if_pos trivial, h₂.deref]
        exact ⟨.of_app rfl, congrArg View.rxClosed hview, fun _ => congrArg View.state hview,
          fun _ => congrArg View.rcvNxt hview, fun _ => Or.inl (congrArg View.ooseq hview)⟩
    | true =>
        -- the poll aborts the connection
        have hchanged := activePcbsChanged_tcpAbandon h₂ (c := c) (m := m)
        simp only [if_true, appTcpPoll, tcpAbort]
        rw [if_pos hchanged]
        exact .of_ended (h₂.tcpAbandon (c := c) (m := m)) (rxClosed_tcpAbandon conn₂)
  · exact ⟨.of_app rfl, rfl, fun _ => rfl, fun _ => rfl, fun _ => Or.inl rfl⟩

/-- `tcp_slowtmr` retransmits, polls, drops what waits out of sequence, or removes the connection. -/
theorem Alive.still_slowtmr (h : Alive ph conn) : Still conn (Tcp.tcpSlowtmr c m conn) := by
  have hhome := h.home
  unfold Tcp.tcpSlowtmr
  dsimp only
  split
  · unfold Tcp.slowtmrActive
    dsimp only
    split
    · exact .of_view rfl rfl
    · obtain ⟨ooseq, hor, hview⟩ := view_slowtmrPcb (c := c) (m := m) (conn.ticks + 1)
        { conn.pcb with lastTimer := conn.timerCtr + 1 }
      have halive := h.afterSlowtmrPcb (c := c) (m := m)
      have hooseq : (conn.afterSlowtmrPcb c m).pcb.ooseq = ooseq := congrArg View.ooseq hview
      split
      · exact .of_ended halive.slowtmrRemove ((rxClosed_slowtmrRemove _).trans (congrArg View.rxClosed hview))
      · have hpoll := halive.still_slowtmrPoll (c := c) (m := m)
        refine ⟨⟨hpoll.same.bytes, hpoll.same.obtained⟩, hpoll.rxClosed.trans (congrArg View.rxClosed hview),
          fun hactive => (hpoll.state hactive).trans (congrArg View.state hview),
          fun hactive => (hpoll.rcvNxt hactive).trans (congrArg View.rcvNxt hview), fun hactive => ?_⟩
        -- the data out of sequence stay or are dropped, by this or by the other function
        rcases hpoll.ooseq hactive with heq | heq
        · rcases hor with hsame | hnil
          · exact Or.inl (heq.trans (hooseq.trans hsame))
          · exact Or.inr (heq.trans (hooseq.trans hnil))
        · exact Or.inr heq
  · rename_i htimeWait
    rw [hhome] at htimeWait
    cases htimeWait
  · exact .of_view rfl rfl

/-- `tcp_fasttmr` sends a delayed ACK. -/
theorem Alive.still_fasttmr (h : Alive ph conn) : Still conn (Tcp.tcpFasttmr c m conn) := by
  rw [tcpFasttmr_eq h.home h.refused]
  split
  · exact .of_view rfl rfl
  · set conn₁ : Conn := { conn with
      pcb := tcpAckNow { conn.pcb with lastTimer := conn.timerCtr + 1 }
      timerCtr := conn.timerCtr + 1 } with hconn₁
    have hview : (Conn.output c m conn₁).pcb.view = conn₁.pcb.view := view_tcpOutput c _ _ _ _
    split
    · exact ⟨.of_app rfl, congrArg View.rxClosed hview, fun _ => congrArg View.state hview,
        fun _ => congrArg View.rcvNxt hview, fun _ => Or.inl (congrArg View.ooseq hview)⟩
    · exact ⟨.of_app rfl, rfl, fun _ => rfl, fun _ => rfl, fun _ => Or.inl rfl⟩

/-! ## Runs -/

/-- What holds between two events: the connection is over, or it is in a phase; it has a place in the stream either way. -/
def InStream (σ : Peer) (conn : Conn) : Prop :=
  (conn.home = .freed ∨ ∃ ph, ph ≠ .eof ∧ Alive ph conn) ∧ ∃ n, Reached σ n conn

/-- Behind an event the connection is over, or it is in a phase. -/
theorem Outcome.freed_or_alive {e : Event} (h : Outcome c ph conn e conn') :
    conn'.home = .freed ∨ ∃ ph', ph' ≠ .eof ∧ Alive ph' conn' := by
  cases h with
  | goesOn ph' alive hne _ _ _ => exact Or.inr ⟨ph', hne, alive⟩
  | error ended _ _ => exact Or.inl ended.home
  | finished _ ended _ _ => exact Or.inl ended.home
  | rst _ _ _ used _ => exact Or.inl used.home

/-- A connection that closes goes on closing. -/
theorem Outcome.freed_or_closing {e : Event} (h : Outcome c .closing conn e conn') :
    conn'.home = .freed ∨ Alive .closing conn' := by
  cases h with
  | goesOn ph' alive _ hclosing _ _ => exact Or.inr (hclosing rfl ▸ alive)
  | error ended _ _ => exact Or.inl ended.home
  | finished _ ended _ _ => exact Or.inl ended.home
  | rst hnot _ _ _ _ => exact absurd rfl hnot

/-- **One event.** The connection stays in the stream. -/
theorem InStream.step {e : Event} (hlong : σ.data.length < 0x100000000) (h : InStream σ conn) (hpeer : FromPeer σ conn e)
    (hs : Tcp.step c conn e = some conn') : InStream σ conn' := by
  obtain ⟨hfreed | ⟨ph, hne, halive⟩, n, hr⟩ := h
  · rw [step_freed hfreed] at hs
    cases hs
  have hhome : conn.home ≠ .freed := by
    rw [halive.home]
    decide
  refine ⟨(halive.step hne hs).freed_or_alive, ?_⟩
  cases e with
  | segment i m =>
      obtain rfl := Option.some.inj ((step_segment halive.home).symm.trans hs)
      by_cases hclosing : ph = .closing
      · subst hclosing
        obtain rfl := hr.ended halive.rxClosed
        have hsame := halive.sameStore_closing (c := c) (m := m) (i := i)
        have hstored := hr.stored.congr hsame.bytes hsame.obtained
        rcases (halive.tcpInput hne (c := c) (m := m) (i := i)).freed_or_closing with hfreed | hclosing
        · exact ⟨_, .of_freed (Nat.le_refl _) hstored hfreed fun _ => rfl⟩
        · exact ⟨_, .of_closing hstored hclosing⟩
      · have hph : ph = .connecting ∨ ph = .opened := by
          cases ph with
          | connecting => exact Or.inl rfl
          | opened => exact Or.inr rfl
          | eof => exact absurd rfl hne
          | closing => exact absurd rfl hclosing
        obtain ⟨n', hn', -⟩ := halive.reached_segment (c := c) hph hr hlong hpeer
        exact ⟨n', hn'⟩
  | slowtmr m =>
      obtain rfl := Option.some.inj ((if_neg hhome).symm.trans hs)
      exact ⟨n, halive.still_slowtmr.reached halive.home hr⟩
  | fasttmr m =>
      obtain rfl := Option.some.inj ((if_neg hhome).symm.trans hs)
      exact ⟨n, halive.still_fasttmr.reached halive.home hr⟩
  | abandon m =>
      obtain rfl := Option.some.inj ((if_neg hhome).symm.trans hs)
      exact ⟨n, (Still.of_ended halive.tcpAbandon (rxClosed_tcpAbandon conn)).reached halive.home hr⟩

/-- `tcp_abandon` gives the block back. -/
theorem home_tcpAbandon (conn : Conn) : (tcpAbandon c m conn).home = .freed := by
  unfold tcpAbandon
  split
  · rfl
  · exact home_tcpEventErr _ _

/-- A connection that answers the SYN waits for the number behind it. -/
theorem rcvNxt_tcpListenInput (soKeepalive : Bool) (iss ticks : UInt32) (timerCtr : UInt8)
    (hactive : (tcpListenInput c m i soKeepalive iss ticks timerCtr).home = .active) :
    (tcpListenInput c m i soKeepalive iss ticks timerCtr).pcb.rcv.rcvNxt = i.seqno + 1 := by
  unfold tcpListenInput at hactive ⊢
  dsimp only at hactive ⊢
  split
  · refine (congrArg View.rcvNxt (view_tcpOutput c _ _ _ _)).trans ?_
    exact congrArg View.rcvNxt (view_tcpEnqueueFlags c m.finAlloc { syn := true, ack := true } _)
  · rename_i hqueued
    rw [if_neg hqueued, home_tcpAbandon] at hactive
    cases hactive

/-- The SYN is answered at the beginning of the stream, or the connection is given up. -/
theorem inStream_start (soKeepalive : Bool) (iss ticks : UInt32) (timerCtr : UInt8) (hirs : σ.irs = i.seqno + 1) :
    InStream σ (tcpListenInput c m i soKeepalive iss ticks timerCtr) := by
  have hrcvNxt := rcvNxt_tcpListenInput (c := c) (m := m) (i := i) soKeepalive iss ticks timerCtr
  have hnone : ∀ app : App, app.bytes = [] → Stored σ 0 app := fun app hbytes => by
    rw [Stored, hbytes]
    split <;> simp
  obtain ⟨conn, hfresh, heq | heq⟩ := tcpListenInput_eq c m i soKeepalive iss ticks timerCtr
  · have hview : (Conn.output c m conn).pcb.view = conn.pcb.view := view_tcpOutput c _ _ _ _
    have halive : Alive .connecting (Conn.output c m conn) := hfresh.alive.output
    have hooseq : (Conn.output c m conn).pcb.ooseq = [] := (congrArg View.ooseq hview).trans hfresh.ooseq
    have happ : (Conn.output c m conn).app.bytes = [] := congrArg App.bytes hfresh.app
    rw [heq] at hrcvNxt ⊢
    have hzero : seqNo σ.irs 0 = σ.irs := UInt32.add_zero σ.irs
    have hreceiving : Receiving σ 0 (Conn.output c m conn).pcb := by
      refine ⟨?_, ?_⟩
      · rw [hrcvNxt halive.home, hzero, hirs]
      · rw [hooseq]
        trivial
    exact ⟨Or.inr ⟨.connecting, by decide, halive⟩, 0,
      .of_open (Or.inl rfl) halive (Nat.zero_le _) (hnone _ happ) hreceiving fun _ => rfl⟩
  · have hend := hfresh.alive.tcpAbandon (c := c) (m := m)
    rw [heq]
    refine ⟨Or.inl hend.home, 0, .of_freed (Nat.zero_le _) (hnone _ ?_) hend.home fun hrx => ?_⟩
    · have hsame : SameStore conn (tcpAbandon c m conn) := .of_free hend.app
      rw [hsame.bytes, hfresh.app]
    · have hnot := (rxClosed_tcpAbandon (c := c) (m := m) conn).trans (hfresh.alive.not_rxClosed (by decide))
      exact absurd (hrx.symm.trans hnot) (by decide)

/-- What the buffer of the application holds of the stream. -/
structure StreamIn (σ : Peer) (conn : Conn) : Prop where
  isPrefix : conn.app.bytes <+: σ.data
  /-- Up to the number that the block waits for, as far as they fit. -/
  upTo : conn.home = .active → conn.pcb.state = .established → conn.app.obtained = true →
    conn.app.bytes = (σ.data.take (seqOffset σ.irs conn.pcb.rcv.rcvNxt)).take maxString
  /-- When the application was told of the end and has closed, the other end had closed behind the last byte; `tcp_close` may have
  given the block back. -/
  ended : conn.pcb.flags.rxClosed = true → conn.app.obtained = true → conn.app.bytes = σ.data.take maxString

/-- What the place in the stream says about the buffer. -/
theorem InStream.streamIn (hlong : σ.data.length < 0x100000000) (h : InStream σ conn) : StreamIn σ conn := by
  obtain ⟨-, n, hr⟩ := h
  have hbytes : conn.app.obtained = true → conn.app.bytes = (σ.data.take n).take maxString := fun hobtained => by
    rw [hr.stored, if_pos hobtained]
  refine ⟨hr.stored.isPrefix, fun hactive hstate hobtained => ?_, fun hrx hobtained => ?_⟩
  · obtain ⟨hopen, hreceiving⟩ := hr.receiving hactive (by rw [hstate]; rfl)
    rw [hbytes hobtained, hreceiving.seqOffset_rcvNxt (by omega)]
  · rw [hbytes hobtained, hr.ended hrx, List.take_of_length_le (Nat.le_succ _)]

/-- **The run.** By induction on the events, every state reached is in the stream. -/
theorem inStream_of_run (soKeepalive : Bool) (iss ticks : UInt32) (timerCtr : UInt8) {es : List Event}
    (hirs : σ.irs = i.seqno + 1) (hlong : σ.data.length < 0x100000000)
    (hpeer : RunMeets (step c) (FromPeer σ) (tcpListenInput c m i soKeepalive iss ticks timerCtr) es)
    (hrun : run (step c) (tcpListenInput c m i soKeepalive iss ticks timerCtr) es = some conn) : InStream σ conn :=
  run_invariant_of_meets (fun _ _ _ h hG hs => h.step hlong hG hs)
    (inStream_start soKeepalive iss ticks timerCtr hirs) hpeer hrun

/-- **The stream arrives.** Whatever happens to the segments of the other end on the way, lost, repeated, cut otherwise or in
another order, the buffer of the application holds the first bytes of its stream, and all of them that fit when the application is
told that the stream has ended. -/
theorem stream_of_run (c : Config) (m : Mem) (i : InSeg) (soKeepalive : Bool) (iss ticks : UInt32) (timerCtr : UInt8)
    (σ : Peer) (es : List Event) (conn : Conn) (hirs : σ.irs = i.seqno + 1) (hlong : σ.data.length < 0x100000000)
    (hpeer : RunMeets (step c) (FromPeer σ) (tcpListenInput c m i soKeepalive iss ticks timerCtr) es)
    (hrun : run (step c) (tcpListenInput c m i soKeepalive iss ticks timerCtr) es = some conn) : StreamIn σ conn :=
  (inStream_of_run soKeepalive iss ticks timerCtr hirs hlong hpeer hrun).streamIn hlong

/-- An empty segment fits. -/
theorem fits_noData : Chain.totLen [] + 40 < 0x10000 := by decide

/-- A segment of one byte fits. -/
theorem fits_byte (x : UInt8) : Chain.totLen [[x]] + 40 < 0x10000 := by
  show 1 + 40 < 0x10000
  decide

/-- A segment of two bytes fits. -/
theorem fits_bytes (x y : UInt8) : Chain.totLen [[x, y]] + 40 < 0x10000 := by
  show 2 + 40 < 0x10000
  decide

/-- The other end sends three bytes and its FIN: the end first, then the front, then the front again with what is between. -/
def outOfSequence : List Event :=
  [.segment (fromPeer 1 false [] fits_noData) {}, .segment (fromPeer 3 true [[0x43]] (fits_byte _)) {},
    .segment (fromPeer 1 false [[0x41]] (fits_byte _)) {}, .segment (fromPeer 1 false [[0x41, 0x42]] (fits_bytes _ _)) {}]

/-- The application was told of the end, and `tcp_close` gave the block back: the data were never reported. -/
theorem stream_of_run_outOfSequence : ∃ conn,
    run (step optDefaults) (tcpListenInput optDefaults {} synFromPeer false 0 0 0) outOfSequence = some conn ∧
    conn.home = .freed ∧ conn.app.bytes = ([0x41, 0x42, 0x43] : List UInt8).take maxString := by
  have hout : ((run (step optDefaults) (tcpListenInput optDefaults {} synFromPeer false 0 0 0) outOfSequence).map
      fun conn => (conn.home, conn.pcb.flags.rxClosed, conn.app.obtained)) = some (.freed, true, true) := by decide
  obtain ⟨conn, hrun, hfacts⟩ := Option.map_eq_some_iff.mp hout
  simp only [Prod.mk.injEq] at hfacts
  obtain ⟨hfreed, hrx, hobtained⟩ := hfacts
  have hstream := stream_of_run optDefaults {} synFromPeer false 0 0 0 ⟨1, [0x41, 0x42, 0x43]⟩ outOfSequence conn rfl
    (by decide) (by decide) hrun
  exact ⟨conn, hrun, hfreed, hstream.ended hrx hobtained⟩

/-- Six bytes in six pieces; the window goes over the end of the range, and two pieces come before the front does. -/
def overTheEnd : List Event :=
  [.segment (fromPeer 0xFFFFFFF0 false [] fits_noData) {}, .segment (fromPeer 0xFFFFFFF2 false [[0x43]] (fits_byte _)) {},
    .segment (fromPeer 0xFFFFFFF4 false [[0x45]] (fits_byte _)) {},
    .segment (fromPeer 0xFFFFFFF0 false [[0x41, 0x42]] (fits_bytes _ _)) {},
    .segment (fromPeer 0xFFFFFFF3 false [[0x44]] (fits_byte _)) {},
    .segment (fromPeer 0xFFFFFFF5 false [[0x46]] (fits_byte _)) {}]

/-- Without `NoWrap` the stream does not arrive: the piece at the end of `ooseq` seems to overrun the window, and "trimming" it
makes it as long as the window. The block then waits for a number far behind the bytes that it has, and the last byte is lost. -/
theorem not_streamIn_overTheEnd : ∃ conn,
    run (step optDefaults) (tcpListenInput optDefaults {} { synFromPeer with seqno := 0xFFFFFFEF } false 0 0 0) overTheEnd =
      some conn ∧ ¬StreamIn ⟨0xFFFFFFF0, [0x41, 0x42, 0x43, 0x44, 0x45, 0x46]⟩ conn := by
  have hout : ((run (step optDefaults) (tcpListenInput optDefaults {} { synFromPeer with seqno := 0xFFFFFFEF } false 0 0 0)
      overTheEnd).map fun conn => (conn.home, conn.pcb.state, conn.app.obtained, conn.app.bytes, conn.pcb.rcv.rcvNxt)) =
      some (.active, .established, true, [0x41, 0x42, 0x43, 0x44, 0x45], 0x850) := by decide
  obtain ⟨conn, hrun, hfacts⟩ := Option.map_eq_some_iff.mp hout
  simp only [Prod.mk.injEq] at hfacts
  obtain ⟨hactive, hstate, hobtained, hbytes, hrcvNxt⟩ := hfacts
  refine ⟨conn, hrun, fun h => ?_⟩
  have hupTo := h.upTo hactive hstate hobtained
  rw [hbytes, hrcvNxt] at hupTo
  exact absurd hupTo (by decide)

/-- **What is in sequence arrives at once.** On an open connection that any run has led to, a piece that begins with or in front of
the number that the block waits for is in the buffer when `tcp_input` returns, up to the window and as far as it fits. -/
theorem stream_advances (c : Config) (m : Mem) (i : InSeg) (soKeepalive : Bool) (iss ticks : UInt32) (timerCtr : UInt8)
    (σ : Peer) (es : List Event) (conn : Conn) (m' : Mem) (i' : InSeg) (hirs : σ.irs = i.seqno + 1)
    (hlong : σ.data.length < 0x100000000)
    (hpeer : RunMeets (step c) (FromPeer σ) (tcpListenInput c m i soKeepalive iss ticks timerCtr) es)
    (hrun : run (step c) (tcpListenInput c m i soKeepalive iss ticks timerCtr) es = some conn)
    (hactive : conn.home = .active) (hstate : conn.pcb.state = .established) (hrst : i'.flags.rst = false)
    (hseg : σ.Piece (seqOffset σ.irs i'.seqno) i'.seg)
    (htimely : Timely (seqOffset σ.irs conn.pcb.rcv.rcvNxt) (seqOffset σ.irs i'.seqno)) (hwrap : NoWrap conn.pcb)
    (hobtained : (tcpInput c m' i' conn).app.obtained = true) :
    (σ.data.take (reachable (seqOffset σ.irs conn.pcb.rcv.rcvNxt) conn.pcb.rcv.rcvWnd.toNat (seqOffset σ.irs i'.seqno)
      i'.tcplen.toNat)).take maxString <+: (tcpInput c m' i' conn).app.bytes := by
  obtain ⟨hor, n, hr⟩ := inStream_of_run soKeepalive iss ticks timerCtr hirs hlong hpeer hrun
  obtain ⟨hopen, hreceiving⟩ := hr.receiving hactive (by rw [hstate]; rfl)
  rcases hor with hfreed | ⟨ph, hne, halive⟩
  · exact absurd (hfreed.symm.trans hactive) (by decide)
  have hph : ph = .opened := by
    rcases halive.open_of_state hne (Or.inr hstate) with rfl | hopened
    · exact absurd ((show conn.pcb.state = .synRcvd from halive.state).symm.trans hstate) (by decide)
    · exact hopened
  obtain ⟨n', hr', hgoal⟩ := halive.reached_segment (c := c) (m := m') (i := i') (Or.inr hph) hr hlong
    (Or.inr (Or.inr (Or.inr ⟨hseg, htimely, hwrap⟩)))
  rw [hreceiving.seqOffset_rcvNxt (by omega)] at htimely ⊢
  rw [hr'.stored, if_pos hobtained]
  exact (List.take_prefix_take_left (hgoal hph hrst _ hseg htimely)).take maxString

/-- The third byte waits, and comes with the first two. -/
theorem stream_advances_outOfSequence : ∃ conn,
    run (step optDefaults) (tcpListenInput optDefaults {} synFromPeer false 0 0 0) (outOfSequence.take 2) = some conn ∧
    [0x41, 0x42] <+: (tcpInput optDefaults {} (fromPeer 1 false [[0x41, 0x42]] (by decide)) conn).app.bytes := by
  have hout : ((run (step optDefaults) (tcpListenInput optDefaults {} synFromPeer false 0 0 0) (outOfSequence.take 2)).map
      fun conn => (conn.home, conn.pcb.state, conn.pcb.rcv.rcvNxt, conn.pcb.rcv.rcvWnd,
        (tcpInput optDefaults {} (fromPeer 1 false [[0x41, 0x42]] (by decide)) conn).app.obtained)) =
      some (.active, .established, 1, 2144, true) := by decide
  obtain ⟨conn, hrun, hfacts⟩ := Option.map_eq_some_iff.mp hout
  simp only [Prod.mk.injEq] at hfacts
  obtain ⟨hactive, hstate, hrcvNxt, hrcvWnd, hobtained⟩ := hfacts
  have hadvance := stream_advances optDefaults {} synFromPeer false 0 0 0 ⟨1, [0x41, 0x42, 0x43]⟩ (outOfSequence.take 2) conn {}
    (fromPeer 1 false [[0x41, 0x42]] (by decide)) rfl (by decide) (by decide) hrun hactive hstate rfl (by decide)
    (by rw [hrcvNxt]; decide) (Or.inr (by rw [hrcvNxt, hrcvWnd]; decide)) hobtained
  rw [hrcvNxt, hrcvWnd] at hadvance
  exact ⟨conn, hrun, hadvance⟩

end BareMetal.Tcp
