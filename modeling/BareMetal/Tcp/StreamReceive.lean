import BareMetal.Tcp.StreamQueue

/-! # Receiving the stream

`tcp_receive` for a piece of the stream, in whatever order the pieces come: the data that it hands on are the next ones of the
stream, and what is in sequence and in the window is handed on. -/

namespace BareMetal.Tcp

/-- The block has received the first `n` places of the stream, the FIN being the last one, and further pieces wait. -/
structure Receiving (σ : Peer) (n : ℕ) (pcb : Pcb) : Prop where
  rcvNxt : pcb.rcv.rcvNxt = seqNo σ.irs n
  waits : Waits σ (n + 0x10000) (n + 1) pcb.ooseq

variable {c : Config} {σ : Peer} {seg : Seg} {pcb pcb' : Pcb} {i : InSeg} {a n : ℕ}

/-- The receiver is its `rcv_nxt` and its `ooseq`. -/
theorem Receiving.congr (h : Receiving σ n pcb) (hrcvNxt : pcb'.rcv.rcvNxt = pcb.rcv.rcvNxt)
    (hooseq : pcb'.ooseq = pcb.ooseq) : Receiving σ n pcb' :=
  ⟨hrcvNxt.trans h.rcvNxt, hooseq.symm ▸ h.waits⟩

/-- Equal views have both in common. -/
theorem Receiving.of_view (h : Receiving σ n pcb) (hview : pcb'.view = pcb.view) : Receiving σ n pcb' :=
  h.congr (congrArg View.rcvNxt hview) (congrArg View.ooseq hview)

/-- `tcp_receive` found the first `n` places and has received the first `n'`; `goal` of them at least. -/
structure ReceivedTo (σ : Peer) (n goal n' : ℕ) (r : Received) : Prop where
  took : Took σ n n' r
  receiving : Receiving σ n' r.pcb
  goal : goal ≤ n'

/-- Nothing was taken. -/
theorem took_none (pcb : Pcb) (hrcvNxt : pcb.rcv.rcvNxt = seqNo σ.irs n) (hopen : n ≤ σ.data.length) :
    Took σ n n ⟨pcb, false, none⟩ :=
  ⟨hrcvNxt, Nat.le_refl n, Nat.le_succ_of_le hopen, (slice_self σ.data n).symm,
    (decide_eq_false (Nat.ne_of_lt (Nat.lt_succ_of_le hopen))).symm⟩

/-- Nothing was received. -/
theorem receivedTo_none (h : Receiving σ n pcb) (hopen : n ≤ σ.data.length) (hview : pcb'.view = pcb.view) {goal : ℕ}
    (hgoal : goal ≤ n) : ReceivedTo σ n goal n ⟨pcb', false, none⟩ :=
  have h' := h.of_view hview
  ⟨took_none pcb' h'.rcvNxt hopen, h', hgoal⟩

/-- What is trimmed to the window is a piece, as long as the window. -/
theorem Peer.Piece.trimToWnd (h : σ.Piece a seg) (wnd : UInt16) :
    σ.Piece a (trimToWnd wnd seg) ∧ (Tcp.trimToWnd wnd seg).tcpLen.toNat = min seg.tcpLen.toNat wnd.toNat := by
  unfold Tcp.trimToWnd
  split
  · rename_i hlong
    have hlt := UInt16.lt_iff_toNat_lt.mp hlong
    have hlen := h.tcpLen
    have hmax : wnd.toNat ≤ seg.len.toNat := by split at hlen <;> omega
    have hcut := h.clearFin.cut wnd hmax rfl
    have hnoSyn : ¬seg.flags.syn = true := ne_of_eq_of_ne h.syn Bool.false_ne_true
    dsimp only
    rw [if_neg hnoSyn]
    refine ⟨hcut, ?_⟩
    rw [tcpLen_cut hcut rfl, Nat.min_eq_right hlt.le]
  · rename_i hshort
    have hle : ¬wnd.toNat < seg.tcpLen.toNat := fun hlt => hshort (UInt16.lt_iff_toNat_lt.mpr hlt)
    exact ⟨h, by omega⟩

/-- The segment in sequence is handed on up to the window, and behind it what waited for it. -/
theorem receiveInOrder_receivedTo (h : Receiving σ n pcb) (hopen : n ≤ σ.data.length) (hseg : σ.Piece n seg) :
    ∃ n', ReceivedTo σ n (n + min seg.tcpLen.toNat pcb.rcv.rcvWnd.toNat) n' (receiveInOrder c seg pcb) := by
  obtain ⟨htrim, htrimLen⟩ := hseg.trimToWnd pcb.rcv.rcvWnd
  obtain ⟨hadjust, hwaits, hreach⟩ := adjustOoseq_spec htrim (Nat.le_refl _) h.waits
  unfold receiveInOrder
  dsimp only
  set seg' := (adjustOoseq (trimToWnd pcb.rcv.rcvWnd seg) pcb.ooseq).1 with hseg'
  set ooseq := (adjustOoseq (trimToWnd pcb.rcv.rcvWnd seg) pcb.ooseq).2 with hooseq
  have hadv : (advance c seg'.tcpLen pcb).rcv.rcvNxt = pcb.rcv.rcvNxt + u32 seg'.tcpLen :=
    congrArg View.rcvNxt (view_advance c seg'.tcpLen pcb)
  have hfirst : Took σ n (n + seg'.tcpLen.toNat) ⟨advance c seg'.tcpLen pcb, seg'.flags.fin, catData none seg'.p⟩ :=
    (took_none pcb h.rcvNxt hopen).advance hadjust hadv (Bool.false_or _).symm rfl
  obtain ⟨n', hn', htook, hwaits', hhead⟩ := takeOoseq_took (c := c) hfirst (by omega) hwaits
  have hge := htook.ge
  have hview := view_tcpAck (takeOoseq c ooseq ⟨advance c seg'.tcpLen pcb, seg'.flags.fin, catData none seg'.p⟩).pcb
  have hreceiving := Receiving.mk htook.rcvNxt (hwaits'.mono_top (by omega : n + 0x10000 ≤ n' + 0x10000))
  have hrcvNxt := congrArg View.rcvNxt hview
  refine ⟨n', ⟨hrcvNxt.trans htook.rcvNxt, hge, htook.le, htook.text, htook.fin⟩, hreceiving.of_view hview, ?_⟩
  rw [← htrimLen]
  rcases hreach with hle | ⟨next, rest, hcons, hseq, hle⟩
  · omega
  · have hlast := hhead next (by rw [hcons]; rfl) hseq
    omega

/-- A segment out of sequence in the window is put to what waits. -/
theorem receiveOutOfOrder_receivedTo (ackAlloc copied : Bool) (h : Receiving σ n pcb) (hopen : n ≤ σ.data.length)
    (hseg : σ.Piece a seg) (hlt : n < a) (hwnd : a < n + pcb.rcv.rcvWnd.toNat)
    (hwrap : pcb.ooseq = [] ∨ pcb.rcv.rcvNxt.toNat + pcb.rcv.rcvWnd.toNat < 0x100000000) {goal : ℕ} (hgoal : goal ≤ n) :
    ReceivedTo σ n goal n (receiveOutOfOrder ackAlloc copied seg pcb) := by
  have hview := view_tcpSendEmptyAck ackAlloc pcb
  have hmax := pcb.rcv.rcvWnd.toNat_lt
  have hrcvNxt : (tcpSendEmptyAck ackAlloc pcb).rcv.rcvNxt = pcb.rcv.rcvNxt := congrArg View.rcvNxt hview
  have hrcvWnd : (tcpSendEmptyAck ackAlloc pcb).rcv.rcvWnd = pcb.rcv.rcvWnd := congrArg View.rcvWnd hview
  have hooseq : (tcpSendEmptyAck ackAlloc pcb).ooseq = pcb.ooseq := congrArg View.ooseq hview
  unfold receiveOutOfOrder
  dsimp only
  rw [hooseq]
  refine ⟨took_none _ (hrcvNxt.trans h.rcvNxt) hopen, ⟨hrcvNxt.trans h.rcvNxt, ?_⟩, hgoal⟩
  dsimp only
  split
  · split
    · exact waits_singleton hseg hlt (by omega)
    · trivial
  · rename_i hne
    have hwrap := hwrap.resolve_left fun hnil => hne (List.isEmpty_iff.mpr hnil)
    refine waits_queueOoseq hseg (hrcvNxt.trans h.rcvNxt) (by rw [hrcvNxt, hrcvWnd]; exact hwrap) (Nat.le_succ n) hlt.le
      (by rw [hrcvWnd]; exact hwnd) (walked_none hlt (by omega) (by omega)) h.waits

/-- What is looked at as a part of the window: it is in sequence, out of sequence or not in the window. -/
def receiveWindow (c : Config) (ackAlloc copied : Bool) (seg : Seg) (pcb : Pcb) : Received :=
  if seqBetween seg.seqno pcb.rcv.rcvNxt (pcb.rcv.rcvNxt + u32 pcb.rcv.rcvWnd - 1) then
    if pcb.rcv.rcvNxt = seg.seqno then receiveInOrder c seg pcb else receiveOutOfOrder ackAlloc copied seg pcb
  else ⟨tcpSendEmptyAck ackAlloc pcb, false, none⟩

/-- A piece at place `a` comes in time for a receiver that has received `n` places: it is not from the other half of the
range. -/
def Timely (n a : ℕ) : Prop := n + 0x20000 ≤ a + 0x80000000 ∧ a + 0x20000 ≤ n + 0x80000000

/-- The window does not go over the end of the range while something waits. -/
def NoWrap (pcb : Pcb) : Prop := pcb.ooseq = [] ∨ pcb.rcv.rcvNxt.toNat + pcb.rcv.rcvWnd.toNat < 0x100000000

/-- The window is read off `rcv_nxt`, `rcv_wnd` and `ooseq`. -/
theorem NoWrap.congr (h : NoWrap pcb) (hrcvNxt : pcb'.rcv.rcvNxt = pcb.rcv.rcvNxt)
    (hrcvWnd : pcb'.rcv.rcvWnd = pcb.rcv.rcvWnd) (hooseq : pcb'.ooseq = pcb.ooseq) : NoWrap pcb' := by
  unfold NoWrap
  rw [hooseq, hrcvNxt, hrcvWnd]
  exact h

/-- Equal views have these in common. -/
theorem NoWrap.of_view (h : NoWrap pcb) (hview : pcb'.view = pcb.view) : NoWrap pcb' :=
  h.congr (congrArg View.rcvNxt hview) (congrArg View.rcvWnd hview) (congrArg View.ooseq hview)

/-- A segment in the window: it is taken at once when it begins at `rcv_nxt`, and queued else. -/
theorem receiveWindow_receivedTo (ackAlloc copied : Bool) (h : Receiving σ n pcb) (hopen : n ≤ σ.data.length)
    (hseg : σ.Piece a seg) (htimely : Timely n a) (hwrap : NoWrap pcb) :
    ∃ n', ReceivedTo σ n (if a = n then n + min seg.tcpLen.toNat pcb.rcv.rcvWnd.toNat else n) n'
      (receiveWindow c ackAlloc copied seg pcb) := by
  have hmax := pcb.rcv.rcvWnd.toNat_lt
  obtain ⟨hold, hnew⟩ := htimely
  have hin : seqBetween seg.seqno pcb.rcv.rcvNxt (pcb.rcv.rcvNxt + u32 pcb.rcv.rcvWnd - 1) = true ↔
      n ≤ a ∧ a < n + pcb.rcv.rcvWnd.toNat := by
    rw [seqBetween, hseg.seqno, h.rcvNxt, seqNo_add_u32, seqGeq_seqNo (by omega) (by omega),
      seqLeq_seqNo_sub_one (by omega) (by omega), Bool.and_eq_true, decide_eq_true_iff, decide_eq_true_iff]
  have hnext : pcb.rcv.rcvNxt = seg.seqno ↔ n = a := by
    rw [h.rcvNxt, hseg.seqno, seqNo_inj (by omega) (by omega)]
  unfold receiveWindow
  by_cases hwindow : n ≤ a ∧ a < n + pcb.rcv.rcvWnd.toNat
  · rw [if_pos (hin.mpr hwindow)]
    by_cases heq : n = a
    · rw [if_pos (hnext.mpr heq), if_pos heq.symm]
      subst heq
      exact receiveInOrder_receivedTo h hopen hseg
    · rw [if_neg fun hsame => heq (hnext.mp hsame), if_neg (Ne.symm heq)]
      exact ⟨n, receiveOutOfOrder_receivedTo ackAlloc copied h hopen hseg (by omega) hwindow.2 hwrap (Nat.le_refl n)⟩
  · rw [if_neg fun hpart => hwindow (hin.mp hpart)]
    refine ⟨n, receivedTo_none h hopen (view_tcpSendEmptyAck ackAlloc pcb) ?_⟩
    split <;> omega

/-- How far a receiver that has received `n` places, and takes `wnd` more, gets with a piece at place `a`. -/
def reachable (n wnd a len : ℕ) : ℕ := if a ≤ n then max n (min (a + len) (n + wnd)) else n

/-- What was received reaches any smaller goal. -/
theorem ReceivedTo.mono {goal goal' n' : ℕ} {r : Received} (h : ReceivedTo σ n goal n' r) (hle : goal' ≤ max n goal) :
    ReceivedTo σ n goal' n' r := by
  have hge := h.took.ge
  have hgoal := h.goal
  exact ⟨h.took, h.receiving, by omega⟩

/-- **The text of a segment.** -/
theorem receiveText_receivedTo (ackAlloc copied : Bool) (h : Receiving σ n pcb) (hopen : n ≤ σ.data.length)
    (hstate : pcb.state.ltCloseWait = true) (hseg : σ.Piece a i.seg) (htimely : Timely n a) (hwrap : NoWrap pcb) :
    ∃ n', ReceivedTo σ n (reachable n pcb.rcv.rcvWnd.toNat a i.tcplen.toNat) n'
      (receiveText c ackAlloc copied i pcb) := by
  have hlt := i.tcplen.toNat_lt
  have hlen : i.seg.tcpLen.toNat = i.tcplen.toNat := rfl
  unfold receiveText
  dsimp only
  by_cases htext : 0 < i.tcplen
  · have hpos : 0 < i.tcplen.toNat := UInt16.lt_iff_toNat_lt.mp htext
    have hfront : seqBetween pcb.rcv.rcvNxt (i.seg.seqno + 1) (i.seg.seqno + u32 i.tcplen - 1) = true ↔
        a < n ∧ n < a + i.tcplen.toNat := by
      have hstop : i.seg.seqno + u32 i.tcplen = seqNo σ.irs (a + i.tcplen.toNat) := hseg.tcpStop
      obtain ⟨hold, hnew⟩ := htimely
      rw [seqBetween, hstop, hseg.seqno, h.rcvNxt, seqNo_add_one, seqGeq_seqNo (by omega) (by omega),
        seqLeq_seqNo_sub_one (by omega) (by omega), Bool.and_eq_true, decide_eq_true_iff, decide_eq_true_iff]
      rfl
    rw [if_pos ⟨htext, hstate⟩]
    set pcb₁ := if seqBetween pcb.rcv.rcvNxt (i.seg.seqno + 1) (i.seg.seqno + u32 i.tcplen - 1) = false ∧
      seqLt i.seg.seqno pcb.rcv.rcvNxt = true then tcpAckNow pcb else pcb with hpcb₁
    have hview : pcb₁.view = pcb.view := by
      rw [hpcb₁]
      split <;> rfl
    have hrcvWnd : pcb₁.rcv.rcvWnd = pcb.rcv.rcvWnd := congrArg View.rcvWnd hview
    have h₁ := h.of_view hview
    have hwrap₁ := hwrap.of_view hview
    clear_value pcb₁
    by_cases hmid : a < n ∧ n < a + i.tcplen.toNat
    · -- the front was received before
      have hmax : i.tcplen.toNat ≤ i.seg.len.toNat + 1 := by
        have htcp := hseg.tcpLen
        rw [hlen] at htcp
        split at htcp <;> omega
      obtain ⟨htrim, hend⟩ := hseg.trimFront hmid.1.le (n := n) (by omega)
      rw [if_pos (hfront.mpr hmid), h₁.rcvNxt]
      obtain ⟨n', hn'⟩ := receiveWindow_receivedTo (c := c) ackAlloc copied h₁ hopen htrim ⟨by omega, by omega⟩ hwrap₁
      rw [if_pos rfl, hrcvWnd] at hn'
      refine ⟨n', ?_⟩
      have hgoal : ReceivedTo σ n (reachable n pcb.rcv.rcvWnd.toNat a i.tcplen.toNat) n'
          (receiveWindow c ackAlloc copied (trimFront (seqNo σ.irs n) i.seg) pcb₁) := by
        refine hn'.mono ?_
        unfold reachable
        rw [hlen] at hend
        rw [if_pos hmid.1.le]
        omega
      unfold receiveWindow at hgoal
      rw [h₁.rcvNxt] at hgoal
      exact hgoal
    · rw [if_neg fun hpart => hmid (hfront.mp hpart)]
      obtain ⟨n', hn'⟩ := receiveWindow_receivedTo (c := c) ackAlloc copied h₁ hopen hseg htimely hwrap₁
      refine ⟨n', hn'.mono ?_⟩
      unfold reachable
      rw [hlen, hrcvWnd]
      split <;> split <;> omega
  · have hzero : i.tcplen.toNat = 0 := Nat.eq_zero_of_not_pos fun hpos => htext (UInt16.lt_iff_toNat_lt.mpr hpos)
    have hgoal : reachable n pcb.rcv.rcvWnd.toNat a i.tcplen.toNat ≤ n := by
      unfold reachable
      split <;> omega
    rw [if_neg fun hand => htext hand.1]
    split
    · exact ⟨n, receivedTo_none h hopen rfl hgoal⟩
    · exact ⟨n, receivedTo_none h hopen (view_tcpAckNow pcb) hgoal⟩

/-- A segment without text leaves what was received. -/
theorem receiveText_empty (ackAlloc copied : Bool) (h : Receiving σ n pcb) (hopen : n ≤ σ.data.length)
    (hempty : i.tcplen = 0) : ReceivedTo σ n n n (receiveText c ackAlloc copied i pcb) := by
  unfold receiveText
  dsimp only
  rw [hempty, if_neg fun hand => absurd hand.1 (UInt16.lt_irrefl 0)]
  split
  · exact receivedTo_none h hopen rfl (Nat.le_refl n)
  · exact receivedTo_none h hopen (view_tcpAckNow pcb) (Nat.le_refl n)

/-- What the other end sends behind the handshake: no text, or a piece of its stream that comes in time. -/
def Comes (σ : Peer) (n : ℕ) (i : InSeg) (pcb : Pcb) : Prop :=
  i.tcplen = 0 ∨ ∃ a, σ.Piece a i.seg ∧ Timely n a ∧ NoWrap pcb

/-- The other end has one place for what comes in time. -/
theorem Peer.Piece.place_unique {b : ℕ} (h : σ.Piece a seg) (h' : σ.Piece b seg) (ha : Timely n a) (hb : Timely n b) :
    a = b := by
  obtain ⟨haold, hanew⟩ := ha
  obtain ⟨hbold, hbnew⟩ := hb
  exact (seqNo_inj (by omega) (by omega)).mp (h.seqno.symm.trans h'.seqno)

/-- **`tcp_receive`** hands on the next bytes of the stream, and what a piece in sequence brings up to the window is among
them. -/
theorem tcpReceive_receivedTo (ticks : UInt32) (ackAlloc copied : Bool) (h : Receiving σ n pcb)
    (hopen : n ≤ σ.data.length) (hstate : pcb.state.ltCloseWait = true) (hcomes : Comes σ n i pcb) :
    ∃ n', ReceivedTo σ n n n' (tcpReceive c ticks ackAlloc copied i pcb) ∧
      ∀ a, σ.Piece a i.seg → Timely n a → reachable n pcb.rcv.rcvWnd.toNat a i.tcplen.toNat ≤ n' := by
  have htext : ∀ pcb₁ : Pcb, (∃ polltmr, pcb₁.view = { pcb.view with polltmr := polltmr }) →
      ∃ n', ReceivedTo σ n n n' (receiveText c ackAlloc copied i pcb₁) ∧
        ∀ a, σ.Piece a i.seg → Timely n a → reachable n pcb.rcv.rcvWnd.toNat a i.tcplen.toNat ≤ n' := by
    rintro pcb₁ ⟨polltmr, hview⟩
    have hrcvNxt : pcb₁.rcv.rcvNxt = pcb.rcv.rcvNxt := congrArg View.rcvNxt hview
    have hrcvWnd : pcb₁.rcv.rcvWnd = pcb.rcv.rcvWnd := congrArg View.rcvWnd hview
    have hooseq : pcb₁.ooseq = pcb.ooseq := congrArg View.ooseq hview
    have hstate₁ : pcb₁.state = pcb.state := congrArg View.state hview
    have h₁ := h.congr hrcvNxt hooseq
    rcases hcomes with hempty | ⟨a, hseg, htimely, hwrap⟩
    · refine ⟨n, receiveText_empty ackAlloc copied h₁ hopen hempty, fun a _ _ => ?_⟩
      have hzero : i.tcplen.toNat = 0 := congrArg UInt16.toNat hempty
      unfold reachable
      split <;> omega
    · obtain ⟨n', hn'⟩ := receiveText_receivedTo (c := c) ackAlloc copied h₁ hopen (hstate₁.symm ▸ hstate) hseg htimely
        (hwrap.congr hrcvNxt hrcvWnd hooseq)
      refine ⟨n', ⟨hn'.took, hn'.receiving, hn'.took.ge⟩, fun b hb htimely' => ?_⟩
      rw [← hseg.place_unique hb htimely htimely', ← hrcvWnd]
      exact hn'.goal
  unfold tcpReceive
  split
  · obtain ⟨polltmr, -, hview⟩ := view_receiveAck ticks i pcb
    exact htext _ ⟨polltmr, hview⟩
  · exact htext pcb ⟨pcb.polltmr, rfl⟩

end BareMetal.Tcp
