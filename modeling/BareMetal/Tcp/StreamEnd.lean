import BareMetal.Tcp.Phase

/-! # The end of the stream

A segment ends the stream when its text is next in sequence and a FIN comes with it: its own one, inside the window, or
one that waits on `ooseq` and is reached without a gap. Here this is said of the segment and of the block before
`tcp_process` (`FinComes`), and `TF_GOT_FIN` is raised in no other case (`Alive.finFrom_tcpProcess`). -/

namespace BareMetal.Tcp

/-! ## Segments that end the stream -/

/-- The sequence numbers of the segment from `rcv_nxt` on. -/
def newLen (rcvNxt : UInt32) (i : InSeg) : UInt16 := i.tcplen - (rcvNxt - i.seqno).toUInt16

/-- The window is open, and the text of the segment starts at `rcv_nxt`, or in front of it and reaches beyond it. -/
structure InSequence (rcvNxt : UInt32) (rcvWnd : UInt16) (i : InSeg) : Prop where
  text : 0 < i.tcplen
  wnd : 0 < rcvWnd
  seqno : i.seqno = rcvNxt ∨ seqBetween rcvNxt (i.seqno + 1) (i.seqno + u32 i.tcplen - 1) = true

/-- How much of that is inside the window. -/
def takenLen (rcvNxt : UInt32) (rcvWnd : UInt16) (i : InSeg) : UInt16 :=
  if rcvWnd < newLen rcvNxt i then rcvWnd else newLen rcvNxt i

/-- The segment has a FIN, and it is inside the window. -/
def OwnFin (rcvNxt : UInt32) (rcvWnd : UInt16) (i : InSeg) : Prop :=
  i.flags.fin = true ∧ newLen rcvNxt i ≤ rcvWnd

/-- There is no gap between the sequence number `s` and the segment: it starts or ends at `s` or in front of it. -/
def noGap (s : UInt32) (seg : Seg) : Bool := seqGeq s seg.seqno || seqGeq s (seg.seqno + u32 seg.len)

/-- Some segment on `ooseq` has a FIN, and there is no gap in front of it, from `s` on. -/
def finReached : UInt32 → List Seg → Bool
  | _, [] => false
  | s, next :: rest =>
      noGap s next && (next.flags.fin || finReached s rest || finReached (next.seqno + u32 next.tcpLen) rest)

/-- The segment ends the stream. -/
structure FinComes (rcvNxt : UInt32) (rcvWnd : UInt16) (ooseq : List Seg) (i : InSeg) : Prop where
  inSequence : InSequence rcvNxt rcvWnd i
  fin : OwnFin rcvNxt rcvWnd i ∨ finReached (rcvNxt + u32 (takenLen rcvNxt rcvWnd i)) ooseq = true

/-- `tcp_process` accepts the text of the segment. -/
def takesSegment (pcb : Pcb) (i : InSeg) : Bool :=
  !i.flags.rst && (pcb.state == .established && !i.flags.syn ||
    pcb.state == .synRcvd && i.flags.ack && seqBetween i.ackno (pcb.snd.lastack + 1) pcb.snd.sndNxt)

instance decidableInSequence (rcvNxt : UInt32) (rcvWnd : UInt16) (i : InSeg) : Decidable (InSequence rcvNxt rcvWnd i) :=
  decidable_of_iff (0 < i.tcplen ∧ 0 < rcvWnd ∧ (i.seqno = rcvNxt ∨
      seqBetween rcvNxt (i.seqno + 1) (i.seqno + u32 i.tcplen - 1) = true))
    ⟨fun ⟨text, wnd, seqno⟩ => ⟨text, wnd, seqno⟩, fun h => ⟨h.text, h.wnd, h.seqno⟩⟩

instance decidableOwnFin (rcvNxt : UInt32) (rcvWnd : UInt16) (i : InSeg) : Decidable (OwnFin rcvNxt rcvWnd i) :=
  inferInstanceAs (Decidable (_ ∧ _))

instance decidableFinComes (rcvNxt : UInt32) (rcvWnd : UInt16) (ooseq : List Seg) (i : InSeg) :
    Decidable (FinComes rcvNxt rcvWnd ooseq i) :=
  decidable_of_iff (InSequence rcvNxt rcvWnd i ∧ (OwnFin rcvNxt rcvWnd i ∨
      finReached (rcvNxt + u32 (takenLen rcvNxt rcvWnd i)) ooseq = true))
    ⟨fun ⟨inSequence, fin⟩ => ⟨inSequence, fin⟩, fun h => ⟨h.inSequence, h.fin⟩⟩

variable (c : Config)
variable {i : InSeg} {rcvNxt : UInt32} {seg next : Seg} {s : UInt32} {l rest : List Seg} {pcb pcb' : Pcb}

/-! ## `ooseq` -/

/-- A number is not before itself. -/
theorem seqGeq_self (a : UInt32) : seqGeq a a = true := by
  unfold seqGeq seqLt
  rw [UInt32.sub_self]
  rfl

/-- When no segment on `ooseq` has a FIN, none is reached. -/
theorem finReached_of_noFin (hno : ∀ seg ∈ l, seg.flags.fin = false) (s : UInt32) : finReached s l = false := by
  induction l generalizing s with
  | nil => rfl
  | cons next rest ih =>
      obtain ⟨hnext, hrest⟩ := List.forall_mem_cons.mp hno
      rw [finReached, hnext, ih hrest, ih hrest]
      exact Bool.and_false _

/-- The FIN is on the first segment that leaves no gap, or behind it. -/
theorem finReached_cons : finReached s (next :: rest) = true ↔ noGap s next = true ∧
    (next.flags.fin = true ∨ finReached s rest = true ∨ finReached (next.seqno + u32 next.tcpLen) rest = true) := by
  rw [finReached, Bool.and_eq_true, Bool.or_eq_true, Bool.or_eq_true, or_assoc]

/-- The segments that are dropped from `ooseq` leave no gap, and `seg` is as it was unless one of them has a FIN. -/
theorem dropCovered_fin (seg : Seg) (l : List Seg) :
    finReached (seg.seqno + u32 seg.tcpLen) l = true ∨
      (dropCovered seg l).1 = seg ∧ (finReached (seg.seqno + u32 seg.tcpLen) (dropCovered seg l).2 = true →
        finReached (seg.seqno + u32 seg.tcpLen) l = true) := by
  induction l with
  | nil => exact .inr ⟨rfl, id⟩
  | cons next rest ih =>
      unfold dropCovered
      by_cases hcovered : seqGeq (seg.seqno + u32 seg.tcpLen) (next.seqno + u32 next.len) = true
      · have hnoGap : noGap (seg.seqno + u32 seg.tcpLen) next = true := by
          rw [noGap, hcovered, Bool.or_true]
        by_cases hnext : next.flags.fin = true
        · exact .inl (finReached_cons.mpr ⟨hnoGap, .inl hnext⟩)
        · have hkeep : (next.flags.fin && !seg.flags.syn) = false := by
            rw [eq_false_of_ne_true hnext, Bool.false_and]
          rw [if_pos hcovered, hkeep, if_neg Bool.false_ne_true]
          refine ih.imp (fun hreached => finReached_cons.mpr ⟨hnoGap, .inr (.inl hreached)⟩) fun ⟨hseg, hrest⟩ => ?_
          exact ⟨hseg, fun hreached => finReached_cons.mpr ⟨hnoGap, .inr (.inl (hrest hreached))⟩⟩
      · rw [if_neg hcovered]
        exact .inr ⟨rfl, id⟩

/-- The loop over `ooseq` finds a FIN only in segments that follow each other without a gap. -/
theorem takeOoseq_fin (r : Received) (hgot : (takeOoseq c l r).gotFin = true) :
    r.gotFin = true ∨ ∃ next rest, l = next :: rest ∧ next.seqno = r.pcb.rcv.rcvNxt ∧
      (next.flags.fin = true ∨ finReached (next.seqno + u32 next.tcpLen) rest = true) := by
  induction l generalizing r with
  | nil => exact .inl hgot
  | cons next rest ih =>
      unfold takeOoseq at hgot
      by_cases hnext : next.seqno = r.pcb.rcv.rcvNxt
      · rw [if_pos hnext] at hgot
        have hrcvNxt : (advance c next.tcpLen r.pcb).rcv.rcvNxt = next.seqno + u32 next.tcpLen := by
          rw [hnext]
          exact congrArg View.rcvNxt (view_advance c next.tcpLen r.pcb)
        rcases ih _ hgot with hfin | ⟨next', rest', rfl, hseq, hfin⟩
        · exact ((Bool.or_eq_true _ _).mp hfin).imp id fun hfin => ⟨next, rest, rfl, hnext, .inl hfin⟩
        · -- the next one starts where this one ends
          have hseq' : next'.seqno = next.seqno + u32 next.tcpLen := by
            rw [← hrcvNxt, hseq]
            split <;> rfl
          have hnoGap : noGap (next.seqno + u32 next.tcpLen) next' = true := by
            rw [noGap, hseq', seqGeq_self, Bool.true_or]
          exact .inr ⟨next, _, rfl, hnext, .inr (finReached_cons.mpr ⟨hnoGap, hfin.imp id .inr⟩)⟩
      · rw [if_neg hnext] at hgot
        exact .inl hgot

/-- After, or at. -/
theorem seqGeq_of_seqGt {a b : UInt32} (hgt : seqGt a b = true) : seqGeq a b = true := by
  unfold seqGt seqLeq at hgt
  unfold seqGeq
  rw [Bool.not_or, Bool.and_eq_true] at hgt
  exact hgt.1

/-- Behind a segment without a FIN of its own, a FIN is one on `ooseq`. -/
theorem adjustOoseq_fin (pcb : Pcb) (hseq : seg.seqno = pcb.rcv.rcvNxt) (hfin : seg.flags.fin = false) (l : List Seg)
    (recvData : Chain → Option Chain)
    (hgot : (takeOoseq c (adjustOoseq seg l).2 ⟨advance c (adjustOoseq seg l).1.tcpLen pcb,
      (adjustOoseq seg l).1.flags.fin, recvData (adjustOoseq seg l).1.p⟩).gotFin = true) :
    finReached (seg.seqno + u32 seg.tcpLen) l = true := by
  rcases dropCovered_fin seg l with hreached | ⟨hseg, hrest⟩
  · exact hreached
  refine hrest ?_
  unfold adjustOoseq at hgot
  rw [hfin, if_neg Bool.false_ne_true] at hgot
  generalize dropCovered seg l = dropped at hseg hgot
  obtain ⟨seg', l'⟩ := dropped
  obtain rfl : seg' = seg := hseg
  dsimp only at hgot ⊢
  cases l' with
  | nil =>
      rcases takeOoseq_fin c _ hgot with hown | ⟨next, rest, hnil, -⟩
      · exact absurd (hfin.symm.trans hown) Bool.false_ne_true
      · cases hnil
  | cons next rest =>
      by_cases hover : seqGt (seg'.seqno + u32 seg'.tcpLen) next.seqno = true
      · -- the segment is cut where `next` starts
        simp only [if_pos hover] at hgot
        have hnoGap : noGap (seg'.seqno + u32 seg'.tcpLen) next = true := by
          rw [noGap, seqGeq_of_seqGt hover, Bool.true_or]
        rcases takeOoseq_fin c _ hgot with hown | ⟨_, _, heq, -, hreached⟩
        · exact absurd (hfin.symm.trans hown) Bool.false_ne_true
        · obtain ⟨rfl, rfl⟩ := List.cons.inj heq
          exact finReached_cons.mpr ⟨hnoGap, hreached.imp id .inr⟩
      · simp only [if_neg hover] at hgot
        rcases takeOoseq_fin c _ hgot with hown | ⟨_, _, heq, hnext, hreached⟩
        · exact absurd (hfin.symm.trans hown) Bool.false_ne_true
        · obtain ⟨rfl, rfl⟩ := List.cons.inj heq
          have hstart : next.seqno = seg'.seqno + u32 seg'.tcpLen := by
            rw [hnext, hseq]
            exact congrArg View.rcvNxt (view_advance c seg'.tcpLen pcb)
          have hnoGap : noGap (seg'.seqno + u32 seg'.tcpLen) next = true := by
            rw [noGap, hstart, seqGeq_self, Bool.true_or]
          exact finReached_cons.mpr ⟨hnoGap, hreached.imp id .inr⟩

/-! ## The text -/

/-- The window cuts a segment down to what fits, and drops the FIN behind it. -/
theorem trimToWnd_spec (wnd : UInt16) (seg : Seg) :
    (trimToWnd wnd seg).seqno = seg.seqno ∧ (trimToWnd wnd seg).tcpLen = (if wnd < seg.tcpLen then wnd else seg.tcpLen) ∧
      ((trimToWnd wnd seg).flags.fin = true ↔ seg.flags.fin = true ∧ seg.tcpLen ≤ wnd) := by
  unfold trimToWnd
  by_cases hlong : wnd < seg.tcpLen
  · rw [if_pos hlong]
    refine ⟨rfl, ?_, ?_⟩
    · rw [if_pos hlong]
      show (if seg.flags.syn then wnd - 1 else wnd) + (if false || seg.flags.syn then 1 else 0) = wnd
      cases seg.flags.syn with
      | true => exact UInt16.sub_add_cancel wnd 1
      | false => exact UInt16.add_zero wnd
    · exact iff_of_false Bool.false_ne_true fun hand => UInt16.not_le.mpr hlong hand.2
  · rw [if_neg hlong]
    have hle := UInt16.not_lt.mp hlong
    exact ⟨rfl, (if_neg hlong).symm, (and_iff_left hle).symm⟩

/-- A segment that starts at `rcv_nxt`. -/
theorem receiveInOrder_fin (hseq : seg.seqno = pcb.rcv.rcvNxt) :
    ((receiveInOrder c seg pcb).gotFin = true → (seg.flags.fin = true ∧ seg.tcpLen ≤ pcb.rcv.rcvWnd) ∨
      finReached (pcb.rcv.rcvNxt + u32 (if pcb.rcv.rcvWnd < seg.tcpLen then pcb.rcv.rcvWnd else seg.tcpLen)) pcb.ooseq = true) ∧
    (seg.flags.fin = true → seg.tcpLen ≤ pcb.rcv.rcvWnd →
      (receiveInOrder c seg pcb).gotFin = true ∧
        (receiveInOrder c seg pcb).pcb.rcv.rcvWnd = pcb.rcv.rcvWnd - seg.tcpLen) := by
  obtain ⟨hseqno, hlen, hfin⟩ := trimToWnd_spec pcb.rcv.rcvWnd seg
  unfold receiveInOrder
  generalize trimToWnd pcb.rcv.rcvWnd seg = seg' at hseqno hlen hfin
  dsimp only
  constructor
  · intro hgot
    by_cases hown : seg'.flags.fin = true
    · exact .inl (hfin.mp hown)
    · refine .inr ?_
      rw [← hlen, ← hseq, ← hseqno]
      exact adjustOoseq_fin c pcb (hseqno.trans hseq) (eq_false_of_ne_true hown) pcb.ooseq (catData none) hgot
  · intro hseg hle
    have hown := hfin.mpr ⟨hseg, hle⟩
    have hadjust : adjustOoseq seg' pcb.ooseq = (seg', []) := by
      unfold adjustOoseq
      rw [if_pos hown]
    rw [hadjust]
    refine ⟨hown, ?_⟩
    rw [if_neg (UInt16.not_lt.mpr hle)] at hlen
    have hwnd : (advance c seg'.tcpLen pcb).rcv.rcvWnd = pcb.rcv.rcvWnd - seg.tcpLen :=
      hlen ▸ congrArg View.rcvWnd (view_advance c seg'.tcpLen pcb)
    exact (congrArg View.rcvWnd (view_tcpAck _)).trans hwnd

/-- The next sequence number is in the window exactly if the window is open. -/
theorem seqBetween_window_iff {a : UInt32} {wnd : UInt16} : seqBetween a a (a + u32 wnd - 1) = true ↔ 0 < wnd := by
  have hsub : a - (a + u32 wnd - 1) = 1 - u32 wnd := by grind
  have hself : seqGeq a a = true := seqGeq_self a
  rw [seqBetween, hself, Bool.true_and, seqLeq, seqLt, hsub, Bool.or_eq_true, decide_eq_true_iff, beq_iff_eq]
  have hlt := wnd.toNat_lt
  rw [UInt16.lt_iff_toNat_lt, UInt32.le_iff_toNat_le, UInt32.toNat_sub, UInt16.toNat_toUInt32]
  have hone : a = a + u32 wnd - 1 ↔ wnd.toNat = 1 := by
    have hsame : a = a + u32 wnd - 1 ↔ u32 wnd = 1 := ⟨fun heq => by grind, fun heq => by grind⟩
    rw [hsame, ← UInt32.toNat_inj, UInt16.toNat_toUInt32]
    rfl
  rw [hone]
  show 2147483648 ≤ (2 ^ 32 - wnd.toNat + 1) % 2 ^ 32 ∨ wnd.toNat = 1 ↔ 0 < wnd.toNat
  omega

/-- The front of a segment is cut off at `rcv_nxt`. -/
theorem tcpLen_trimFront (rcvNxt : UInt32) (i : InSeg) : (trimFront rcvNxt i.seg).tcpLen = newLen rcvNxt i := by
  show i.seg.len - (rcvNxt - i.seqno).toUInt16 + (if i.flags.fin || i.flags.syn then 1 else 0) =
    i.seg.len + (if i.flags.fin || i.flags.syn then 1 else 0) - (rcvNxt - i.seqno).toUInt16
  grind

/-- A segment that begins at `rcv_nxt` is new as a whole. -/
theorem newLen_of_eq (hseq : i.seqno = rcvNxt) : newLen rcvNxt i = i.tcplen := by
  rw [newLen, hseq, UInt32.sub_self]
  exact UInt16.sub_zero _

/-- The text of a segment, with the front cut off when it starts in front of `rcv_nxt`. -/
theorem textSeg_spec (rcvNxt : UInt32) (i : InSeg) (hseg : seg = if
      seqBetween rcvNxt (i.seg.seqno + 1) (i.seg.seqno + u32 i.tcplen - 1) = true
      then trimFront rcvNxt i.seg else i.seg) :
    seg.flags = i.flags ∧
      (seg.seqno = rcvNxt ↔ i.seqno = rcvNxt ∨
        seqBetween rcvNxt (i.seqno + 1) (i.seqno + u32 i.tcplen - 1) = true) ∧
      (seg.seqno = rcvNxt → seg.tcpLen = newLen rcvNxt i) := by
  have hseqno : i.seg.seqno = i.seqno := rfl
  rw [hseqno] at hseg
  subst hseg
  by_cases hfront : seqBetween rcvNxt (i.seqno + 1) (i.seqno + u32 i.tcplen - 1) = true
  · rw [if_pos hfront]
    exact ⟨rfl, iff_of_true rfl (.inr hfront), fun _ => tcpLen_trimFront rcvNxt i⟩
  · rw [if_neg hfront, hseqno]
    exact ⟨rfl, (or_iff_left hfront).symm, fun hseq => (newLen_of_eq hseq).symm⟩

/-- The text of a segment ends the stream only if that is said of the segment and the block before; a FIN of its own
leaves the window smaller by what is taken. -/
theorem receiveText_fin (ackAlloc copied : Bool) (i : InSeg) (pcb : Pcb) :
    ((receiveText c ackAlloc copied i pcb).gotFin = true → FinComes pcb.rcv.rcvNxt pcb.rcv.rcvWnd pcb.ooseq i) ∧
    (pcb.state.ltCloseWait = true → InSequence pcb.rcv.rcvNxt pcb.rcv.rcvWnd i → OwnFin pcb.rcv.rcvNxt pcb.rcv.rcvWnd i →
      (receiveText c ackAlloc copied i pcb).gotFin = true ∧
        (receiveText c ackAlloc copied i pcb).pcb.rcv.rcvWnd = pcb.rcv.rcvWnd - newLen pcb.rcv.rcvNxt i) := by
  unfold receiveText
  dsimp only
  by_cases htext : 0 < i.tcplen ∧ pcb.state.ltCloseWait = true
  · rw [if_pos htext]
    generalize hpcb₁ : (if seqBetween pcb.rcv.rcvNxt (i.seg.seqno + 1) (i.seg.seqno + u32 i.tcplen - 1) = false ∧
      seqLt i.seg.seqno pcb.rcv.rcvNxt = true then tcpAckNow pcb else pcb) = pcb₁
    have hsame : pcb₁.rcv = pcb.rcv ∧ pcb₁.ooseq = pcb.ooseq := by
      rw [← hpcb₁]
      split <;> exact ⟨rfl, rfl⟩
    rw [← hsame.1, ← hsame.2]
    generalize hseg : (if seqBetween pcb₁.rcv.rcvNxt (i.seg.seqno + 1) (i.seg.seqno + u32 i.tcplen - 1) = true
      then trimFront pcb₁.rcv.rcvNxt i.seg else i.seg) = seg
    obtain ⟨hflags, hstart, hlen⟩ := textSeg_spec pcb₁.rcv.rcvNxt i hseg.symm
    by_cases hin : seqBetween seg.seqno pcb₁.rcv.rcvNxt (pcb₁.rcv.rcvNxt + u32 pcb₁.rcv.rcvWnd - 1) = true
    · rw [if_pos hin]
      by_cases hseq : pcb₁.rcv.rcvNxt = seg.seqno
      · rw [if_pos hseq]
        obtain ⟨hgot, hown⟩ := receiveInOrder_fin c hseq.symm
        rw [hlen hseq.symm, hflags] at hgot hown
        rw [← hseq] at hin
        refine ⟨fun hfin => ⟨⟨htext.1, seqBetween_window_iff.mp hin, hstart.mp hseq.symm⟩, hgot hfin⟩, ?_⟩
        exact fun _ _ hfin => hown hfin.1 hfin.2
      · rw [if_neg hseq]
        exact ⟨fun hfin => absurd hfin Bool.false_ne_true, fun _ hins => absurd (hstart.mpr hins.seqno).symm hseq⟩
    · rw [if_neg hin]
      refine ⟨fun hfin => absurd hfin Bool.false_ne_true, fun _ hins => absurd ?_ hin⟩
      rw [hstart.mpr hins.seqno]
      exact seqBetween_window_iff.mpr hins.wnd
  · rw [if_neg htext]
    refine ⟨fun hfin => ?_, fun hstate hins => absurd ⟨hins.text, hstate⟩ htext⟩
    split at hfin
    · exact absurd hfin Bool.false_ne_true
    · exact absurd hfin Bool.false_ne_true

/-- `tcp_receive`. The acknowledgement in front of the text leaves the receive side alone. -/
theorem tcpReceive_fin (ticks : UInt32) (ackAlloc copied : Bool) (i : InSeg) (pcb : Pcb) :
    ((tcpReceive c ticks ackAlloc copied i pcb).gotFin = true → FinComes pcb.rcv.rcvNxt pcb.rcv.rcvWnd pcb.ooseq i) ∧
    (pcb.state.ltCloseWait = true → InSequence pcb.rcv.rcvNxt pcb.rcv.rcvWnd i → OwnFin pcb.rcv.rcvNxt pcb.rcv.rcvWnd i →
      (tcpReceive c ticks ackAlloc copied i pcb).gotFin = true ∧
        (tcpReceive c ticks ackAlloc copied i pcb).pcb.rcv.rcvWnd = pcb.rcv.rcvWnd - newLen pcb.rcv.rcvNxt i) := by
  unfold tcpReceive
  split
  · obtain ⟨n, -, hview⟩ := view_receiveAck ticks i pcb
    have hstate : (receiveAck ticks i pcb).state = pcb.state := congrArg View.state hview
    have hrcvNxt : (receiveAck ticks i pcb).rcv.rcvNxt = pcb.rcv.rcvNxt := congrArg View.rcvNxt hview
    have hrcvWnd : (receiveAck ticks i pcb).rcv.rcvWnd = pcb.rcv.rcvWnd := congrArg View.rcvWnd hview
    have hooseq : (receiveAck ticks i pcb).ooseq = pcb.ooseq := congrArg View.ooseq hview
    have htext := receiveText_fin c ackAlloc copied i (receiveAck ticks i pcb)
    rwa [hstate, hrcvNxt, hrcvWnd, hooseq] at htext
  · exact receiveText_fin c ackAlloc copied i pcb

/-! ## `tcp_process` -/

variable {c} {m : Mem} {ph : Phase} {conn : Conn}

/-- When `TF_GOT_FIN` is raised, and what a FIN of the segment's own leaves of the window. -/
structure FinFrom (takes : Bool) (i : InSeg) (pcb : Pcb) (r : Processed) : Prop where
  comes : r.gotFin = true → takes = true ∧ FinComes pcb.rcv.rcvNxt pcb.rcv.rcvWnd pcb.ooseq i
  own : takes = true → InSequence pcb.rcv.rcvNxt pcb.rcv.rcvWnd i → OwnFin pcb.rcv.rcvNxt pcb.rcv.rcvWnd i →
    r.gotFin = true ∧ r.conn.pcb.rcv.rcvWnd = pcb.rcv.rcvWnd - newLen pcb.rcv.rcvNxt i

/-- A segment that is not taken tells of no end. -/
theorem FinFrom.idle {takes : Bool} {r : Processed} (htakes : takes = false) (hfin : r.gotFin = false) :
    FinFrom takes i pcb r := by
  refine ⟨fun hgot => ?_, fun hyes => ?_⟩
  · exact absurd (hfin.symm.trans hgot) Bool.false_ne_true
  · exact absurd (htakes.symm.trans hyes) Bool.false_ne_true

/-- The first part of `tcp_process` reads no text. -/
theorem FinFrom.of_common {r : Processed}
    (h : FinFrom (takesSegment (processCommon c i conn).pcb i) i (processCommon c i conn).pcb r) :
    FinFrom (takesSegment conn.pcb i) i conn.pcb r := ⟨h.comes, h.own⟩

/-- What `tcp_receive` says of the FIN. -/
theorem finFrom_receive {r : Processed} (ticks : UInt32) (ackAlloc copied : Bool) (hstate : pcb.state.ltCloseWait = true)
    (hfin : r.gotFin = (tcpReceive c ticks ackAlloc copied i pcb).gotFin)
    (hwnd : r.conn.pcb.rcv.rcvWnd = (tcpReceive c ticks ackAlloc copied i pcb).pcb.rcv.rcvWnd) :
    FinFrom true i pcb r := by
  obtain ⟨hcomes, hown⟩ := tcpReceive_fin c ticks ackAlloc copied i pcb
  rw [← hfin] at hcomes hown
  rw [← hwnd] at hown
  exact ⟨fun hgot => ⟨rfl, hcomes hgot⟩, fun _ => hown hstate⟩

/-- In SYN_RCVD. -/
theorem Alive.finFrom_synRcvd (h : Alive .connecting conn) (hrst : i.flags.rst = false) :
    FinFrom (takesSegment conn.pcb i) i conn.pcb (processSynRcvd c m i conn) := by
  have hstate : conn.pcb.state = .synRcvd := h.state
  have htakes : takesSegment conn.pcb i =
      (i.flags.ack && seqBetween i.ackno (conn.pcb.snd.lastack + 1) conn.pcb.snd.sndNxt) := by
    rw [takesSegment, hstate, hrst]
    rfl
  rw [htakes]
  unfold processSynRcvd
  cases hack : i.flags.ack with
  | false =>
      rw [if_neg Bool.false_ne_true]
      split
      · exact .idle rfl rfl
      · exact .idle rfl rfl
  | true =>
      rw [if_pos rfl]
      cases hbetween : seqBetween i.ackno (conn.pcb.snd.lastack + 1) conn.pcb.snd.sndNxt with
      | false =>
          rw [if_neg Bool.false_ne_true]
          exact .idle rfl rfl
      | true =>
          -- the connection is accepted, and the segment is received
          rw [if_pos rfl]
          dsimp only
          rw [if_neg (fun hne => hne rfl)]
          set accepted := (appTcpAccept m .ok (conn.onPcb fun pcb => { pcb with state := .established })).2.deref
          have hfrom : FinFrom true i accepted.pcb (Conn.receive c m i accepted) :=
            finFrom_receive accepted.ticks m.ackAlloc m.copied rfl rfl rfl
          refine ⟨hfrom.comes, fun _ hins hfin => ?_⟩
          obtain ⟨hgot, hwnd⟩ := hfrom.own rfl hins hfin
          refine ⟨hgot, Eq.trans ?_ hwnd⟩
          split <;> rfl

/-- In the states behind it. -/
theorem Alive.finFrom_synchronized (hph : ph = .opened ∨ ph = .closing) (h : Alive ph conn)
    (hrst : i.flags.rst = false) (hsyn : i.flags.syn = false) :
    FinFrom (takesSegment conn.pcb i) i conn.pcb (processSynchronized c m i conn) := by
  rcases hph with rfl | rfl
  · have hstate : conn.pcb.state = .established := h.state
    have htakes : takesSegment conn.pcb i = true := by
      rw [takesSegment, hstate, hrst, hsyn]
      rfl
    rw [htakes]
    unfold processSynchronized
    rw [hstate]
    refine finFrom_receive conn.ticks m.ackAlloc m.copied (by rw [hstate]; rfl) rfl ?_
    dsimp only
    split <;> rfl
  · -- a connection that was closed receives nothing
    obtain ⟨-, hfin, -⟩ := h.receive_closing (c := c) (m := m) (i := i)
    have htakes : takesSegment conn.pcb i = false := by
      rw [takesSegment]
      rcases h.state with hstate | hstate
      · rw [hstate, hrst]
        rfl
      · rw [hstate, hrst]
        rfl
    refine .idle htakes ?_
    unfold processSynchronized
    rcases h.state with hstate | hstate
    · rw [hstate]
      exact hfin
    · rw [hstate]
      exact hfin

/-- **When `TF_GOT_FIN` is raised.** -/
theorem Alive.finFrom_tcpProcess (hne : ph ≠ .eof) (h : Alive ph conn) :
    FinFrom (takesSegment conn.pcb i) i conn.pcb (tcpProcess c m i conn) := by
  unfold tcpProcess
  -- no RST and no SYN is taken as a part of the stream
  by_cases hrst : i.flags.rst = true
  · have htakes : takesSegment conn.pcb i = false := by
      rw [takesSegment, hrst]
      rfl
    rw [if_pos hrst]
    split
    · exact .idle htakes rfl
    · exact .idle htakes rfl
  · rw [if_neg hrst]
    have hrst' := eq_false_of_ne_true hrst
    by_cases hsyn : i.flags.syn = true ∧ conn.pcb.state ≠ .synSent ∧ conn.pcb.state ≠ .synRcvd
    · rw [if_pos hsyn]
      refine .idle ?_ rfl
      rw [takesSegment, hsyn.1, beq_false_of_ne hsyn.2.2]
      simp
    · rw [if_neg hsyn]
      have hcommon := h.processCommon (c := c) (i := i)
      have hcases : ph = .connecting ∨ ph = .opened ∨ ph = .closing := by
        cases ph with
        | eof => exact absurd rfl hne
        | _ => simp
      -- the handshake ends with this segment, or the connection is synchronized already
      rcases hcases with rfl | hph
      · have hstate : (Tcp.processCommon c i conn).pcb.state = .synRcvd := hcommon.state
        dsimp only
        rw [hstate]
        exact (hcommon.finFrom_synRcvd hrst').of_common
      · have hstate : conn.pcb.state ≠ .synSent ∧ conn.pcb.state ≠ .synRcvd := by
          rcases hph with rfl | rfl
          · rw [show conn.pcb.state = .established from h.state]
            decide
          · rcases h.state with hs | hs <;> rw [hs] <;> decide
        have hsyn' : i.flags.syn = false := eq_false_of_ne_true fun hflag => hsyn ⟨hflag, hstate⟩
        dsimp only
        split
        · exact absurd ‹_› hstate.1
        · exact absurd ‹_› hstate.2
        · exact (hcommon.finFrom_synchronized hph hrst' hsyn').of_common

end BareMetal.Tcp
