import BareMetal.Tcp.Retransmit

/-! # The queues of a sender as lists

A connection has `unsent` and `unacked` as lists of segments, a `Sender` has them as they lie in memory. Read as lists, the queues
of a sender change as those of a connection do: `tcpOutput_toPcb`, `tcpRexmit_toPcb` and `tcpRexmitRto_toPcb` say so for the three
functions. What a connection does not know is a route that is missing, and a segment whose length does not fit into a `u16_t` any
more when the FIN is counted. -/

namespace BareMetal.Tcp

/-- Counted with its FIN, the segment still has a 16-bit length. -/
def Seg.Short (seg : Seg) : Prop := seg.len.toNat + 1 < 0x10000

/-- The sequence numbers of a short segment, counted in the one model and in the other. -/
theorem Seg.Short.seqLen_eq {seg : Seg} (h : seg.Short) : u32 seg.tcpLen = seg.seqLen := by
  have hone : (seg.len + 1).toNat = seg.len.toNat + 1 := by
    rw [UInt16.toNat_add]
    exact Nat.mod_eq_of_lt h
  rw [Seg.tcpLen, Seg.seqLen]
  split
  · apply UInt32.toNat_inj.mp
    rw [UInt32.toNat_add, UInt16.toNat_toUInt32, UInt16.toNat_toUInt32, hone]
    exact (Nat.mod_eq_of_lt (Nat.lt_trans h (by decide))).symm
  · rw [UInt16.add_zero, UInt32.add_zero]

/-- A short segment takes sequence numbers in both models, or in neither. -/
theorem Seg.Short.tcpLen_pos_iff {seg : Seg} (h : seg.Short) : 0 < seg.tcpLen ↔ 0 < seg.seqLen := by
  rw [← h.seqLen_eq, UInt16.lt_iff_toNat_lt, UInt32.lt_iff_toNat_lt, UInt16.toNat_toUInt32]
  rfl

/-- The loop that looks for the place of a segment, in memory and on a list. -/
theorem map_place (seg : ℕ → Seg) (x : ℕ) (l : List ℕ) :
    (place (fun y => seqLt (seg y).seqno (seg x).seqno) x l).map seg = insertSorted (seg x) (l.map seg) := by
  induction l with
  | nil => rfl
  | cons y l ih =>
      rw [List.map_cons, insertSorted, ← ih, place, place, List.takeWhile_cons, List.dropWhile_cons]
      cases hlt : seqLt (seg y).seqno (seg x).seqno
      · rfl
      · rfl

/-- Putting a segment among the unacknowledged ones, by address and by value. -/
theorem map_putBack (seg : ℕ → Seg) (x : ℕ) (l : List ℕ) :
    (putBack (fun y => (seg y).seqno) x l).map seg = putUnacked (seg x) (l.map seg) := by
  rcases List.eq_nil_or_concat' l with rfl | ⟨L, z, rfl⟩
  · rfl
  · have hne : L ++ [z] ≠ [] := List.append_ne_nil_of_right_ne_nil L (List.cons_ne_nil z [])
    have hlast : ((L ++ [z]).map seg).getLast? = some (seg z) := by
      rw [List.map_append]
      exact List.getLast?_concat
    rw [putBack, putUnacked, hlast, List.getLastD_concat]
    dsimp only
    by_cases hlt : seqLt (seg x).seqno (seg z).seqno = true
    · rw [if_pos ⟨hne, hlt⟩, if_pos hlt]
      exact map_place seg x _
    · rw [if_neg fun hand => hlt hand.2, if_neg hlt, List.map_append]
      rfl

/-- The control block with these queues. -/
def Pcb.setQueues (pcb : Pcb) (unsent unacked : List Seg) : Pcb :=
  { pcb with snd := { pcb.snd with unsent := unsent, unacked := unacked } }

/-- What `tcp_output_segment` writes, as one update. -/
theorem tcpOutputSegment_eq (ticks : UInt32) (seg : Seg) (pcb : Pcb) :
    tcpOutputSegment ticks seg pcb = { tcpOutputAllocHeader pcb with snd := { pcb.snd with
      rtime := if pcb.snd.rtime = -1 then 0 else pcb.snd.rtime
      rttest := if pcb.snd.rttest = 0 then ticks else pcb.snd.rttest
      rtseq := if pcb.snd.rttest = 0 then seg.seqno else pcb.snd.rtseq } } := by
  by_cases hrttest : pcb.snd.rttest = 0
  · simp only [tcpOutputSegment, tcpOutputAllocHeader, hrttest, if_true]
    rfl
  · simp only [tcpOutputSegment, tcpOutputAllocHeader, hrttest, if_false]
    rfl

namespace Sender

variable {c : Config} {env : OutputEnv} {n : ℕ} {base : UInt32} {s s' : Sender} {x y : ℕ} {U A : List ℕ}

/-- The control block with the queues `U` and `A` as its lists. -/
def toPcb (s : Sender) (U A : List ℕ) : Pcb :=
  s.pcb.setQueues (U.map s.seg) (A.map s.seg)

/-! ## A round of `tcp_output` -/

/-- The segment as it goes out. -/
theorem seg_transmit (s : Sender) : (s.transmit env).seg = Function.update s.seg s.unsent
    (if s.pcb.state ≠ .synSent then
      { s.seg s.unsent with flags := { (s.seg s.unsent).flags with ack := true } }
    else s.seg s.unsent) := by
  unfold transmit tcpOutputSegment setAck
  dsimp only
  split
  · rfl
  · rw [Function.update_eq_self]

/-- The other segments stay as they are. -/
theorem map_seg_transmit (h : s.Queues (x :: U) A) (hseg : s'.seg = (s.transmit env).seg) :
    U.map s'.seg = U.map s.seg ∧ A.map s'.seg = A.map s.seg := by
  obtain ⟨rfl, -⟩ := path_cons.mp h.unsent
  have hx : s.unsent ∉ U ++ A := (List.nodup_cons.mp h.nodup).1
  have hother : ∀ y ∈ U ++ A, s'.seg y = s.seg y := fun y hy => by
    have hne : y ≠ s.unsent := fun heq => hx (heq ▸ hy)
    rw [hseg, seg_transmit, Function.update_of_ne hne]
  exact ⟨List.map_congr_left fun y hy => hother y (List.mem_append_left A hy),
    List.map_congr_left fun y hy => hother y (List.mem_append_right U hy)⟩

/-- The lists of a sender see a round as `sendFirst`. -/
theorem round_toPcb (hroute : env.route = true) (h : s.Queues (x :: U) A) (hshort : (s.seg x).Short)
    (hpcb : s'.pcb = (s.transmit env).pcb) (hseg : s'.seg = (s.transmit env).seg) :
    s'.toPcb U (s.putAway x A) = sendFirst env.ticks (s.seg x) (U.map s.seg) (s.toPcb (x :: U) A) := by
  obtain ⟨hU, hA⟩ := map_seg_transmit h hseg
  obtain rfl := (path_cons.mp h.unsent).1
  have hq : s.seqno = fun y => (s'.seg y).seqno := by
    rw [hseg]
    exact (seqno_eq_of_noAck (noAck_transmit env s)).symm
  have hback : (putBack s.seqno s.unsent A).map s'.seg = Tcp.putUnacked (s'.seg s.unsent) (A.map s.seg) := by
    rw [hq, map_putBack, hA]
  have hpos : s.occupies s.unsent = decide (0 < (s.seg s.unsent).tcpLen) :=
    decide_eq_decide.mpr hshort.tcpLen_pos_iff.symm
  have hput : (s.putAway s.unsent A).map s'.seg =
      if 0 < (s.seg s.unsent).tcpLen then Tcp.putUnacked (s'.seg s.unsent) (A.map s.seg) else A.map s.seg := by
    rw [putAway, hpos]
    by_cases hlen : 0 < (s.seg s.unsent).tcpLen
    · rw [if_pos (decide_eq_true hlen), if_pos hlen, hback]
    · rw [if_neg (by rw [decide_eq_false hlen]; decide), if_neg hlen, hA]
  have hshort' : Seg.Short { s.seg s.unsent with flags := { (s.seg s.unsent).flags with ack := true } } := hshort
  rw [toPcb, hpcb, hU, hput, hseg, seg_transmit, Function.update_self]
  unfold transmit tcpOutputSegment setAck sendFirst
  simp only [hroute, if_true, tcpOutputSegment_eq, tcpOutputAllocHeader, toPcb, Pcb.setQueues]
  by_cases hsyn : s.pcb.state = .synSent
  · simp only [hsyn, ne_eq, not_true_eq_false, if_false, seqMax, seqno, seqLen, hshort.seqLen_eq]
  · simp only [hsyn, ne_eq, not_false_eq_true, if_true, seqMax, seqno, seqLen, Function.update_self, hshort'.seqLen_eq]
    rfl

/-! ## `tcp_output` -/

/-- The Nagle test in both models. -/
theorem tcpDoOutputNagle_toPcb (h : s.Queues (x :: U) A) :
    Tcp.tcpDoOutputNagle c (s.toPcb (x :: U) A) = s.tcpDoOutputNagle c := by
  obtain ⟨rfl, hU⟩ := path_cons.mp h.unsent
  have hne : (s.unsent != 0) = true := bne_iff_ne.mpr fun heq => h.null_unsent (heq ▸ List.mem_cons_self)
  have hempty : (A.map s.seg).isEmpty = (s.unacked == 0) := by
    rw [Bool.eq_iff_iff, List.isEmpty_iff, List.map_eq_nil_iff, beq_iff_eq]
    exact (h.unacked.head_eq_iff h.null_unacked).symm
  -- there is another segment behind the first one when its link is not `NULL`
  cases U with
  | nil =>
      have hnext : (s.next s.unsent != 0) = false := bne_eq_false_iff_eq.mpr (path_nil.mp hU)
      simp only [Tcp.tcpDoOutputNagle, Sender.tcpDoOutputNagle, toPcb, Pcb.setQueues, List.map_cons, List.map_nil, hempty, hne,
        hnext, Bool.true_and, Bool.false_or]
  | cons y U =>
      have hnext : (s.next s.unsent != 0) = true := bne_iff_ne.mpr fun heq =>
        h.null_unsent (heq ▸ (path_cons.mp hU).1 ▸ List.mem_cons_of_mem _ List.mem_cons_self)
      simp only [Tcp.tcpDoOutputNagle, Sender.tcpDoOutputNagle, toPcb, Pcb.setQueues, List.map_cons, hempty, hne, hnext,
        Bool.true_and, Bool.true_or]

/-- The test of the window, for the first segment. -/
theorem outputBlocked_cons (wnd : UInt32) (h : s.Queues (x :: U) A) :
    s.outputBlocked wnd = decide (wnd < (s.seg x).seqno - s.pcb.snd.lastack + u32 (s.seg x).len) := by
  obtain ⟨rfl, -⟩ := path_cons.mp h.unsent
  have hne : (s.unsent == 0) = false :=
    beq_eq_false_iff_ne.mpr fun heq => h.null_unsent (heq ▸ List.mem_cons_self)
  rw [outputBlocked, hne, Bool.false_or]
  rfl

/-- The test of the window in both models. -/
theorem outputBlocked_toPcb (wnd : UInt32) (h : s.Queues U A) :
    Tcp.outputBlocked wnd (s.toPcb U A) = s.outputBlocked wnd := by
  cases U with
  | nil =>
      have hunsent : s.unsent = 0 := path_nil.mp h.unsent
      rw [outputBlocked, hunsent]
      rfl
  | cons x U =>
      rw [outputBlocked_cons wnd h]
      rfl

/-- The lists of a sender see the loop as the loop of a connection. -/
theorem outputLoop_toPcb (hroute : env.route = true) (wnd : UInt32) {fuel : ℕ} (h : s.Queues U A)
    (hw : InWindow base s.seqno (U ++ A)) (hshort : ∀ x ∈ U, (s.seg x).Short) (hn : (U ++ A).length ≤ n)
    (hfuel : U.length ≤ fuel) :
    ∃ U' A' s', outputLoop c env n wnd fuel (A.getLastD 0) s = some s' ∧ s'.Queues U' A' ∧
      s'.toPcb U' A' = Tcp.outputLoop c env.ticks wnd (U.map s.seg) (s.toPcb U A) := by
  induction U generalizing s A fuel with
  | nil =>
      have hblocked : s.outputBlocked wnd = true := by simp [outputBlocked, path_nil.mp h.unsent]
      refine ⟨[], A, s, ?_, h, rfl⟩
      cases fuel <;> exact if_pos hblocked
  | cons x U ih =>
      obtain ⟨fuel, rfl⟩ := Nat.exists_eq_add_of_lt (Nat.lt_of_lt_of_le (Nat.succ_pos _) hfuel)
      rw [Nat.zero_add] at hfuel ⊢
      have hnagle := tcpDoOutputNagle_toPcb (c := c) h
      have hblocked := outputBlocked_cons wnd h
      rw [List.map_cons, outputLoop, Tcp.outputLoop, hnagle]
      by_cases hfits : (s.seg x).seqno - s.pcb.snd.lastack + u32 (s.seg x).len ≤ wnd
      · rw [decide_eq_false (UInt32.not_lt.mpr hfits)] at hblocked
        rw [hblocked, if_neg Bool.false_ne_true, if_pos (show (s.seg x).seqno - (s.toPcb (x :: U) A).snd.lastack +
          u32 (s.seg x).len ≤ wnd from hfits)]
        by_cases hwaits : s.tcpDoOutputNagle c = false ∧ (s.pcb.flags.nagleMemErr || s.pcb.flags.fin) = false
        · rw [if_pos hwaits]
          exact ⟨x :: U, A, s, rfl, h, (if_pos hwaits).symm⟩
        · -- a round, and then the rest
          simp only [List.cons_append, List.length_cons, List.length_append] at hn hfuel
          obtain ⟨s₁, hrun, hq, hpcb, hseg, -⟩ := round_eq env h hw.first (n := n) (by omega)
          have hround := round_toPcb hroute h (hshort x List.mem_cons_self) hpcb hseg
          have hnoAck : ∀ y, (s₁.seg y).noAck = (s.seg y).noAck := hseg ▸ noAck_transmit env s
          have hperm := perm_putAway s x A
          have hlen : (s.putAway x A).length ≤ A.length + 1 := by
            rw [hperm.length_eq, List.length_append]
            exact Nat.add_le_add_left (List.length_filter_le _ [x]) _
          have hw₁ : InWindow base s₁.seqno (U ++ s.putAway x A) :=
            (seqno_eq_of_noAck hnoAck).symm ▸ hw.rest hperm
          have hshort₁ : ∀ y ∈ U, (s₁.seg y).Short := fun y hy => by
            have hlen := congrArg Seg.len (hnoAck y)
            simp only [Seg.noAck] at hlen
            rw [Seg.Short, hlen]
            exact hshort y (List.mem_cons_of_mem x hy)
          obtain ⟨U', A', s', hrest, hq', heq⟩ := ih hq hw₁ hshort₁
            (by rw [List.length_append]; omega) (Nat.le_of_succ_le_succ hfuel)
          rw [if_neg hwaits, hrun, Option.bind_some]
          refine ⟨U', A', s', hrest, hq', heq.trans ?_⟩
          rw [(map_seg_transmit h hseg).1, hround]
          exact (if_neg hwaits).symm
      · rw [decide_eq_true (UInt32.not_le.mp hfits)] at hblocked
        rw [hblocked, if_pos rfl]
        exact ⟨x :: U, A, s, rfl, h, (if_neg hfits).symm⟩

/-- **`tcp_output` on lists.** What it does to a sender is what it does to a connection with the queues as lists. -/
theorem tcpOutput_toPcb (hroute : env.route = true) (h : s.Queues U A) (hw : InWindow base s.seqno (U ++ A))
    (hshort : ∀ x ∈ U, (s.seg x).Short) (hn : (U ++ A).length ≤ n) :
    ∃ U' A' s', s.tcpOutput c env n = some s' ∧ s'.Queues U' A' ∧
      s'.toPcb U' A' = Tcp.tcpOutput c env.ticks env.isInputPcb env.alloc (s.toPcb U A) := by
  by_cases hinput : env.isInputPcb = true
  · exact ⟨U, A, s, if_pos hinput, h, (if_pos hinput).symm⟩
  have hblocked := outputBlocked_toPcb s.wnd h
  by_cases hempty : (s.pcb.flags.ackNow && s.outputBlocked s.wnd) = true
  · have hempty' : ((s.toPcb U A).flags.ackNow && Tcp.outputBlocked s.wnd (s.toPcb U A)) = true := by
      rw [hblocked]
      exact hempty
    have hack : Tcp.tcpOutput c env.ticks env.isInputPcb env.alloc (s.toPcb U A) =
        tcpSendEmptyAck env.alloc (s.toPcb U A) := (if_neg hinput).trans (if_pos hempty')
    refine ⟨U, A, _, (if_neg hinput).trans (if_pos hempty), ⟨h.unsent, h.unacked, h.nodup, h.null⟩, ?_⟩
    rw [hack]
    unfold tcpSendEmptyAck
    split <;> rfl
  · have hempty' : ¬((s.toPcb U A).flags.ackNow && Tcp.outputBlocked s.wnd (s.toPcb U A)) = true := by
      rw [hblocked]
      exact hempty
    rw [List.length_append] at hn
    obtain ⟨U', A', s', hrun, hq, heq⟩ :=
      outputLoop_toPcb (c := c) (n := n) hroute s.wnd h hw hshort (List.length_append ▸ hn) (by omega : U.length ≤ n)
    have hout : s.tcpOutput c env n = some { s' with
        unsentOversize := if s'.unsent = 0 then 0 else s'.unsentOversize
        pcb := { s'.pcb with flags := { s'.pcb.flags with nagleMemErr := false } } } := by
      rw [tcpOutput, if_neg hinput, if_neg hempty, lastNode_eq h.unacked h.null_unacked (by omega), Option.bind_some, hrun]
      rfl
    refine ⟨U', A', _, hout, ⟨hq.unsent, hq.unacked, hq.nodup, hq.null⟩, ?_⟩
    refine (congrArg (fun pcb : Pcb => { pcb with flags := { pcb.flags with nagleMemErr := false } }) heq).trans ?_
    exact ((if_neg hinput).trans (if_neg hempty')).symm

/-! ## The retransmissions -/

/-- **`tcp_rexmit` on lists.** -/
theorem tcpRexmit_toPcb (h : s.Queues U A) (hn : U.length ≤ n) :
    ∃ U' A' s', s.tcpRexmit n = some s' ∧ s'.Queues U' A' ∧ s'.toPcb U' A' = Tcp.tcpRexmit (s.toPcb U A) := by
  cases A with
  | nil => exact ⟨U, [], s, if_pos (path_nil.mp h.unacked), h, rfl⟩
  | cons x A =>
      obtain ⟨s', hrun, hq, hs'⟩ := tcpRexmit_spec h hn
      refine ⟨_, A, s', hrun, hq, ?_⟩
      have hplace : (place (fun y => seqLt (s.seqno y) (s.seqno x)) x U).map s.seg =
          insertSorted (s.seg x) (U.map s.seg) := map_place s.seg x U
      rw [hs', toPcb, Pcb.setQueues]
      dsimp only [countRexmit]
      rw [hplace]
      rfl

/-- **`tcp_rexmit_rto` on lists.** It is called where no segment is being received. -/
theorem tcpRexmitRto_toPcb (hroute : env.route = true) (hinput : env.isInputPcb = false) (h : s.Queues U A)
    (hw : InWindow base s.seqno (U ++ A)) (hshort : ∀ x ∈ U ++ A, (s.seg x).Short) (hn : (U ++ A).length ≤ n) :
    ∃ U' A' s', s.tcpRexmitRto c env n = some s' ∧ s'.Queues U' A' ∧
      s'.toPcb U' A' = Tcp.tcpRexmitRto c env.ticks env.alloc (s.toPcb U A) := by
  by_cases hempty : A = []
  · subst hempty
    exact ⟨U, [], s, if_pos (path_nil.mp h.unacked), h, rfl⟩
  · have hunacked : ¬s.unacked = 0 := fun heq => hempty ((h.unacked.head_eq_iff h.null_unacked).mp heq)
    have hmap : ¬A.map s.seg = [] := fun heq => hempty (List.map_eq_nil_iff.mp heq)
    have hperm : (A ++ U).Perm (U ++ A) := List.perm_append_comm
    obtain ⟨s₁, hrun, hq, hs₁⟩ := requeueAll_spec h hempty (Nat.le_trans (by simp) hn)
    have hseg : s₁.seg = s.seg := by rw [hs₁]; rfl
    have hpcb : s₁.pcb = s.countRexmit.pcb := by rw [hs₁]
    have hkey : s₁.seqno = s.seqno := by
      funext y
      rw [seqno, seqno, hseg]
    obtain ⟨U', A', s', hrun', hq', heq⟩ := tcpOutput_toPcb (c := c) (n := n) hroute hq
      (by rw [hkey, List.append_nil]; exact hw.mono hperm.subset)
      (fun x hx => hseg ▸ hshort x (hperm.subset hx)) (by rw [List.append_nil, hperm.length_eq]; exact hn)
    refine ⟨U', A', s', ?_, hq', heq.trans ?_⟩
    · rw [tcpRexmitRto, if_neg hunacked, hrun, Option.bind_some, hrun']
    · rw [hinput, Tcp.tcpRexmitRto, if_neg (show ¬(s.toPcb U A).snd.unacked = [] from hmap)]
      rw [toPcb, hseg, hpcb, List.map_append]
      rfl

end Sender

end BareMetal.Tcp
