import BareMetal.Lib.SerialNumber
import BareMetal.Lib.Slices
import BareMetal.Tcp.RecvWindow

/-! # The stream of the other end

The other end numbers the bytes that it sends; its segments are pieces of them, cut and repeated as it likes. The places are
counted without end here, and the comparisons of `tcp_impl.h` compare them as long as they are less than half the range apart.
What `tcp_receive` does to one segment, cutting it at the front or at the end, leaves a piece of the stream. -/

namespace BareMetal.Tcp

/-- The other end of a connection: the number of its first byte, and all bytes that it will send before its FIN. -/
structure Peer where
  irs : UInt32
  data : List UInt8

variable {base : UInt32} {i j : ℕ}

/-! ## Comparing places -/

/-- On numbers of near places, `TCP_SEQ_LT` compares the places. -/
theorem seqLt_seqNo (h : i < j + 0x80000000) (h' : j < i + 0x80000000) :
    seqLt (seqNo base i) (seqNo base j) = decide (i < j) :=
  decide_eq_decide.mpr (half_le_seqNo_sub_iff h h')

/-- On numbers of near places, `TCP_SEQ_LEQ` compares the places. -/
theorem seqLeq_seqNo (h : i < j + 0x80000000) (h' : j < i + 0x80000000) :
    seqLeq (seqNo base i) (seqNo base j) = decide (i ≤ j) := by
  have heq : (seqNo base i == seqNo base j) = decide (i = j) := by
    rw [Bool.eq_iff_iff, beq_iff_eq, decide_eq_true_iff]
    exact seqNo_inj (by omega) (by omega)
  rw [seqLeq, seqLt_seqNo h h', heq, ← Bool.decide_or]
  exact decide_eq_decide.mpr Nat.le_iff_lt_or_eq.symm

/-- On numbers of near places, `TCP_SEQ_GT` compares the places. -/
theorem seqGt_seqNo (h : i < j + 0x80000000) (h' : j < i + 0x80000000) :
    seqGt (seqNo base i) (seqNo base j) = decide (j < i) := by
  rw [seqGt, seqLeq_seqNo h h', ← decide_not]
  exact decide_eq_decide.mpr Nat.not_le

/-- On numbers of near places, `TCP_SEQ_GEQ` compares the places. -/
theorem seqGeq_seqNo (h : i < j + 0x80000000) (h' : j < i + 0x80000000) :
    seqGeq (seqNo base i) (seqNo base j) = decide (j ≤ i) := by
  rw [seqGeq, seqLt_seqNo h h', ← decide_not]
  exact decide_eq_decide.mpr Nat.not_lt

/-- The number of the next place. -/
theorem seqNo_add_one (base : UInt32) (i : ℕ) : seqNo base i + 1 = seqNo base (i + 1) := seqNo_add_ofNat base i 1

/-- The number behind a segment. -/
theorem seqNo_add_u32 (base : UInt32) (i : ℕ) (n : UInt16) : seqNo base i + u32 n = seqNo base (i + n.toNat) := by
  rw [← seqNo_add_ofNat]
  congr 1
  apply UInt32.toNat_inj.mp
  have hlt := n.toNat_lt
  rw [UInt16.toNat_toUInt32, UInt32.toNat_ofNat', Nat.mod_eq_of_lt (by omega)]

/-- The number of the place before. -/
theorem seqNo_succ_sub_one (base : UInt32) (i : ℕ) : seqNo base (i + 1) - 1 = seqNo base i := by
  rw [← seqNo_add_one, UInt32.add_sub_cancel]

/-- The last place in front of `j`, which may be the one in front of the first one. -/
theorem seqLeq_seqNo_sub_one (h : i + 1 < j + 0x80000000) (h' : j < i + 0x80000000) :
    seqLeq (seqNo base i) (seqNo base j - 1) = decide (i < j) := by
  cases j with
  | zero =>
      have hbase := base.toNat_lt
      have hlt : ¬(0x80000000 : UInt32) ≤ seqNo base i - (seqNo base 0 - 1) := by
        have hhalf : (0x80000000 : UInt32).toNat = 0x80000000 := rfl
        have hone : (1 : UInt32).toNat = 1 := rfl
        rw [UInt32.le_iff_toNat_le, UInt32.toNat_sub, UInt32.toNat_sub, toNat_seqNo, toNat_seqNo, hhalf, hone]
        omega
      have hne : seqNo base i ≠ seqNo base 0 - 1 := fun heq => by
        have hone : (1 : UInt32).toNat = 1 := rfl
        have hnat := congrArg UInt32.toNat heq
        rw [UInt32.toNat_sub, toNat_seqNo, toNat_seqNo, hone] at hnat
        omega
      rw [seqLeq, seqLt, decide_eq_false hlt, beq_false_of_ne hne]
      rfl
  | succ j =>
      rw [seqNo_succ_sub_one, seqLeq_seqNo (by omega) (by omega)]
      exact decide_eq_decide.mpr Nat.lt_succ_iff.symm

/-- `b` lies behind `a`, within 16 bits. -/
theorem toNat_seqNo_sub (h : j ≤ i) (hshort : i - j < 0x10000) :
    (seqNo base i - seqNo base j).toUInt16.toNat = i - j := by
  rw [seqNo_sub h, UInt32.toNat_toUInt16, UInt32.toNat_ofNat']
  omega

/-! ## Chains -/

/-- `pbuf_realloc` keeps the first bytes. -/
theorem flatten_pbufRealloc (p : Chain) (n : ℕ) : (pbufRealloc p n).flatten = p.flatten.take n := by
  induction p generalizing n with
  | nil => simp [pbufRealloc]
  | cons q qs ih =>
      unfold pbufRealloc
      split
      · rename_i hlt
        rw [List.flatten_cons, ih, List.flatten_cons, List.take_append, List.take_of_length_le hlt.le]
      · rename_i hge
        rw [List.flatten_cons, List.flatten_nil, List.append_nil, List.flatten_cons,
          List.take_append_of_le_length (Nat.le_of_not_lt hge)]

/-- What `pbuf_header` hides are the first bytes. -/
theorem flatten_pbufHide (p : Chain) (n : ℕ) : (pbufHide p n).flatten = p.flatten.drop n := by
  induction p generalizing n with
  | nil => simp [pbufHide]
  | cons q qs ih =>
      unfold pbufHide
      split
      · rename_i hlt
        rw [List.flatten_cons, List.nil_append, ih, List.flatten_cons, List.drop_append, List.drop_of_length_le hlt.le,
          List.nil_append]
      · rename_i hge
        rw [List.flatten_cons, List.flatten_cons, List.drop_append_of_le_length (Nat.le_of_not_lt hge)]

/-! ## Pieces -/

/-- The segment carries the bytes from place `a` on, and its FIN is behind the last byte. -/
structure Peer.Piece (σ : Peer) (a : ℕ) (seg : Seg) : Prop where
  seqno : seg.seqno = seqNo σ.irs a
  len : seg.len.toNat = seg.p.totLen
  text : seg.p.flatten = slice σ.data a (a + seg.len.toNat)
  le : a + seg.len.toNat ≤ σ.data.length
  fin : seg.flags.fin = true → a + seg.len.toNat = σ.data.length
  syn : seg.flags.syn = false
  short : seg.len.toNat + 1 < 0x10000

variable {σ : Peer} {seg : Seg} {a : ℕ}

/-- Without a SYN only the FIN counts beside the data. -/
theorem toNat_tcpLen_of_syn (hsyn : seg.flags.syn = false) (hshort : seg.len.toNat + 1 < 0x10000) :
    seg.tcpLen.toNat = seg.len.toNat + if seg.flags.fin then 1 else 0 := by
  unfold Seg.tcpLen
  rw [hsyn, Bool.or_false, UInt16.toNat_add]
  split
  · exact Nat.mod_eq_of_lt hshort
  · show (seg.len.toNat + 0) % 2 ^ 16 = seg.len.toNat + 0
    exact Nat.mod_eq_of_lt (by omega)

/-- The places that a piece takes. -/
theorem Peer.Piece.tcpLen (h : σ.Piece a seg) : seg.tcpLen.toNat = seg.len.toNat + if seg.flags.fin then 1 else 0 :=
  toNat_tcpLen_of_syn h.syn h.short

/-- The data of a piece are among its places. -/
theorem Peer.Piece.len_le (h : σ.Piece a seg) : seg.len.toNat ≤ seg.tcpLen.toNat := by
  rw [h.tcpLen]
  exact Nat.le_add_right _ _

/-- The number behind its last byte. -/
theorem Peer.Piece.stop (h : σ.Piece a seg) : seg.seqno + u32 seg.len = seqNo σ.irs (a + seg.len.toNat) := by
  rw [h.seqno, seqNo_add_u32]

/-- The number behind it. -/
theorem Peer.Piece.tcpStop (h : σ.Piece a seg) : seg.seqno + u32 seg.tcpLen = seqNo σ.irs (a + seg.tcpLen.toNat) := by
  rw [h.seqno, seqNo_add_u32]

/-- The FIN has a number, and no byte. -/
theorem Peer.Piece.tcpText (h : σ.Piece a seg) : seg.p.flatten = slice σ.data a (a + seg.tcpLen.toNat) := by
  rw [h.text, h.tcpLen]
  split
  · rename_i hfin
    have hend := h.fin hfin
    exact slice_of_length_le (by omega) (by omega)
  · rfl

/-- A piece that reaches the end may carry the FIN. -/
theorem Peer.Piece.setFin (h : σ.Piece a seg) (hend : a + seg.len.toNat = σ.data.length) :
    σ.Piece a { seg with flags := { seg.flags with fin := true } } :=
  ⟨h.seqno, h.len, h.text, h.le, fun _ => hend, h.syn, h.short⟩

/-- A piece may come without its FIN. -/
theorem Peer.Piece.clearFin (h : σ.Piece a seg) : σ.Piece a { seg with flags := { seg.flags with fin := false } } :=
  ⟨h.seqno, h.len, h.text, h.le, fun hfin => Bool.noConfusion hfin, h.syn, h.short⟩

/-- Only the FIN reaches behind the last byte. -/
theorem Peer.Piece.stop_le (h : σ.Piece a seg) : a + seg.tcpLen.toNat ≤ σ.data.length + 1 := by
  have hle := h.le
  rw [h.tcpLen]
  split <;> omega

/-- What is cut at the end is a piece. -/
theorem Peer.Piece.cut (h : σ.Piece a seg) (len : UInt16) (hlen : len.toNat ≤ seg.len.toNat)
    (hfin : seg.flags.fin = false) : σ.Piece a (seg.cut len) := by
  have htext := h.text
  have hle := h.le
  have htot := h.len
  have hp : (seg.cut len).p.flatten = seg.p.flatten.take len.toNat := by
    unfold Seg.cut
    dsimp only
    split
    · exact flatten_pbufRealloc seg.p len.toNat
    · rename_i hge
      exact (List.take_of_length_le (Nat.le_of_not_lt hge)).symm
  have hslice : (seg.cut len).p.flatten = slice σ.data a (a + len.toNat) := by
    rw [hp, htext, slice, slice, List.take_take]
    congr 1
    omega
  refine ⟨h.seqno, ?_, hslice, ?_, fun hf => ?_, h.syn, ?_⟩
  · show len.toNat = ((seg.cut len).p.flatten).length
    rw [hslice, length_slice (by omega), Nat.add_sub_cancel_left]
  · show a + len.toNat ≤ _
    omega
  · exact absurd (hfin.symm.trans hf) Bool.false_ne_true
  · show len.toNat + 1 < 0x10000
    have hshort := h.short
    omega

/-- A piece that was cut takes the places of its data. -/
theorem tcpLen_cut {len : UInt16} (h : σ.Piece a (seg.cut len)) (hfin : seg.flags.fin = false) :
    (seg.cut len).tcpLen.toNat = len.toNat := by
  have hfin' : (seg.cut len).flags.fin = false := hfin
  rw [h.tcpLen, hfin']
  rfl

/-- What is cut at the front is a piece. -/
theorem Peer.Piece.trimFront (h : σ.Piece a seg) {n : ℕ} (hge : a ≤ n) (hle : n ≤ a + seg.len.toNat) :
    σ.Piece n (trimFront (seqNo σ.irs n) seg) ∧
      n + (Tcp.trimFront (seqNo σ.irs n) seg).tcpLen.toNat = a + seg.tcpLen.toNat := by
  have hshort := h.short
  have hstop := h.le
  have hoff : (seqNo σ.irs n - seg.seqno).toUInt16.toNat = n - a := by
    rw [h.seqno]
    exact toNat_seqNo_sub hge (by omega)
  have hoff' : (seqNo σ.irs n - seg.seqno).toNat = n - a := by
    rw [h.seqno, seqNo_sub hge, UInt32.toNat_ofNat']
    omega
  have hlen : (Tcp.trimFront (seqNo σ.irs n) seg).len.toNat = seg.len.toNat - (n - a) := by
    show (seg.len - (seqNo σ.irs n - seg.seqno).toUInt16).toNat = _
    rw [UInt16.toNat_sub_of_le _ _ (by rw [UInt16.le_iff_toNat_le]; omega), hoff]
  have hp : (Tcp.trimFront (seqNo σ.irs n) seg).p.flatten = slice σ.data n (a + seg.len.toNat) := by
    show (pbufHide seg.p (seqNo σ.irs n - seg.seqno).toNat).flatten = _
    have hplace : a + (n - a) = n := Nat.add_sub_cancel' hge
    have hrest : a + seg.len.toNat - a - (n - a) = a + seg.len.toNat - n := by omega
    rw [flatten_pbufHide, hoff', h.text, slice, slice, List.drop_take, List.drop_drop, hplace, hrest]
  have hend : n + (Tcp.trimFront (seqNo σ.irs n) seg).len.toNat = a + seg.len.toNat := by omega
  have hpiece : σ.Piece n (Tcp.trimFront (seqNo σ.irs n) seg) := by
    refine ⟨rfl, ?_, ?_, ?_, fun hf => ?_, h.syn, ?_⟩
    · show _ = ((Tcp.trimFront (seqNo σ.irs n) seg).p.flatten).length
      rw [hp, length_slice hstop]
      omega
    · rw [hp, hend]
    · rw [hend]
      exact hstop
    · rw [hend]
      exact h.fin hf
    · omega
  refine ⟨hpiece, ?_⟩
  rw [hpiece.tcpLen, h.tcpLen, ← Nat.add_assoc, hend, Nat.add_assoc]
  rfl

end BareMetal.Tcp
