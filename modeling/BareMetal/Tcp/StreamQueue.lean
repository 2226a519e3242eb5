import BareMetal.Tcp.Stream

/-! # What waits out of sequence

`ooseq` holds pieces of the stream in order that do not overlap (`Waits`), and queueing a segment keeps this. `takeOoseq_spec`
says what is taken from the queue as soon as the bytes in front of it are there. -/

namespace BareMetal.Tcp

/-- The segments are pieces of the stream that begin behind `lo` and in front of `top`, each behind the end of the one
before. -/
def Waits (σ : Peer) (top : ℕ) : ℕ → List Seg → Prop
  | _, [] => True
  | lo, seg :: rest => ∃ a, lo ≤ a ∧ a < top ∧ σ.Piece a seg ∧ Waits σ top (a + seg.tcpLen.toNat) rest

variable {σ : Peer} {seg : Seg} {l : List Seg} {a n lo lo' top top' : ℕ}

/-- The queue may begin earlier. -/
theorem Waits.mono (h : Waits σ top lo l) (hlo : lo' ≤ lo) : Waits σ top lo' l := by
  cases l with
  | nil => trivial
  | cons seg rest =>
      obtain ⟨a, hle, hrest⟩ := h
      exact ⟨a, hlo.trans hle, hrest⟩

/-- And end later. -/
theorem Waits.mono_top (h : Waits σ top lo l) (htop : top ≤ top') : Waits σ top' lo l := by
  induction l generalizing lo with
  | nil => trivial
  | cons seg rest ih =>
      obtain ⟨a, hle, hlt, hseg, hrest⟩ := h
      exact ⟨a, hle, hlt.trans_le htop, hseg, ih hrest⟩

/-- One segment waits. -/
theorem waits_singleton (h : σ.Piece a seg) (hlo : lo ≤ a) (htop : a < top) : Waits σ top lo [seg] :=
  ⟨a, hlo, htop, h, trivial⟩

/-- Nothing waits behind the FIN. -/
theorem Peer.Piece.fin_last (h : σ.Piece a seg) (hfin : seg.flags.fin = true)
    (hl : Waits σ top (a + seg.tcpLen.toNat) l) : l = [] := by
  cases l with
  | nil => rfl
  | cons next rest =>
      obtain ⟨b, hle, -, hnext, -⟩ := hl
      have hend := h.fin hfin
      have hlen := h.tcpLen
      have hstop := hnext.le
      rw [if_pos hfin] at hlen
      omega

/-! ## Queueing -/

/-- Walking over the segments that `cseg` covers. -/
theorem waits_insertCovering {cseg : Seg} (h : σ.Piece a cseg) (hfin : cseg.flags.fin = false) (ha : a < top)
    (htop : top ≤ a + 0x10000) (hl : Waits σ top a l) : Waits σ top a (insertCovering cseg l) := by
  have hlen : cseg.tcpLen.toNat = cseg.len.toNat := by
    rw [h.tcpLen, hfin]
    rfl
  have hlt := cseg.len.toNat_lt
  induction l with
  | nil => exact waits_singleton h (Nat.le_refl a) ha
  | cons next rest ih =>
      obtain ⟨b, hab, hb, hnext, hrest⟩ := hl
      have hlt' := next.len.toNat_lt
      unfold insertCovering
      rw [h.stop, hnext.stop, seqGeq_seqNo (by omega) (by omega)]
      by_cases hcover : b + next.len.toNat ≤ a + cseg.len.toNat
      · rw [if_pos (decide_eq_true hcover)]
        by_cases hnextFin : next.flags.fin = true
        · -- the stream ends with `next`, and now with `cseg`
          obtain rfl := hnext.fin_last hnextFin hrest
          have hend := hnext.fin hnextFin
          have hstop := h.le
          rw [if_pos hnextFin]
          exact waits_singleton (h.setFin (by omega)) (Nat.le_refl a) ha
        · rw [if_neg hnextFin]
          exact ih (hrest.mono (by omega))
      · have hnot : ¬decide (b + next.len.toNat ≤ a + cseg.len.toNat) = true := by simpa using hcover
        have hsub : (next.seqno - cseg.seqno).toUInt16.toNat = b - a := by
          rw [h.seqno, hnext.seqno]
          exact toNat_seqNo_sub hab (by omega)
        rw [if_neg hnot, hnext.seqno, seqGt_seqNo (by omega) (by omega), ← hnext.seqno]
        refine ⟨a, Nat.le_refl a, ha, ?_, b, ?_, hb, hnext, hrest⟩
        · split
          · rename_i hover
            have hlong := of_decide_eq_true hover
            exact h.cut _ (by omega) hfin
          · exact h
        · split
          · rename_i hover
            have hlong := of_decide_eq_true hover
            rw [tcpLen_cut (h.cut _ (by omega) hfin) hfin, hsub]
            omega
          · rename_i hover
            have hshort : ¬b < a + cseg.len.toNat := fun hlong => hover (decide_eq_true hlong)
            rw [hlen]
            omega

/-- A segment with its neighbours trimmed waits in its place. -/
theorem waits_tcpOosInsertSegment {cseg : Seg} (h : σ.Piece a cseg) (ha : a < top) (htop : top ≤ a + 0x10000)
    (hl : Waits σ top a l) : Waits σ top a (tcpOosInsertSegment cseg l) := by
  unfold tcpOosInsertSegment
  split
  · exact waits_singleton h (Nat.le_refl a) ha
  · rename_i hfin
    exact waits_insertCovering h (eq_false_of_ne_true hfin) ha htop hl

/-- What comes in front of `n` ends there when it is trimmed. -/
theorem Peer.Piece.trimBefore (h : σ.Piece a seg) (hfin : seg.flags.fin = false) (hlt : a < n) (hn : n < a + 0x10000) :
    σ.Piece a (trimBefore (seqNo σ.irs n) seg) ∧ a + (Tcp.trimBefore (seqNo σ.irs n) seg).tcpLen.toNat ≤ n := by
  have hlen : seg.tcpLen.toNat = seg.len.toNat := by
    rw [h.tcpLen, hfin]
    rfl
  have hshort := h.short
  have hsub : (seqNo σ.irs n - seg.seqno).toUInt16.toNat = n - a := by
    rw [h.seqno]
    exact toNat_seqNo_sub hlt.le (by omega)
  unfold Tcp.trimBefore
  rw [h.stop, seqGt_seqNo (by omega) (by omega)]
  split
  · rename_i hover
    have hlong := of_decide_eq_true hover
    have hcut := h.cut (seqNo σ.irs n - seg.seqno).toUInt16 (by omega) hfin
    refine ⟨hcut, ?_⟩
    rw [tcpLen_cut hcut hfin, hsub]
    omega
  · rename_i hover
    have hle : ¬n < a + seg.len.toNat := fun hlong => hover (decide_eq_true hlong)
    exact ⟨h, by omega⟩

/-- What is trimmed to the window stays a piece, as long as the window does not go over the end of the range: the
source compares its right edge as a plain number. -/
theorem Peer.Piece.trimOverrun (h : σ.Piece a seg) {rcv : Rcv} (hrcv : rcv.rcvNxt = seqNo σ.irs n) (hge : n ≤ a)
    (hlt : a < n + rcv.rcvWnd.toNat) (hwrap : rcv.rcvNxt.toNat + rcv.rcvWnd.toNat < 0x100000000) :
    σ.Piece a (trimOverrun rcv seg) := by
  have hshort := h.short
  have hwnd := rcv.rcvWnd.toNat_lt
  have hnat : seg.seqno.toNat = rcv.rcvNxt.toNat + (a - n) := by
    rw [hrcv] at hwrap ⊢
    rw [h.seqno, toNat_seqNo, toNat_seqNo] at *
    omega
  have hedge : (rcv.rcvNxt + u32 rcv.rcvWnd).toNat = rcv.rcvNxt.toNat + rcv.rcvWnd.toNat := by
    rw [UInt32.toNat_add, UInt16.toNat_toUInt32]
    omega
  have hsub : (rcv.rcvNxt + u32 rcv.rcvWnd - seg.seqno).toUInt16.toNat = n + rcv.rcvWnd.toNat - a := by
    rw [hrcv, seqNo_add_u32, h.seqno]
    exact toNat_seqNo_sub hlt.le (by omega)
  unfold Tcp.trimOverrun
  dsimp only
  split
  · rename_i hover
    have hlong := UInt32.lt_iff_toNat_lt.mp hover
    rw [hedge, UInt32.toNat_add, UInt16.toNat_toUInt32, hnat] at hlong
    have hlen := h.tcpLen
    have hmax : seg.tcpLen.toNat ≤ seg.len.toNat + 1 := by split at hlen <;> omega
    exact h.clearFin.cut _ (by
      rw [hsub]
      show _ ≤ seg.len.toNat
      omega) rfl
  · exact h

/-- The segment comes between `prev`, if there is one, and `next`. -/
def fitsBetween (seg : Seg) (prev : Option Seg) (next : Seg) : Bool :=
  prev.elim (seqLt seg.seqno next.seqno) fun prev => seqBetween seg.seqno (prev.seqno + 1) (next.seqno - 1)

/-- A turn of the loop over `ooseq`. -/
theorem queueOoseq_cons (rcv : Rcv) (copied : Bool) (seg : Seg) (prev : Option Seg) (next : Seg) (rest : List Seg) :
    queueOoseq rcv copied seg prev (next :: rest) =
      if seg.seqno = next.seqno then
        prev.toList ++ if next.len < seg.len ∧ copied then tcpOosInsertSegment seg (next :: rest) else next :: rest
      else if fitsBetween seg prev next then
        if copied then (prev.map (trimBefore seg.seqno)).toList ++ tcpOosInsertSegment seg (next :: rest)
        else prev.toList ++ next :: rest
      else if rest.isEmpty ∧ seqGt seg.seqno next.seqno then
        if next.flags.fin = false ∧ copied = true then
          prev.toList ++ [trimBefore seg.seqno next, trimOverrun rcv seg]
        else prev.toList ++ [next]
      else prev.toList ++ queueOoseq rcv copied seg (some next) rest := by
  cases prev <;> rfl

/-- The walk for the segment at place `a` stands behind `prev`, and what follows begins behind `m`. -/
structure Walked (σ : Peer) (top lo m a : ℕ) (prev : Option Seg) : Prop where
  le : lo ≤ m
  put : ∀ l, Waits σ top m l → Waits σ top lo (prev.toList ++ l)
  trim : ∀ next rest l, Waits σ top m (next :: rest) → Waits σ top a l →
    Waits σ top lo ((prev.map (trimBefore (seqNo σ.irs a))).toList ++ l)
  fits : ∀ seg next b, seg.seqno = seqNo σ.irs a → next.seqno = seqNo σ.irs b → m ≤ b → b < top →
    fitsBetween seg prev next = decide (a < b)

/-- At the start of the loop nothing has been passed. -/
theorem walked_none (hlo : lo ≤ a) (ha : a < top) (htop : top ≤ lo + 0x10000) : Walked σ top lo lo a none := by
  refine ⟨Nat.le_refl lo, fun _ hl => hl, fun _ _ _ _ hl => hl.mono hlo, fun seg next b hseg hnext hle hlt => ?_⟩
  show seqLt seg.seqno next.seqno = _
  rw [hseg, hnext]
  exact seqLt_seqNo (by omega) (by omega)

/-- The loop has passed a segment. -/
theorem walked_some {prev : Seg} {b : ℕ} (h : σ.Piece b prev) (hlo : lo ≤ b) (hb : b < a) (ha : a < top)
    (htop : top ≤ b + 0x10000) : Walked σ top lo (b + prev.tcpLen.toNat) a (some prev) := by
  refine ⟨by omega, fun l hl => ⟨b, hlo, by omega, h, hl⟩, fun next rest l hnext hl => ?_,
    fun seg next d hseg hnext hle hlt => ?_⟩
  · have hfin : prev.flags.fin = false := by
      by_contra hfin
      exact List.cons_ne_nil _ _ (h.fin_last (eq_true_of_ne_false hfin) hnext)
    obtain ⟨hpiece, hend⟩ := h.trimBefore hfin hb (by omega)
    exact ⟨b, hlo, by omega, hpiece, hl.mono hend⟩
  · show seqBetween seg.seqno (prev.seqno + 1) (next.seqno - 1) = _
    rw [seqBetween, hseg, hnext, h.seqno, seqNo_add_one, seqGeq_seqNo (by omega) (by omega),
      seqLeq_seqNo_sub_one (by omega) (by omega), decide_eq_true (Nat.succ_le_of_lt hb), Bool.true_and]

/-- What waits before waits behind the walk, with the segment or without it. -/
theorem waits_queueOoseq {rcv : Rcv} {copied : Bool} {prev : Option Seg} {m : ℕ} (h : σ.Piece a seg)
    (hrcv : rcv.rcvNxt = seqNo σ.irs n) (hwrap : rcv.rcvNxt.toNat + rcv.rcvWnd.toNat < 0x100000000) (hn : n ≤ m)
    (hge : n ≤ a) (hlt : a < n + rcv.rcvWnd.toNat) (hprev : Walked σ (n + 0x10000) lo m a prev)
    (hl : Waits σ (n + 0x10000) m l) : Waits σ (n + 0x10000) lo (queueOoseq rcv copied seg prev l) := by
  have hwnd := rcv.rcvWnd.toNat_lt
  have ha : a < n + 0x10000 := by omega
  induction l generalizing prev m lo with
  | nil =>
      have hnil := hprev.put [] trivial
      rw [List.append_nil] at hnil
      cases prev <;> exact hnil
  | cons next rest ih =>
      have hsame := hl
      obtain ⟨b, hmb, hb, hnext, hrest⟩ := hl
      have hplace : Waits σ (n + 0x10000) b (next :: rest) := ⟨b, Nat.le_refl b, hb, hnext, hrest⟩
      rw [queueOoseq_cons]
      by_cases heq : seg.seqno = next.seqno
      · rw [if_pos heq]
        rw [h.seqno, hnext.seqno, seqNo_inj (by omega) (by omega)] at heq
        subst heq
        apply hprev.put
        split
        · exact (waits_tcpOosInsertSegment h ha (by omega) hplace).mono hmb
        · exact hsame
      have hne : a ≠ b := fun hab => heq (by rw [h.seqno, hnext.seqno, hab])
      rw [if_neg heq, hprev.fits seg next b h.seqno hnext.seqno hmb hb]
      by_cases hfits : a < b
      · rw [if_pos (decide_eq_true hfits), h.seqno]
        split
        · exact hprev.trim next rest _ hsame (waits_tcpOosInsertSegment h ha (by omega) (hplace.mono hfits.le))
        · exact hprev.put _ hsame
      have hba : b < a := by omega
      rw [if_neg (by simpa using hfits)]
      split
      · rename_i hlast
        obtain rfl := List.isEmpty_iff.mp hlast.1
        split
        · -- behind the last segment, which ends where the new one begins
          rename_i hfin
          obtain ⟨hpiece, hend⟩ := hnext.trimBefore hfin.1 hba (by omega)
          rw [h.seqno]
          refine hprev.put _ ⟨b, hmb, hb, hpiece, ?_⟩
          exact waits_singleton (h.trimOverrun hrcv hge hlt hwrap) hend ha
        · exact hprev.put _ (waits_singleton hnext hmb hb)
      · exact hprev.put _ (ih (by omega) (walked_some hnext hmb hba ha (by omega)) hrest)

/-! ## Taking -/

/-- The bytes of `recv_data`. -/
def recvText (recvData : Option Chain) : List UInt8 := (recvData.getD []).flatten

/-- Data behind the data that wait for the application. -/
theorem recvText_catData (recvData : Option Chain) (p : Chain) :
    recvText (catData recvData p) = recvText recvData ++ p.flatten := by
  unfold catData
  split
  · show (recvData.getD [] ++ p).flatten = _
    rw [List.flatten_append]
    rfl
  · rename_i hnone
    have hempty : p.flatten = [] := List.length_eq_zero_iff.mp (Nat.eq_zero_of_not_pos hnone)
    rw [hempty, List.append_nil]

/-- Either a FIN that was covered is on the segment now, or only covered segments went. -/
theorem dropCovered_spec (h : σ.Piece n seg) (hfin : seg.flags.fin = false) (htop : top ≤ n + 0x10000) (hlo : n ≤ lo)
    (hl : Waits σ top lo l) :
    (n + seg.len.toNat = σ.data.length ∧
        dropCovered seg l = ({ seg with flags := { seg.flags with fin := true } }, [])) ∨
      ∃ l', dropCovered seg l = (seg, l') ∧ Waits σ top lo l' ∧
        ∀ next ∈ l'.head?, ∀ b, b < top → n ≤ b → next.seqno = seqNo σ.irs b → n + seg.len.toNat < b + next.len.toNat := by
  have hlen : seg.tcpLen.toNat = seg.len.toNat := by
    rw [h.tcpLen, hfin]
    rfl
  have hlt := seg.len.toNat_lt
  induction l with
  | nil => exact Or.inr ⟨[], rfl, trivial, fun next hnext => by cases hnext⟩
  | cons next rest ih =>
      have hsame := hl
      obtain ⟨b, hle, hb, hnext, hrest⟩ := hl
      have hlt' := next.len.toNat_lt
      unfold dropCovered
      rw [h.tcpStop, hnext.stop, seqGeq_seqNo (by omega) (by omega), hlen]
      by_cases hcover : b + next.len.toNat ≤ n + seg.len.toNat
      · rw [if_pos (decide_eq_true hcover)]
        by_cases hnextFin : next.flags.fin = true
        · obtain rfl := hnext.fin_last hnextFin hrest
          have hend := hnext.fin hnextFin
          have hstop := h.le
          left
          rw [hnextFin, h.syn]
          exact ⟨by omega, rfl⟩
        · rw [eq_false_of_ne_true hnextFin, Bool.false_and, if_neg Bool.false_ne_true]
          exact ih (hrest.mono (by omega))
      · rw [if_neg (by simpa using hcover)]
        refine Or.inr ⟨next :: rest, rfl, hsame, fun next' hnext' d hd hnd hseq => ?_⟩
        obtain rfl := Option.some.inj hnext'
        rw [hnext.seqno, seqNo_inj (by omega) (by omega)] at hseq
        omega

/-- What the segment in sequence covers goes, and what of it is on `ooseq` goes out of the segment. All of it is either
in the segment or in front of the end of the first one that waits. -/
theorem adjustOoseq_spec (h : σ.Piece n seg) (htop : top ≤ n + 0x10000) (hl : Waits σ top (n + 1) l) :
    σ.Piece n (adjustOoseq seg l).1 ∧
      Waits σ top (n + (adjustOoseq seg l).1.tcpLen.toNat) (adjustOoseq seg l).2 ∧
      (seg.tcpLen.toNat ≤ (adjustOoseq seg l).1.tcpLen.toNat ∨ ∃ next rest, (adjustOoseq seg l).2 = next :: rest ∧
        next.seqno = seqNo σ.irs (n + (adjustOoseq seg l).1.tcpLen.toNat) ∧
        seg.tcpLen.toNat ≤ (adjustOoseq seg l).1.tcpLen.toNat + next.tcpLen.toNat) := by
  unfold adjustOoseq
  split
  · exact ⟨h, trivial, Or.inl (Nat.le_refl _)⟩
  rename_i hfin
  have hfin := eq_false_of_ne_true hfin
  have hlen : seg.tcpLen.toNat = seg.len.toNat := by
    rw [h.tcpLen, hfin]
    rfl
  have hlt := seg.len.toNat_lt
  rcases dropCovered_spec h hfin htop (Nat.le_succ n) hl with ⟨hend, hdrop⟩ | ⟨l', hdrop, hl', huncovered⟩
  · rw [hdrop]
    exact ⟨h.setFin hend, trivial, Or.inl (by rw [hlen, (h.setFin hend).tcpLen]; exact Nat.le_add_right _ _)⟩
  · rw [hdrop]
    cases l' with
    | nil => exact ⟨h, trivial, Or.inl (Nat.le_refl _)⟩
    | cons next rest =>
        obtain ⟨b, hle, hb, hnext, hrest⟩ := hl'
        have hlong := huncovered next rfl b hb (by omega) hnext.seqno
        dsimp only
        rw [h.tcpStop, hnext.seqno, seqGt_seqNo (by omega) (by omega), ← hnext.seqno, hlen]
        split
        · -- the segment ends where the first one that waits begins
          rename_i hover
          have hover := of_decide_eq_true hover
          have hsub : (next.seqno - seg.seqno).toUInt16.toNat = b - n := by
            rw [h.seqno, hnext.seqno]
            exact toNat_seqNo_sub (by omega) (by omega)
          have hcut := h.cut (next.seqno - seg.seqno).toUInt16 (by omega) hfin
          have hcutLen : (seg.cut (next.seqno - seg.seqno).toUInt16).tcpLen.toNat = b - n := by
            rw [tcpLen_cut hcut hfin, hsub]
          have hplace : n + (b - n) = b := by omega
          have hmore := hnext.len_le
          rw [h.syn, if_neg Bool.false_ne_true, hcutLen, hplace]
          exact ⟨hcut, ⟨b, Nat.le_refl b, hb, hnext, hrest⟩, Or.inr ⟨next, rest, rfl, hnext.seqno, by omega⟩⟩
        · rename_i hover
          have hover : ¬b < n + seg.len.toNat := fun hlt => hover (decide_eq_true hlt)
          rw [hlen]
          exact ⟨h, ⟨b, by omega, hb, hnext, hrest⟩, Or.inl (Nat.le_refl _)⟩

/-- `tcp_receive` has found the first `n` places, and has now received the first `m`. -/
structure Took (σ : Peer) (n m : ℕ) (r : Received) : Prop where
  rcvNxt : r.pcb.rcv.rcvNxt = seqNo σ.irs m
  ge : n ≤ m
  le : m ≤ σ.data.length + 1
  text : recvText r.recvData = slice σ.data n m
  fin : r.gotFin = decide (m = σ.data.length + 1)

/-- A segment in sequence. -/
theorem Took.advance {r r' : Received} (h : Took σ n a r) (hseg : σ.Piece a seg)
    (hrcv : r'.pcb.rcv.rcvNxt = r.pcb.rcv.rcvNxt + u32 seg.tcpLen) (hfin : r'.gotFin = (r.gotFin || seg.flags.fin))
    (hdata : r'.recvData = catData r.recvData seg.p) : Took σ n (a + seg.tcpLen.toNat) r' := by
  have hge := h.ge
  have hlen := hseg.tcpLen
  have hstop := hseg.le
  refine ⟨?_, by omega, hseg.stop_le, ?_, ?_⟩
  · rw [hrcv, h.rcvNxt, seqNo_add_u32]
  · rw [hdata, recvText_catData, h.text, hseg.tcpText, slice_append hge (Nat.le_add_right _ _)]
  · have hnot : decide (a = σ.data.length + 1) = false := decide_eq_false (by omega)
    rw [hfin, h.fin, hnot, Bool.false_or]
    cases hflag : seg.flags.fin with
    | true =>
        have hend := hseg.fin hflag
        rw [hflag, if_pos rfl] at hlen
        exact (decide_eq_true (by omega)).symm
    | false =>
        rw [hflag, if_neg Bool.false_ne_true] at hlen
        exact (decide_eq_false (by omega)).symm

/-- What is in sequence now is taken, and the rest waits on. -/
theorem takeOoseq_took {c : Config} {r : Received} {m : ℕ} (h : Took σ n m r) (htop : top ≤ m + 0x10000)
    (hl : Waits σ top m l) :
    ∃ m', m ≤ m' ∧ Took σ n m' (takeOoseq c l r) ∧ Waits σ top (m' + 1) (takeOoseq c l r).pcb.ooseq ∧
      ∀ next ∈ l.head?, next.seqno = seqNo σ.irs m → m + next.tcpLen.toNat ≤ m' := by
  induction l generalizing r m with
  | nil =>
      exact ⟨m, Nat.le_refl m, ⟨h.rcvNxt, h.ge, h.le, h.text, h.fin⟩, trivial, fun next hnext => by cases hnext⟩
  | cons cseg rest ih =>
      obtain ⟨a, hle, ha, hcseg, hrest⟩ := hl
      unfold takeOoseq
      by_cases hnext : cseg.seqno = r.pcb.rcv.rcvNxt
      · rw [if_pos hnext]
        rw [hcseg.seqno, h.rcvNxt, seqNo_inj (by omega) (by omega)] at hnext
        subst hnext
        dsimp only
        have hadv : (advance c cseg.tcpLen r.pcb).rcv.rcvNxt = r.pcb.rcv.rcvNxt + u32 cseg.tcpLen :=
          congrArg View.rcvNxt (view_advance c cseg.tcpLen r.pcb)
        have htook : Took σ n (a + cseg.tcpLen.toNat)
            { pcb := if cseg.flags.fin = true ∧ (advance c cseg.tcpLen r.pcb).state = .established then
                { advance c cseg.tcpLen r.pcb with state := .closeWait } else advance c cseg.tcpLen r.pcb
              gotFin := r.gotFin || cseg.flags.fin
              recvData := catData r.recvData cseg.p } := by
          refine h.advance hcseg ?_ rfl rfl
          dsimp only
          split <;> exact hadv
        obtain ⟨m', hm, htook', hwaits, -⟩ := ih htook (by omega) hrest
        refine ⟨m', by omega, htook', hwaits, fun next hnext _ => ?_⟩
        obtain rfl := Option.some.inj hnext
        exact hm
      · rw [if_neg hnext]
        rw [hcseg.seqno, h.rcvNxt, seqNo_inj (by omega) (by omega)] at hnext
        refine ⟨m, Nat.le_refl m, ⟨h.rcvNxt, h.ge, h.le, h.text, h.fin⟩, ⟨a, by omega, ha, hcseg, hrest⟩,
          fun next hhead hseq => ?_⟩
        obtain rfl := Option.some.inj hhead
        rw [hcseg.seqno, seqNo_inj (by omega) (by omega)] at hseq
        exact absurd hseq hnext

end BareMetal.Tcp
