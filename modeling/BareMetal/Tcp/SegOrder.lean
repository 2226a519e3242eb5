import BareMetal.Tcp.SegQueue

/-! # Sending in order

`unsent` and `unacked` are sorted by sequence number. All sequence numbers lie in one half of the range, so the
wrapping comparison orders them like their offsets, and `tcp_output` finds the place of a segment that it
sends again: `putBack` says where that is. `round_spec` is one round of its loop, `outputLoop_spec` the loop,
`tcpOutput_spec` the call. The running tail pointer is the last node of `unacked` in all of them. -/

namespace BareMetal.Tcp

/-! ## Sorted queues -/

/-- The sequence numbers of `l` lie in one half of the range. -/
def InWindow (base : UInt32) (q : ℕ → UInt32) (l : List ℕ) : Prop := ∀ x ∈ l, InHalf base (q x)

/-- No segment of `l` comes, by its sequence number, before an earlier one. -/
def SortedBy (q : ℕ → UInt32) (l : List ℕ) : Prop := l.Pairwise fun x y => seqLt (q y) (q x) = false

/-- Where `tcp_output` puts a segment on `unacked`: at the tail, unless it comes before the last one. -/
def putBack (q : ℕ → UInt32) (x : ℕ) (A : List ℕ) : List ℕ :=
  if A ≠ [] ∧ seqLt (q x) (q (A.getLastD 0)) then place (fun y => seqLt (q y) (q x)) x A else A ++ [x]

variable {base : UInt32} {q : ℕ → UInt32} {x y : ℕ} {l l' U U' A A' : List ℕ}

/-- In half the range the comparison is that of the offsets. -/
theorem seqLt_eq {a b : UInt32} (ha : InHalf base a) (hb : InHalf base b) :
    seqLt a b = decide (seqOffset base a < seqOffset base b) :=
  decide_eq_decide.mpr (half_le_sub_iff ha hb)

/-- A part of the segments. -/
theorem InWindow.mono (h : InWindow base q l) (hsub : l' ⊆ l) : InWindow base q l' :=
  fun x hx => h x (hsub hx)

/-- The first segment of `unsent` and those of `unacked` are in the window. -/
theorem InWindow.first (h : InWindow base q (x :: U ++ A)) : InWindow base q (A ++ [x]) := h.mono fun y hy => by
  rw [List.mem_append, List.mem_singleton] at hy
  rw [List.cons_append, List.mem_cons, List.mem_append]
  exact hy.elim (fun hy => .inr (.inr hy)) .inl

/-- Behind a round the segments that are left are in the window. -/
theorem InWindow.rest {p : ℕ → Bool} (h : InWindow base q (x :: U ++ A)) (hperm : A'.Perm (A ++ [x].filter p)) :
    InWindow base q (U ++ A') := by
  intro y hy
  rcases List.mem_append.mp hy with hy | hy
  · exact h y (List.mem_cons_of_mem x (List.mem_append_left A hy))
  · rcases List.mem_append.mp (hperm.subset hy) with hy | hy
    · exact h y (List.mem_cons_of_mem x (List.mem_append_right U hy))
    · exact h.first y (List.mem_append_right A (List.mem_of_mem_filter hy))

/-- In a window the order is that of the offsets. -/
theorem sortedBy_iff (h : InWindow base q l) :
    SortedBy q l ↔ l.Pairwise fun x y => seqOffset base (q x) ≤ seqOffset base (q y) := by
  refine List.Pairwise.iff_of_mem fun {x y} hx hy => ?_
  rw [seqLt_eq (h y hy) (h x hx), decide_eq_false_iff_not, Nat.not_lt]

/-- Putting a segment back loses none. -/
theorem perm_putBack (q : ℕ → UInt32) (x : ℕ) (A : List ℕ) : (putBack q x A).Perm (A ++ [x]) := by
  unfold putBack
  split
  · exact perm_place _ x A
  · exact List.Perm.refl _

/-- A segment finds its place in a sorted queue. -/
theorem sortedBy_place (hw : InWindow base q (l ++ [x])) (h : SortedBy q l) :
    SortedBy q (place (fun y => seqLt (q y) (q x)) x l) := by
  have hwl : InWindow base q l := hw.mono (List.subset_append_left l [x])
  have hx : InHalf base (q x) := hw x (List.mem_append_right l (List.mem_singleton_self x))
  rw [sortedBy_iff (hw.mono (perm_place _ x l).subset)]
  exact pairwise_place (fun y hy => seqLt_eq (hwl y hy) hx) ((sortedBy_iff hwl).mp h)

/-- Two sorted queues are sorted behind one another when the last segment of the first one does not come after
the first one of the second. -/
theorem sortedBy_append (hw : InWindow base q (l ++ l')) (h : SortedBy q l) (h' : SortedBy q l')
    (hjoin : l ≠ [] → ∀ y ∈ l'.head?, seqLt (q y) (q (l.getLastD 0)) = false) : SortedBy q (l ++ l') := by
  have hwl : InWindow base q l := hw.mono (List.subset_append_left l l')
  have hwl' : InWindow base q l' := hw.mono (List.subset_append_right l l')
  rw [sortedBy_iff hw, List.pairwise_append]
  rw [sortedBy_iff hwl] at h
  rw [sortedBy_iff hwl'] at h'
  refine ⟨h, h', fun y hy z hz => ?_⟩
  obtain ⟨L, w, rfl⟩ := (List.eq_nil_or_concat' l).resolve_left (List.ne_nil_of_mem hy)
  obtain ⟨v, l', rfl⟩ := List.exists_cons_of_ne_nil (List.ne_nil_of_mem hz)
  -- `y` is not after the last segment `w`, nor that after the first one `v`, nor that after `z`
  have hyw : seqOffset base (q y) ≤ seqOffset base (q w) := by
    rcases List.mem_append.mp hy with hy | hy
    · exact (List.pairwise_append.mp h).2.2 y hy w (List.mem_singleton_self w)
    · exact (congrArg (seqOffset base ∘ q) (List.mem_singleton.mp hy)).le
  have hwv : seqOffset base (q w) ≤ seqOffset base (q v) := by
    have hnot := hjoin (List.ne_nil_of_mem hy) v rfl
    rw [List.getLastD_concat, seqLt_eq (hwl' v List.mem_cons_self) (hwl w (by simp)),
      decide_eq_false_iff_not] at hnot
    exact Nat.not_lt.mp hnot
  have hvz : seqOffset base (q v) ≤ seqOffset base (q z) := by
    rcases List.mem_cons.mp hz with rfl | hz
    · exact Nat.le_refl _
    · exact (List.pairwise_cons.mp h').1 z hz
  exact hyw.trans (hwv.trans hvz)

/-- `unacked` stays sorted. -/
theorem sortedBy_putBack (hw : InWindow base q (A ++ [x])) (hA : SortedBy q A) :
    SortedBy q (putBack q x A) := by
  unfold putBack
  split
  · exact sortedBy_place hw hA
  · rename_i hlast
    refine sortedBy_append hw hA (List.pairwise_singleton _ x) fun hne y hy => ?_
    obtain rfl : x = y := Option.some.inj hy
    exact Bool.eq_false_iff.mpr fun hlt => hlast ⟨hne, hlt⟩

/-- In a window, `seqMax` yields the later one of its arguments. -/
theorem seqMax_spec {a b : UInt32} (ha : InHalf base a) (hb : InHalf base b) :
    InHalf base (seqMax a b) ∧ seqOffset base a ≤ seqOffset base (seqMax a b) ∧
      seqOffset base b ≤ seqOffset base (seqMax a b) := by
  have heq := seqLt_eq ha hb
  unfold seqMax
  split
  · rename_i hlt
    rw [heq, decide_eq_true_iff] at hlt
    exact ⟨hb, hlt.le, Nat.le_refl _⟩
  · rename_i hlt
    rw [heq, decide_eq_true_iff] at hlt
    exact ⟨ha, Nat.le_refl _, Nat.not_lt.mp hlt⟩

/-- In a window, the maximum over a list comes before none of its numbers. -/
theorem seqMax_foldl_spec {m : UInt32} {l : List UInt32} (h : ∀ a ∈ m :: l, InHalf base a) :
    InHalf base (l.foldl seqMax m) ∧ ∀ a ∈ m :: l, seqOffset base a ≤ seqOffset base (l.foldl seqMax m) := by
  induction l generalizing m with
  | nil =>
      refine ⟨h m List.mem_cons_self, fun a ha => ?_⟩
      obtain rfl := List.mem_singleton.mp ha
      exact Nat.le_refl _
  | cons b l ih =>
      have hm := h m List.mem_cons_self
      have hb := h b (List.mem_cons_of_mem m List.mem_cons_self)
      have hl := fun a ha => h a (List.mem_cons_of_mem m (List.mem_cons_of_mem b ha))
      obtain ⟨hmax, hle, hle'⟩ := seqMax_spec hm hb
      obtain ⟨hfold, hall⟩ := ih (m := seqMax m b) (List.forall_mem_cons.mpr ⟨hmax, hl⟩)
      have hstep := hall (seqMax m b) List.mem_cons_self
      refine ⟨hfold, List.forall_mem_cons.mpr ⟨hle.trans hstep, List.forall_mem_cons.mpr ⟨hle'.trans hstep, ?_⟩⟩⟩
      exact fun a ha => hall a (List.mem_cons_of_mem _ ha)

/-! ## The queues in memory -/

namespace Sender

/-- The queues of a sender are `U` and `A`: two lists that end in `NULL` and have no segment in common. -/
structure Queues (s : Sender) (U A : List ℕ) : Prop where
  unsent : Path s.next s.unsent U 0
  unacked : Path s.next s.unacked A 0
  nodup : (U ++ A).Nodup
  null : 0 ∉ U ++ A

variable {c : Config} {env : OutputEnv} {n : ℕ} {s s' : Sender}

/-- `NULL` is no segment of `unsent`. -/
theorem Queues.null_unsent (h : s.Queues U A) : 0 ∉ U := fun hm => h.null (List.mem_append_left A hm)

/-- Nor of `unacked`. -/
theorem Queues.null_unacked (h : s.Queues U A) : 0 ∉ A := fun hm => h.null (List.mem_append_right U hm)

/-- Two lists in memory that share the segments of one list without repetition are queues. -/
theorem Queues.of_perm (hU : Path s.next s.unsent U 0) (hA : Path s.next s.unacked A 0)
    (hperm : (U ++ A).Perm l) (hnodup : l.Nodup) (hnull : 0 ∉ l) : s.Queues U A :=
  ⟨hU, hA, hperm.nodup_iff.mpr hnodup, fun hm => hnull (hperm.subset hm)⟩

/-- Where the tail of a round puts the segment, and what it takes for the tail afterwards. -/
theorem putUnacked_path (hA : Path s.next s.unacked A 0) (hnull : 0 ∉ A) (hx : x ∉ A)
    (hw : InWindow base s.seqno (A ++ [x])) (hn : A.length ≤ n) (hocc : s.occupies x = true) :
    ∃ head next, s.putUnacked n x (A.getLastD 0) =
        some ((putBack s.seqno x A).getLastD 0, { s with unacked := head, next := next }) ∧
      Path next head (putBack s.seqno x A) 0 ∧ ∀ y, y ≠ x → y ∉ A → next y = s.next y := by
  -- `seg->next = NULL` does not touch the queue
  have hA := (path_update (c := 0) hx).mpr hA
  have hother : ∀ y, y ≠ x → Function.update s.next x 0 y = s.next y :=
    fun y hy => Function.update_of_ne hy 0 s.next
  unfold putUnacked
  rw [if_pos hocc]
  rcases List.eq_nil_or_concat' A with rfl | ⟨L, z, rfl⟩
  · have hput : putBack s.seqno x [] = [x] := by simp [putBack]
    rw [hput]
    refine ⟨x, Function.update s.next x 0, if_pos (path_nil.mp hA), ?_, fun y hy _ => hother y hy⟩
    exact path_cons.mpr ⟨rfl, Function.update_self x 0 s.next⟩
  · have hne : L ++ [z] ≠ [] := List.append_ne_nil_of_right_ne_nil L (List.cons_ne_nil z [])
    have hhead : ¬s.unacked = 0 := fun heq => hne ((hA.head_eq_iff hnull).mp heq)
    rw [List.getLastD_concat]
    by_cases hlt : seqLt (s.seqno x) (s.seqno z) = true
    · -- in front of the first segment that does not come before it
      have hput : putBack s.seqno x (L ++ [z]) = place (fun y => seqLt (s.seqno y) (s.seqno x)) x (L ++ [z]) := by
        rw [putBack, if_pos ⟨hne, by rwa [List.getLastD_concat]⟩]
      have hwx : InHalf base (s.seqno x) := hw x (by simp)
      have hwz : InHalf base (s.seqno z) := hw z (by simp)
      have hzx : seqLt (s.seqno z) (s.seqno x) = false := by
        rw [seqLt_eq hwx hwz, decide_eq_true_iff] at hlt
        rw [seqLt_eq hwz hwx, decide_eq_false_iff_not]
        exact Nat.lt_asymm hlt
      have hlast : (place (fun y => seqLt (s.seqno y) (s.seqno x)) x (L ++ [z])).getLastD 0 = z :=
        getLastD_place List.getLast?_concat hzx
      obtain ⟨head, next, hrun, hpath, hframe⟩ := insertBefore_eq
        (f := fun y => !seqLt (s.seqno y) (s.seqno x)) hA hnull hn hx
      simp only [Bool.not_not] at hpath
      rw [hput, hlast]
      refine ⟨head, next, ?_, hpath, fun y hyx hyA => (hframe y hyx hyA).trans (hother y hyx)⟩
      exact (if_neg hhead).trans ((if_pos hlt).trans (congrArg (Option.map _) hrun))
    · -- behind the last segment
      have hput : putBack s.seqno x (L ++ [z]) = L ++ [z] ++ [x] := by
        rw [putBack, if_neg]
        rw [List.getLastD_concat]
        exact fun hand => hlt hand.2
      have hz0 : Function.update s.next x 0 z = 0 := by
        obtain ⟨d, -, rfl, hd⟩ := path_append.mp hA
        exact path_nil.mp hd
      have hpath := hA.insertAfter (hA.nodup hnull) hx
      rw [hz0, Function.update_idem, List.append_cons] at hpath
      rw [hput, List.getLastD_concat]
      refine ⟨s.unacked, Function.update (Function.update s.next x 0) z x, ?_, hpath, fun y hyx hyA => ?_⟩
      · exact (if_neg hhead).trans (if_neg hlt)
      · rw [Function.update_of_ne (fun heq => hyA (by simp [heq])), hother y hyx]

/-! ## A round -/

/-- From `s` to `s'`, the segments `T` were sent: the block knows the latest of their ends, those that occupy no
sequence space are freed, and of the segments nothing but the ACK flag changes. -/
structure Sent (s : Sender) (T : List ℕ) (s' : Sender) : Prop where
  sent : s'.sent = s.sent ++ T
  freed : s'.freed = s.freed ++ T.filter (!s.occupies ·)
  sndNxt : s'.pcb.snd.sndNxt = (T.map fun x => s.seqno x + s.seqLen x).foldl seqMax s.pcb.snd.sndNxt
  lastack : s'.pcb.snd.lastack = s.pcb.snd.lastack
  sndWnd : s'.pcb.snd.sndWnd = s.pcb.snd.sndWnd
  cwnd : s'.pcb.snd.cwnd = s.pcb.snd.cwnd
  seg : ∀ x, (s'.seg x).noAck = (s.seg x).noAck

/-- Nothing was sent. -/
theorem Sent.refl (s : Sender) : Sent s [] s :=
  ⟨(List.append_nil _).symm, (List.append_nil _).symm, rfl, rfl, rfl, rfl, fun _ => rfl⟩

/-- Sending leaves alone what the window test reads. -/
theorem Sent.reach {T : List ℕ} (h : Sent s T s') : s'.reach = s.reach := by
  funext x
  rw [Sender.reach, Sender.reach, seqno_eq_of_noAck h.seg, len_eq_of_noAck h.seg, h.lastack]

/-- Which segments take sequence numbers stays the same. -/
theorem Sent.occupies {T : List ℕ} (h : Sent s T s') : s'.occupies = s.occupies := by
  funext x
  rw [Sender.occupies, Sender.occupies, seqLen_eq_of_noAck h.seg]

/-- What is sent in two parts is sent. -/
theorem Sent.trans {T T' : List ℕ} {s'' : Sender} (h : Sent s T s') (h' : Sent s' T' s'') :
    Sent s (T ++ T') s'' := by
  have hq := seqno_eq_of_noAck h.seg
  have hl := seqLen_eq_of_noAck h.seg
  refine ⟨?_, ?_, ?_, h'.lastack.trans h.lastack, h'.sndWnd.trans h.sndWnd, h'.cwnd.trans h.cwnd,
    fun x => (h'.seg x).trans (h.seg x)⟩
  · rw [h'.sent, h.sent, List.append_assoc]
  · rw [h'.freed, h.freed, h.occupies, List.filter_append, List.append_assoc]
  · rw [h'.sndNxt, h.sndNxt, hq, hl, List.map_append, List.foldl_append]

/-- What a round does after `transmit` does not show in the block and the segments. -/
theorem Sent.of_transmit (hsent : s'.sent = (s.transmit env).sent) (hsnd : s'.pcb.snd = (s.transmit env).pcb.snd)
    (hseg : s'.seg = (s.transmit env).seg)
    (hfreed : s'.freed = s.freed ++ [s.unsent].filter (!s.occupies ·)) : Sent s [s.unsent] s' := by
  obtain ⟨hrec, rtime, rttest, rtseq, htr⟩ := snd_transmit env s
  rw [htr] at hsnd
  exact ⟨hsent.trans hrec, hfreed, by rw [hsnd]; rfl, by rw [hsnd], by rw [hsnd], by rw [hsnd],
    fun x => hseg ▸ noAck_transmit env s x⟩

/-- `unacked` behind a round that sends `x`. -/
def putAway (s : Sender) (x : ℕ) (A : List ℕ) : List ℕ := if s.occupies x then putBack s.seqno x A else A

/-- A segment that takes sequence numbers is kept. -/
theorem perm_putAway (s : Sender) (x : ℕ) (A : List ℕ) : (s.putAway x A).Perm (A ++ [x].filter s.occupies) := by
  unfold putAway
  split
  · rename_i hpos
    rw [List.filter_cons_of_pos hpos]
    exact perm_putBack s.seqno x A
  · rename_i hpos
    rw [List.filter_cons_of_neg hpos, List.filter_nil, List.append_nil]

/-- And the queue stays in order. -/
theorem sortedBy_putAway (hw : InWindow base s.seqno (A ++ [x])) (hsorted : SortedBy s.seqno A) :
    SortedBy s.seqno (s.putAway x A) := by
  unfold putAway
  split
  · exact sortedBy_putBack hw hsorted
  · exact hsorted

/-- A round puts the first segment of `unsent` away, and leaves the block and the segments as `transmit` does; the running tail
pointer stays the tail. -/
theorem round_eq (env : OutputEnv) (h : s.Queues (x :: U) A) (hw : InWindow base s.seqno (A ++ [x]))
    (hn : A.length ≤ n) :
    ∃ s', (s.transmit env).putUnacked n s.unsent (A.getLastD 0) = some ((s.putAway x A).getLastD 0, s') ∧
      s'.Queues U (s.putAway x A) ∧ s'.pcb = (s.transmit env).pcb ∧ s'.seg = (s.transmit env).seg ∧
      s'.sent = (s.transmit env).sent ∧ s'.freed = s.freed ++ [s.unsent].filter (!s.occupies ·) := by
  obtain rfl := (path_cons.mp h.unsent).1
  obtain ⟨hnext, hunacked, hunsent, hfreed⟩ := transmit_frame env s
  have hseg := noAck_transmit env s
  have hq : (s.transmit env).seqno = s.seqno := seqno_eq_of_noAck hseg
  have hocc : (s.transmit env).occupies s.unsent = s.occupies s.unsent := by
    rw [occupies, occupies, seqLen_eq_of_noAck hseg]
  have hx : s.unsent ∉ U ++ A := (List.nodup_cons.mp h.nodup).1
  have hxA : s.unsent ∉ A := fun hm => hx (List.mem_append_right U hm)
  have hU : Path s.next (s.transmit env).unsent U 0 := hunsent ▸ (path_cons.mp h.unsent).2
  by_cases hpos : s.occupies s.unsent = true
  · have hput : s.putAway s.unsent A = putBack s.seqno s.unsent A := if_pos hpos
    obtain ⟨head, next, hrun, hpath, hframe⟩ := putUnacked_path (s := s.transmit env) (x := s.unsent)
      (by rw [hnext, hunacked]; exact h.unacked) h.null_unacked hxA (hq ▸ hw) hn (hocc.trans hpos)
    rw [hq] at hrun hpath
    have hU' : Path next (s.transmit env).unsent U 0 := by
      refine (path_congr fun y hy => ?_).mpr hU
      rw [hframe y (fun heq => hx (heq ▸ List.mem_append_left A hy)), hnext]
      exact fun hyA => (List.nodup_append.mp h.nodup).2.2 y (List.mem_cons_of_mem _ hy) y hyA rfl
    have hperm : (U ++ putBack s.seqno s.unsent A).Perm (s.unsent :: U ++ A) := by
      refine ((perm_putBack s.seqno s.unsent A).append_left U).trans ?_
      rw [← List.append_assoc]
      exact List.perm_append_singleton s.unsent (U ++ A)
    rw [hput, List.filter_cons_of_neg (by simp [hpos]), List.filter_nil, List.append_nil]
    exact ⟨_, hrun, .of_perm hU' hpath hperm h.nodup h.null, rfl, rfl, rfl, hfreed⟩
  · -- an empty segment is freed
    have hput : s.putAway s.unsent A = A := if_neg hpos
    have hrun : (s.transmit env).putUnacked n s.unsent (A.getLastD 0) =
        some (A.getLastD 0, { s.transmit env with freed := (s.transmit env).freed ++ [s.unsent] }) :=
      if_neg (hocc ▸ hpos)
    rw [hput, List.filter_cons_of_pos (by simp [hpos]), List.filter_nil]
    refine ⟨_, hrun, ⟨?_, ?_, (List.nodup_cons.mp h.nodup).2, ?_⟩, rfl, rfl, rfl, ?_⟩
    · exact hnext.symm ▸ hU
    · exact hnext.symm ▸ hunacked.symm ▸ h.unacked
    · exact fun hm => h.null (List.mem_cons_of_mem _ hm)
    · exact congrArg (· ++ [s.unsent]) hfreed

/-- **A round.** The first segment of `unsent` goes out, and onto `unacked` when it occupies sequence space. -/
theorem round_spec (env : OutputEnv) (h : s.Queues (x :: U) A) (hw : InWindow base s.seqno (A ++ [x]))
    (hsorted : SortedBy s.seqno A) (hn : A.length ≤ n) :
    ∃ A' s', (s.transmit env).putUnacked n s.unsent (A.getLastD 0) = some (A'.getLastD 0, s') ∧
      s'.Queues U A' ∧ A'.Perm (A ++ [x].filter s.occupies) ∧ SortedBy s.seqno A' ∧ Sent s [x] s' := by
  obtain ⟨s', hrun, hq, hpcb, hseg, hsent, hfreed⟩ := round_eq env h hw hn
  have hfirst := (path_cons.mp h.unsent).1
  refine ⟨_, s', hrun, hq, perm_putAway s x A, sortedBy_putAway hw hsorted, ?_⟩
  rw [← hfirst]
  exact .of_transmit hsent (congrArg Pcb.snd hpcb) hseg hfreed

/-! ## `tcp_output` -/

/-- From `s` with the queues `U` and `A`, the prefix `T` of `U` was sent through a window of `wnd`: what is left are
`U'` and `A'`, where the segments of `T` that occupy sequence space have joined `A` and `A'` is sorted. -/
structure Output (wnd : UInt32) (s : Sender) (U A T U' A' : List ℕ) (s' : Sender) : Prop where
  split : U = T ++ U'
  queues : s'.Queues U' A'
  perm : A'.Perm (A ++ T.filter s.occupies)
  sorted : SortedBy s.seqno A'
  sent : Sent s T s'
  fits : ∀ x ∈ T, s.reach x ≤ wnd

/-- Nothing is sent. -/
theorem Output.none {wnd : UInt32} (h : s.Queues U A) (hsorted : SortedBy s.seqno A) :
    Output wnd s U A [] U A s :=
  ⟨rfl, h, by simp, hsorted, .refl s, fun _ hx => absurd hx List.not_mem_nil⟩

/-- A round in front of the others. -/
theorem Output.cons {wnd : UInt32} {T U' A' A'' : List ℕ} {s'' : Sender} (hsent : Sent s [x] s')
    (hperm : A'.Perm (A ++ [x].filter s.occupies)) (hfits : s.reach x ≤ wnd)
    (h : Output wnd s' U A' T U' A'' s'') : Output wnd s (x :: U) A (x :: T) U' A'' s'' where
  split := congrArg (x :: ·) h.split
  queues := h.queues
  perm := by
    refine h.perm.trans ((hperm.append_right _).trans ?_)
    rw [hsent.occupies, List.append_assoc, ← List.filter_append, List.singleton_append]
  sorted := seqno_eq_of_noAck hsent.seg ▸ h.sorted
  sent := hsent.trans h.sent
  fits y hy := (List.mem_cons.mp hy).elim (fun heq => heq ▸ hfits) fun hy => hsent.reach ▸ h.fits y hy

/-- **The loop.** With the tail of `unacked` in `useg`, the loop ends, having sent a prefix of `unsent`. -/
theorem outputLoop_spec (c : Config) (env : OutputEnv) (wnd : UInt32) {fuel : ℕ} (h : s.Queues U A)
    (hw : InWindow base s.seqno (U ++ A)) (hsorted : SortedBy s.seqno A) (hn : (U ++ A).length ≤ n)
    (hfuel : U.length ≤ fuel) :
    ∃ T U' A' s', outputLoop c env n wnd fuel (A.getLastD 0) s = some s' ∧ Output wnd s U A T U' A' s' := by
  induction U generalizing s A fuel with
  | nil =>
      have hblocked : s.outputBlocked wnd = true := by simp [outputBlocked, path_nil.mp h.unsent]
      refine ⟨[], [], A, s, ?_, .none h hsorted⟩
      cases fuel <;> exact if_pos hblocked
  | cons x U ih =>
      obtain ⟨fuel, rfl⟩ := Nat.exists_eq_add_of_lt (Nat.lt_of_lt_of_le (Nat.succ_pos _) hfuel)
      rw [Nat.zero_add] at hfuel ⊢
      unfold outputLoop
      split
      · exact ⟨[], x :: U, A, s, rfl, .none h hsorted⟩
      split
      · exact ⟨[], x :: U, A, s, rfl, .none h hsorted⟩
      rename_i hblocked _
      have hfits : s.reach x ≤ wnd := by
        obtain ⟨-, hle⟩ : s.unsent ≠ 0 ∧ ¬wnd < s.reach s.unsent := by simpa [outputBlocked] using hblocked
        exact (path_cons.mp h.unsent).1 ▸ UInt32.not_lt.mp hle
      have hlen : (A ++ [x].filter s.occupies).length ≤ A.length + 1 := by
        rw [List.length_append]
        exact Nat.add_le_add_left (List.length_filter_le _ [x]) _
      simp only [List.cons_append, List.length_cons, List.length_append] at hn hfuel
      obtain ⟨A', s', hrun, hq, hperm, hsorted', hsent⟩ := round_spec env h hw.first hsorted (n := n) (by omega)
      have hkey := seqno_eq_of_noAck hsent.seg
      have hlen' := hperm.length_eq
      have hw' : InWindow base s'.seqno (U ++ A') := hkey.symm ▸ hw.rest hperm
      obtain ⟨T, U', A'', s'', hrest, hout⟩ := ih hq hw' (hkey ▸ hsorted')
        (by rw [List.length_append]; omega) (Nat.le_of_succ_le_succ hfuel)
      exact ⟨x :: T, U', A'', s'', by rw [hrun]; exact hrest, hout.cons hsent hperm hfits⟩

/-- The flags, the receiver variables and `unsent_oversize` do not count. -/
theorem Output.congr {wnd : UInt32} {T : List ℕ} {s'' : Sender} (h : Output wnd s U A T U' A' s')
    (hsnd : s''.pcb.snd = s'.pcb.snd)
    (hs : s'' = { s' with pcb := s''.pcb, unsentOversize := s''.unsentOversize }) :
    Output wnd s U A T U' A' s'' := by
  rw [hs]
  refine ⟨h.split, ⟨h.queues.unsent, h.queues.unacked, h.queues.nodup, h.queues.null⟩, h.perm, h.sorted,
    ⟨h.sent.sent, h.sent.freed, ?_, ?_, ?_, ?_, h.sent.seg⟩, h.fits⟩
  · exact (congrArg Snd.sndNxt hsnd).trans h.sent.sndNxt
  · exact (congrArg Snd.lastack hsnd).trans h.sent.lastack
  · exact (congrArg Snd.sndWnd hsnd).trans h.sent.sndWnd
  · exact (congrArg Snd.cwnd hsnd).trans h.sent.cwnd

/-- An empty ACK says nothing about the sender's variables. -/
theorem snd_tcpSendEmptyAck (alloc : Bool) (pcb : Pcb) : (tcpSendEmptyAck alloc pcb).snd = pcb.snd := by
  unfold tcpSendEmptyAck
  split <;> rfl

/-- **`tcp_output`.** It ends, having sent a prefix of `unsent` through the window; on the block that is
`tcp_input_pcb` it does nothing. -/
theorem tcpOutput_spec (c : Config) (env : OutputEnv) (h : s.Queues U A) (hw : InWindow base s.seqno (U ++ A))
    (hsorted : SortedBy s.seqno A) (hn : (U ++ A).length ≤ n) :
    ∃ T U' A' s', s.tcpOutput c env n = some s' ∧ Output s.wnd s U A T U' A' s' ∧
      (env.isInputPcb = true → s' = s) := by
  have hnone : Output s.wnd s U A [] U A s := .none h hsorted
  unfold tcpOutput
  split
  · exact ⟨[], U, A, s, rfl, hnone, fun _ => rfl⟩
  rename_i hinput
  split
  · refine ⟨[], U, A, _, rfl, hnone.congr ?_ rfl, fun htrue => absurd htrue hinput⟩
    exact snd_tcpSendEmptyAck env.alloc s.pcb
  · have hlenU : U.length ≤ n := by
      rw [List.length_append] at hn
      omega
    have hlenA : A.length ≤ n := by
      rw [List.length_append] at hn
      omega
    obtain ⟨T, U', A', s', hrun, hout⟩ := outputLoop_spec c env s.wnd h hw hsorted hn hlenU
    rw [lastNode_eq h.unacked h.null_unacked hlenA, Option.bind_some, hrun, Option.map_some]
    exact ⟨T, U', A', _, rfl, hout.congr rfl rfl, fun htrue => absurd htrue hinput⟩

end Sender

end BareMetal.Tcp
