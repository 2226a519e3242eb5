import BareMetal.Lib.Run
import BareMetal.Tcp.Ownership
import BareMetal.Tcp.SegOrder

/-! # Retransmission and the order of the queues

A sender runs: `tcp_output`, `tcp_rexmit` and `tcp_rexmit_rto` are called in any order, and in between the
windows and the flags change in any way. Through such a run the queues stay lists, no segment is lost or
taken twice, and each call of `tcp_output` sends a prefix of `unsent` through the window.

They stay sorted as long as `tcp_rexmit_rto` finds `unacked` before `unsent`. It puts the one in front of the
other without a comparison; after a fast retransmit whose segment the window holds back on `unsent`, that is
the wrong way round (`not_queues_of_run`). `RtoInOrder` is the guard. -/

namespace BareMetal.Tcp

namespace Sender

variable {c : Config} {env : OutputEnv} {n : ℕ} {base : UInt32} {s s₀ s' : Sender} {x y : ℕ}
  {l l₀ U U' A A' T S : List ℕ}

/-! ## The two retransmissions -/

/-- `tcp_rexmit_rto` first puts `unacked` in front of `unsent`. -/
theorem requeueAll_spec (h : s.Queues U A) (hne : A ≠ []) (hn : A.length ≤ n) :
    ∃ s', s.requeueAll n = some s' ∧ s'.Queues (A ++ U) [] ∧
      s' = { s.countRexmit with next := s'.next, unsent := s'.unsent, unacked := s'.unacked } := by
  refine ⟨_, congrArg (Option.map _) (lastNode_eq h.unacked h.null_unacked hn), ⟨?_, rfl, ?_, ?_⟩, rfl⟩
  · obtain ⟨L, z, rfl⟩ := (List.eq_nil_or_concat' A).resolve_left hne
    rw [List.getLastD_concat]
    have hz : z ∉ L := fun hm =>
      (List.nodup_append.mp (List.nodup_append.mp h.nodup).2.1).2.2 z hm z (List.mem_singleton_self z) rfl
    have hzU : z ∉ U := fun hm => (List.nodup_append.mp h.nodup).2.2 z hm z (by simp) rfl
    exact h.unacked.concat h.unsent hz hzU
  · rw [List.append_nil]
    exact List.perm_append_comm.nodup_iff.mp h.nodup
  · rw [List.append_nil]
    exact fun hm => h.null (List.perm_append_comm.subset hm)

/-- `tcp_rexmit` takes the first segment of `unacked` to its place on `unsent`. -/
theorem tcpRexmit_spec (h : s.Queues U (x :: A)) (hn : U.length ≤ n) :
    ∃ s', s.tcpRexmit n = some s' ∧ s'.Queues (place (fun y => seqLt (s.seqno y) (s.seqno x)) x U) A ∧
      s' = { s.countRexmit with
        next := s'.next, unsent := s'.unsent, unacked := s'.unacked, unsentOversize := s'.unsentOversize } := by
  obtain rfl := (path_cons.mp h.unacked).1
  have hnot : ¬s.unacked = 0 := fun heq => h.null_unacked (heq ▸ List.mem_cons_self)
  have hxU : s.unacked ∉ U := fun hm =>
    (List.nodup_append.mp h.nodup).2.2 s.unacked hm s.unacked List.mem_cons_self rfl
  have hxA : s.unacked ∉ A := (List.nodup_cons.mp (List.nodup_append.mp h.nodup).2.1).1
  obtain ⟨head, next, hrun, hpath, hframe⟩ := insertBefore_eq
    (f := fun y => !seqLt (s.seqno y) (s.seqno s.unacked)) h.unsent h.null_unsent hn hxU
  simp only [Bool.not_not] at hpath
  have hA : Path next (s.next s.unacked) A 0 := by
    refine (path_congr fun y hy => ?_).mpr (path_cons.mp h.unacked).2
    refine hframe y (fun heq => hxA (heq ▸ hy)) fun hyU => ?_
    exact (List.nodup_append.mp h.nodup).2.2 y hyU y (List.mem_cons_of_mem _ hy) rfl
  have hperm : (place (fun y => seqLt (s.seqno y) (s.seqno s.unacked)) s.unacked U ++ A).Perm
      (U ++ s.unacked :: A) := by
    refine ((perm_place _ s.unacked U).append_right A).trans ?_
    rw [List.append_assoc, List.singleton_append]
  exact ⟨_, (if_neg hnot).trans (congrArg (Option.map _) hrun),
    .of_perm hpath hA hperm h.nodup h.null, rfl⟩

/-! ## The invariant -/

/-- Segments of `l` that occupy sequence space have none of it in common. -/
def Apart (s : Sender) (l : List ℕ) : Prop :=
  ∀ x ∈ l, ∀ y ∈ l, x ≠ y → s.occupies x = true → s.occupies y = true →
    s.seqLen x ≤ s.seqno y - s.seqno x

/-- The queues of a sender are `U` and `A`, and both are sorted, in one half of the range from `base` on. -/
structure InOrder (base : UInt32) (s : Sender) (U A : List ℕ) : Prop extends s.Queues U A where
  window : InWindow base s.seqno (U ++ A)
  unsentSorted : SortedBy s.seqno U
  unackedSorted : SortedBy s.seqno A
  apart : s.Apart (U ++ A)

/-- Since `s₀`, which had the segments `l₀`, the segments `S` were sent: those that occupy no sequence space were
freed then, all others are on one of the queues `U` and `A` of `s`, and each segment is what it was. -/
structure Conserved (s₀ : Sender) (l₀ : List ℕ) (s : Sender) (U A S : List ℕ) : Prop where
  sent : s.sent = s₀.sent ++ S
  freed : s.freed = s₀.freed ++ S.filter (!s₀.occupies ·)
  perm : (S.filter (!s₀.occupies ·) ++ (U ++ A)).Perm l₀
  seg : ∀ x, (s.seg x).noAck = (s₀.seg x).noAck

/-- What is known of segments holds of some of them, wherever they stand. -/
theorem InOrder.of_queues (h : InOrder base s U A) (hq : s'.Queues U' A')
    (hseg : ∀ x, (s'.seg x).noAck = (s.seg x).noAck) (hsub : U' ++ A' ⊆ U ++ A)
    (hU : SortedBy s.seqno U') (hA : SortedBy s.seqno A') : InOrder base s' U' A' := by
  have hkey := seqno_eq_of_noAck hseg
  have hlen := seqLen_eq_of_noAck hseg
  refine ⟨hq, hkey ▸ h.window.mono hsub, hkey ▸ hU, hkey ▸ hA, fun x hx y hy hne hoccx hoccy => ?_⟩
  simp only [occupies, hlen] at hoccx hoccy
  rw [hkey, hlen]
  exact h.apart x (hsub hx) y (hsub hy) hne hoccx hoccy

/-- Moving segments from one queue to the other conserves them. -/
theorem Conserved.move (h : Conserved s₀ l₀ s U A S) (hperm : (U' ++ A').Perm (U ++ A))
    (hsent : s'.sent = s.sent) (hfreed : s'.freed = s.freed) (hseg : s'.seg = s.seg) :
    Conserved s₀ l₀ s' U' A' S :=
  ⟨hsent.trans h.sent, hfreed.trans h.freed, (hperm.append_left _).trans h.perm, fun x => hseg ▸ h.seg x⟩

/-- `tcp_output` keeps the order. -/
theorem InOrder.output {wnd : UInt32} (h : InOrder base s U A) (hout : Output wnd s U A T U' A' s') :
    InOrder base s' U' A' := by
  have hsplit := hout.split
  have hU : SortedBy s.seqno U' := (hsplit ▸ h.unsentSorted).sublist (List.sublist_append_right T U')
  refine h.of_queues hout.queues hout.sent.seg ?_ hU hout.sorted
  intro x hx
  rw [hsplit]
  rcases List.mem_append.mp hx with hx | hx
  · simp [hx]
  · rcases List.mem_append.mp (hout.perm.subset hx) with hx | hx
    · simp [hx]
    · simp [List.mem_of_mem_filter hx]

/-- `tcp_output` conserves the segments. -/
theorem Conserved.output {wnd : UInt32} (h : Conserved s₀ l₀ s U A S) (hout : Output wnd s U A T U' A' s') :
    Conserved s₀ l₀ s' U' A' (S ++ T) := by
  have hocc : s.occupies = s₀.occupies := by
    funext x
    rw [occupies, occupies, seqLen_eq_of_noAck h.seg]
  refine ⟨?_, ?_, ?_, fun x => (hout.sent.seg x).trans (h.seg x)⟩
  · rw [hout.sent.sent, h.sent, List.append_assoc]
  · rw [hout.sent.freed, h.freed, hocc, List.filter_append, List.append_assoc]
  · refine List.Perm.trans ?_ h.perm
    have hsent := List.filter_append_perm s₀.occupies T
    have hperm := hocc ▸ hout.perm
    rw [List.perm_iff_count] at hsent hperm ⊢
    intro a
    have hsent := hsent a
    have hperm := hperm a
    simp only [hout.split, List.filter_append, List.count_append] at hsent hperm ⊢
    omega

/-! ## Runs -/

/-- What happens to a sender. -/
inductive SendEvent
  | output (env : OutputEnv)
  | rexmit
  | rexmitRto (env : OutputEnv)
  /-- The windows and the flags change. -/
  | change (sndWnd cwnd : UInt16) (flags : PcbFlags)

/-- One call, or one change from outside. -/
def step (c : Config) (n : ℕ) (s : Sender) : SendEvent → Option Sender
  | .output env => s.tcpOutput c env n
  | .rexmit => s.tcpRexmit n
  | .rexmitRto env => s.tcpRexmitRto c env n
  | .change sndWnd cwnd flags =>
      some { s with pcb := { s.pcb with
        flags := flags
        snd := { s.pcb.snd with sndWnd := sndWnd, cwnd := cwnd } } }

/-- `tcp_rexmit_rto` finds the queues behind one another: one of them is empty, or the first segment of `unsent`
does not come before the last one of `unacked`. -/
def RtoInOrder (n : ℕ) (s : Sender) : SendEvent → Prop
  | .rexmitRto _ => s.unacked = 0 ∨ s.unsent = 0 ∨
      (lastNode 0 s.next n s.unacked).all (fun last => !seqLt (s.seqno s.unsent) (s.seqno last)) = true
  | _ => True

instance (n : ℕ) (s : Sender) : (e : SendEvent) → Decidable (RtoInOrder n s e)
  | .output _ => isTrue trivial
  | .rexmit => isTrue trivial
  | .rexmitRto _ => inferInstanceAs (Decidable (_ ∨ _ ∨ _))
  | .change _ _ _ => isTrue trivial

/-- What a call of `tcp_output` on a sender with the queues `U` and `A` does: it sends a prefix of `unsent` through
the window, takes the latest of the ends into `snd_nxt`, and does nothing on the block that is `tcp_input_pcb`. -/
def Transmits (c : Config) (env : OutputEnv) (n : ℕ) (s : Sender) (U A : List ℕ) : Prop :=
  ∃ T U' A' s', s.tcpOutput c env n = some s' ∧ Output s.wnd s U A T U' A' s' ∧
    (∀ base, (∀ a ∈ s.pcb.snd.sndNxt :: T.map (fun x => s.seqno x + s.seqLen x), InHalf base a) →
      ∀ a ∈ s.pcb.snd.sndNxt :: T.map (fun x => s.seqno x + s.seqLen x), seqLt s'.pcb.snd.sndNxt a = false) ∧
    (env.isInputPcb = true → s' = s)

/-- Queues that are in order can be transmitted. -/
theorem InOrder.transmits (c : Config) (env : OutputEnv) (h : InOrder base s U A) (hn : (U ++ A).length ≤ n) :
    Transmits c env n s U A := by
  obtain ⟨T, U', A', s', hrun, hout, hinput⟩ := tcpOutput_spec c env h.toQueues h.window h.unackedSorted hn
  refine ⟨T, U', A', s', hrun, hout, fun base' hw a ha => ?_, hinput⟩
  obtain ⟨hhalf, hmax⟩ := seqMax_foldl_spec hw
  rw [hout.sent.sndNxt, seqLt_eq hhalf (hw a ha), decide_eq_false_iff_not]
  exact Nat.not_lt.mpr (hmax a ha)

/-- Behind the first part of `tcp_rexmit_rto` the queues are in order, when they were behind one another. -/
theorem InOrder.requeueAll (h : InOrder base s U A) (hn : (U ++ A).length ≤ n) (hA : s.unacked ≠ 0)
    (hG : RtoInOrder n s (.rexmitRto env)) :
    ∃ s', s.requeueAll n = some s' ∧ InOrder base s' (A ++ U) [] ∧
      s'.sent = s.sent ∧ s'.freed = s.freed ∧ s'.seg = s.seg := by
  have hlenA : A.length ≤ n := by
    rw [List.length_append] at hn
    omega
  have hne : A ≠ [] := fun heq => hA ((h.unacked.head_eq_iff h.null_unacked).mpr heq)
  have hsub : A ++ U ++ [] ⊆ U ++ A := by
    rw [List.append_nil]
    exact List.perm_append_comm.subset
  obtain ⟨s', hrun, hq, hs'⟩ := requeueAll_spec h.toQueues hne hlenA
  have hseg : s'.seg = s.seg := by
    rw [hs']
    rfl
  have hsorted : SortedBy s.seqno (A ++ U) := by
    refine sortedBy_append (h.window.mono List.perm_append_comm.subset) h.unackedSorted h.unsentSorted ?_
    intro _ y hy
    have hhead : s.unsent = y ∧ s.unsent ≠ 0 := by
      obtain ⟨rest, rfl⟩ : ∃ rest, U = y :: rest := List.head?_eq_some_iff.mp hy
      have hU := (path_cons.mp h.unsent).1
      exact ⟨hU, fun heq => h.null_unsent (heq ▸ hU ▸ List.mem_cons_self)⟩
    have hlast := (hG.resolve_left hA).resolve_left hhead.2
    rw [lastNode_eq h.unacked h.null_unacked hlenA, hhead.1] at hlast
    simpa using hlast
  refine ⟨s', hrun, h.of_queues hq (fun x => congrArg Seg.noAck (congrFun hseg x)) hsub hsorted .nil, ?_, ?_, hseg⟩
  all_goals
    rw [hs']
    rfl

/-- The invariant of a run from `s₀`, whose queues had the segments `l₀`. -/
def Kept (base : UInt32) (s₀ : Sender) (l₀ : List ℕ) (s : Sender) : Prop :=
  ∃ U A S, InOrder base s U A ∧ Conserved s₀ l₀ s U A S

/-- No segment comes twice. -/
theorem Conserved.length_le (h : Conserved s₀ l₀ s U A S) : (U ++ A).length ≤ l₀.length := by
  have hlen := h.perm.length_eq
  rw [List.length_append] at hlen
  exact hlen ▸ Nat.le_add_left _ _

/-- **The step lemma.** A guarded step is enabled and keeps the invariant. -/
theorem Kept.step (c : Config) {e : SendEvent} (h : Kept base s₀ l₀ s) (hn : l₀.length ≤ n)
    (hG : RtoInOrder n s e) : ∃ s', s.step c n e = some s' ∧ Kept base s₀ l₀ s' := by
  obtain ⟨U, A, S, horder, hcons⟩ := h
  have hlen := hcons.length_le.trans hn
  cases e with
  | output env =>
      obtain ⟨T, U', A', s', hrun, hout, -⟩ := horder.transmits c env hlen
      exact ⟨s', hrun, U', A', S ++ T, horder.output hout, hcons.output hout⟩
  | rexmit =>
      -- the first segment of `unacked` goes back to its place in `unsent`
      cases A with
      | nil => exact ⟨s, if_pos horder.unacked, U, [], S, horder, hcons⟩
      | cons x A =>
          have hlenU : U.length ≤ n := by
            rw [List.length_append] at hlen
            omega
          obtain ⟨s', hrun, hq, hs'⟩ := tcpRexmit_spec horder.toQueues hlenU
          have hseg : s'.seg = s.seg := by
            rw [hs']
            rfl
          have hperm : (place (fun y => seqLt (s.seqno y) (s.seqno x)) x U ++ A).Perm (U ++ x :: A) := by
            refine ((perm_place _ x U).append_right A).trans ?_
            rw [List.append_assoc, List.singleton_append]
          have hwx : InWindow base s.seqno (U ++ [x]) := by
            refine horder.window.mono fun y hy => ?_
            rw [List.mem_append, List.mem_singleton] at hy
            exact hy.elim (List.mem_append_left _) fun heq => by simp [heq]
          refine ⟨s', hrun, place _ x U, A, S, ?_, hcons.move hperm ?_ ?_ hseg⟩
          · refine horder.of_queues hq (fun y => congrArg Seg.noAck (congrFun hseg y)) hperm.subset ?_ ?_
            · exact sortedBy_place hwx horder.unsentSorted
            · exact (List.pairwise_cons.mp horder.unackedSorted).2
          all_goals
            rw [hs']
            rfl
  | rexmitRto env =>
      by_cases hA : s.unacked = 0
      · -- all of `unacked` goes in front of `unsent`, which is in order because of the condition
        exact ⟨s, if_pos hA, U, A, S, horder, hcons⟩
      · obtain ⟨s₁, hreq, horder₁, hsent, hfreed, hseg⟩ := horder.requeueAll hlen hA hG
        have hcons₁ : Conserved s₀ l₀ s₁ (A ++ U) [] S :=
          hcons.move (by rw [List.append_nil]; exact List.perm_append_comm) hsent hfreed hseg
        obtain ⟨T, U', A', s', hrun, hout, -⟩ := horder₁.transmits c env (hcons₁.length_le.trans hn)
        refine ⟨s', ?_, U', A', S ++ T, horder₁.output hout, hcons₁.output hout⟩
        exact (if_neg hA).trans (by rw [hreq, Option.bind_some, hrun])
  | change sndWnd cwnd flags =>
      refine ⟨_, rfl, U, A, S, ?_, hcons.move (.refl _) rfl rfl rfl⟩
      exact horder.of_queues ⟨horder.unsent, horder.unacked, horder.nodup, horder.null⟩ (fun _ => rfl)
        (List.Subset.refl _) horder.unsentSorted horder.unackedSorted

/-- **The queues over a run.** In a run from sorted queues whose calls of `tcp_rexmit_rto` all find them behind one
another, every call returns. At each point the queues are sorted lists, every segment is accounted for once, and
the next call of `tcp_output`, also the one inside `tcp_rexmit_rto`, sends a prefix of `unsent` through the
window. -/
theorem queues_of_run (c : Config) (h : InOrder base s₀ U A) (hn : (U ++ A).length ≤ n) {es : List SendEvent}
    (hmeets : RunMeets (step c n) (RtoInOrder n) s₀ es) :
    ∃ s U' A' S, run (step c n) s₀ es = some s ∧ InOrder base s U' A' ∧ Conserved s₀ (U ++ A) s U' A' S ∧
      ∀ env, Transmits c env n s U' A' ∧
        (s.unacked ≠ 0 → RtoInOrder n s (.rexmitRto env) →
          ∃ s₁, s.requeueAll n = some s₁ ∧ Transmits c env n s₁ (A' ++ U') []) := by
  have hkept : Kept base s₀ (U ++ A) s₀ :=
    ⟨U, A, [], h, (List.append_nil _).symm, (List.append_nil _).symm, .refl _, fun _ => rfl⟩
  obtain ⟨s, hrun, U', A', S, horder, hcons⟩ :=
    exists_run_of_meets (fun s e hs hG => hs.step c hn hG) hkept hmeets
  have hlen := hcons.length_le.trans hn
  refine ⟨s, U', A', S, hrun, horder, hcons, fun env => ⟨horder.transmits c env hlen, fun hne hG => ?_⟩⟩
  obtain ⟨s₁, hreq, horder₁, -⟩ := horder.requeueAll hlen hne hG
  refine ⟨s₁, hreq, horder₁.transmits c env ?_⟩
  rw [List.append_nil, List.perm_append_comm.length_eq]
  exact hlen

/-- Two segments of 100 bytes behind one another were sent and are not acknowledged; the sequence numbers wrap
around between them. -/
def twoUnacked : Sender where
  pcb :=
    { tcpAlloc optDefaults 0 0 0 with
      state := .established
      snd := { (tcpAlloc optDefaults 0 0 0).snd with
        lastack := 0xffffffc0, sndNxt := 0x88, sndWnd := 1000, cwnd := 1000 } }
  seg x := ⟨if x = 1 then 0xffffffc0 else 0x24, { ack := true }, 100, [List.replicate 100 0]⟩
  next x := if x = 1 then 2 else 0
  unsent := 0
  unacked := 1
  unsentOversize := 0
  sent := []
  freed := []

/-- The queues of the example are in order. -/
theorem inOrder_twoUnacked : InOrder 0xffffffc0 twoUnacked [] [1, 2] where
  unsent := rfl
  unacked := ⟨rfl, rfl, rfl⟩
  nodup := by decide
  null := by decide
  window := by
    unfold InWindow InHalf
    decide
  unsentSorted := .nil
  unackedSorted := by
    unfold SortedBy
    decide
  apart := by
    unfold Apart
    decide

/-- A sender that may send, outside the input processing. -/
def outputAllowed : OutputEnv := ⟨false, true, true, 0⟩

/-- A fast retransmit, and a timeout once its segment has gone out. -/
theorem queues_of_run_twoUnacked : ∃ s U' A' S,
    run (step optDefaults 2) twoUnacked
      [.rexmit, .change 1000 1000 { infr := true }, .output outputAllowed, .rexmitRto outputAllowed] = some s ∧
    InOrder 0xffffffc0 s U' A' ∧ Conserved twoUnacked ([] ++ [1, 2]) s U' A' S ∧
    ∀ env, Transmits optDefaults env 2 s U' A' ∧
      (s.unacked ≠ 0 → RtoInOrder 2 s (.rexmitRto env) →
        ∃ s₁, s.requeueAll 2 = some s₁ ∧ Transmits optDefaults env 2 s₁ (A' ++ U') []) :=
  queues_of_run optDefaults inOrder_twoUnacked (by decide) (by decide)

/-- After a fast retransmit whose segment the closed window holds back, the timeout puts the later segment in front
of the earlier one. -/
theorem not_queues_of_run : ¬∀ (c : Config) (n : ℕ) (base : UInt32) (s₀ : Sender) (U A : List ℕ),
    InOrder base s₀ U A → (U ++ A).length ≤ n → ∀ es s, run (step c n) s₀ es = some s →
      ∃ U' A', InOrder base s U' A' := by
  intro hall
  have hrun : ∃ s, run (step optDefaults 2) twoUnacked
      [.rexmit, .change 0 0 {}, .rexmitRto outputAllowed] = some s ∧
        Path s.next s.unsent [2, 1] 0 ∧ seqLt (s.seqno 1) (s.seqno 2) = true :=
    ⟨_, rfl, ⟨rfl, rfl, rfl⟩, by decide⟩
  obtain ⟨s, hrun, hpath, hlt⟩ := hrun
  obtain ⟨U', A', horder⟩ := hall optDefaults 2 0xffffffc0 twoUnacked [] [1, 2] inOrder_twoUnacked (by decide) _ s hrun
  obtain rfl := hpath.unique horder.unsent (by decide) horder.null_unsent
  have hsorted := (List.pairwise_cons.mp horder.unsentSorted).1 1 (by decide)
  exact Bool.false_ne_true (hsorted.symm.trans hlt)

end Sender

end BareMetal.Tcp
