import BareMetal.Tcp.ListOps

/-! # The timers over all control blocks

`tcp_slowtmr` walks `tcp_active_pcbs` and `tcp_tw_pcbs` with a pointer `prev` to the block before, and takes a block
off its list through it. When the application aborts a connection in its poll callback the walk over the active
blocks starts again; it skips the blocks that it has seen, but it skips them without moving `prev`. A block that
is then removed takes the skipped ones with it. `removesOk` says when this does not happen, from what the
round does with each block, its `SlowtmrFate`.

`tcp_fasttmr` does not step over a block that it has seen: it stays at it for ever. -/

namespace BareMetal.Tcp

variable {s s' : Store} {nodes nodes' : ListName → List ℕ} {l : ListName} {p : Pool} {a b prev n fuel : ℕ}
  {done rest : List ℕ}

variable (c : Config) (m : Mem)

/-! ## The functions -/

/-- `prev->next = pcb->next`, or the head of the list when there is no `prev`. -/
def Store.unlinkAfter (s : Store) (l : ListName) (prev a : ℕ) : Store :=
  if prev ≠ 0 then s.setNext prev (s.next a) else s.setHead l (s.next a)

/-- The block in its round of `tcp_slowtmr`, when the limits are looked at. -/
def slowtmrRound (ticks : UInt32) (timerCtr : UInt8) (pcb : Pcb) : Pcb :=
  slowtmrPcb c m ticks { pcb with lastTimer := timerCtr }

/-- `pcb_remove`. -/
def slowtmrRemoves (ticks : UInt32) (timerCtr : UInt8) (pcb : Pcb) : Bool :=
  rexmitLimit pcb || stateExpired ticks (slowtmrRound c m ticks timerCtr pcb) ||
    keepaliveExpired ticks (slowtmrRound c m ticks timerCtr pcb)

/-- The application is polled in this round. -/
def slowtmrPolls (pcb : Pcb) : Bool := pcb.pollinterval ≤ pcb.polltmr + 1

/-- The loop of `tcp_slowtmr` over `tcp_active_pcbs`; `n` bounds the rounds of the loops inside it. -/
def Store.slowtmrActive (n : ℕ) : ℕ → ℕ → ℕ → Store → Option Store
  | 0, _, a, s => if a = 0 then some s else none
  | fuel + 1, prev, a, s =>
      if a = 0 then some s
      else if (s.block a).pcb.lastTimer = s.tcpTimerCtr then s.slowtmrActive n fuel prev (s.next a)
      else
        let next := s.next a
        let removes := slowtmrRemoves c m s.tcpTicks s.tcpTimerCtr (s.block a).pcb
        let conn := (s.conn a .active).onPcb (slowtmrRound c m s.tcpTicks s.tcpTimerCtr)
        if removes then
          let conn := slowtmrRemove conn
          let s := (s.unlinkAfter .active prev a).release a conn
          if conn.activePcbsChanged then s.slowtmrActive n fuel 0 (s.head .active)
          else s.slowtmrActive n fuel prev next
        else
          let polls := slowtmrPolls conn.pcb
          let conn := slowtmrPoll c m conn
          (s.place n .active a conn).bind fun s =>
            if polls && conn.activePcbsChanged then s.slowtmrActive n fuel 0 (s.head .active)
            else s.slowtmrActive n fuel a next

/-- The loop of `tcp_slowtmr` over `tcp_tw_pcbs`. -/
def Store.slowtmrTimeWait : ℕ → ℕ → ℕ → Store → Option Store
  | 0, _, a, s => if a = 0 then some s else none
  | fuel + 1, prev, a, s =>
      if a = 0 then some s
      else
        let next := s.next a
        if 2 * 60000 / 500 < s.tcpTicks - (s.block a).pcb.tmr then
          let conn := Tcp.mempFree ((s.conn a .timeWait).onPcb tcpPcbPurge)
          ((s.unlinkAfter .timeWait prev a).release a conn).slowtmrTimeWait fuel prev next
        else s.slowtmrTimeWait fuel a next

/-- `tcp_slowtmr`. A restart takes a block off the list, so that the rounds are at most `(n + 1) * (n + 1)` for `n`
blocks. -/
def Store.tcpSlowtmr (n : ℕ) (s : Store) : Option Store :=
  let s := { s with tcpTicks := s.tcpTicks + 1, tcpTimerCtr := s.tcpTimerCtr + 1 }
  (s.slowtmrActive c m n ((n + 1) * (n + 1)) 0 (s.head .active)).bind fun s =>
    s.slowtmrTimeWait n 0 (s.head .timeWait)

/-- The loop of `tcp_fasttmr`. When the block has been seen, nothing is done, and the loop stays at it. -/
def Store.fasttmrLoop (n : ℕ) : ℕ → ℕ → Store → Option Store
  | 0, a, s => if a = 0 then some s else none
  | fuel + 1, a, s =>
      if a = 0 then some s
      else if (s.block a).pcb.lastTimer = s.tcpTimerCtr then s.fasttmrLoop n fuel a
      else
        let next := s.next a
        let refused := (s.block a).pcb.refusedData.isSome
        let conn := fasttmrActive c m (s.conn a .active)
        (s.place n .active a conn).bind fun s =>
          if refused && conn.activePcbsChanged then s.fasttmrLoop n fuel (s.head .active)
          else s.fasttmrLoop n fuel next

/-- `tcp_fasttmr`. -/
def Store.tcpFasttmr (n : ℕ) (s : Store) : Option Store :=
  let s := { s with tcpTimerCtr := s.tcpTimerCtr + 1 }
  s.fasttmrLoop c m n ((n + 1) * (n + 1)) (s.head .active)

/-! ## Unlinking through `prev` -/

/-- With the predecessor at hand, `TCP_RMV` does nothing else. -/
theorem Linked.tcpRmv_eq (h : Linked s nodes) (hsplit : nodes l = done ++ a :: rest)
    (hfuel : (nodes l).length ≤ fuel) :
    s.tcpRmv fuel l a = some ((s.unlinkAfter l (done.getLastD 0) a).setNext a 0) := by
  have hpath := hsplit ▸ h.path l
  have hnd := hsplit ▸ h.nodup l
  unfold Store.tcpRmv
  rcases List.eq_nil_or_concat' done with rfl | ⟨L, prev, rfl⟩
  · rw [if_pos (path_cons.mp hpath).1]
    rfl
  · rw [List.append_assoc, List.singleton_append] at hsplit hpath hnd
    have hprev : prev ≠ 0 := fun h0 => h.ne_null l (by rw [hsplit]; simp [h0])
    have hhead : ¬s.head l = a := by
      intro heq
      cases L with
      | nil => exact (List.nodup_cons.mp hnd).1 ((path_cons.mp hpath).1 ▸ heq ▸ List.mem_cons_self)
      | cons y L => exact (List.nodup_cons.mp hnd).1 ((path_cons.mp hpath).1 ▸ heq ▸ by simp)
    rw [if_neg hhead, findNode_eq (h.path l) (h.ne_null l) hfuel, hsplit, hpath.find?_pred hnd,
      List.getLastD_concat, Store.unlinkAfter, if_pos hprev]
    rfl

/-- Unlinking writes two links. -/
theorem relinked_unlinkAfter (s : Store) (l : ListName) (prev a : ℕ) : Relinked s (s.unlinkAfter l prev a) := by
  unfold Store.unlinkAfter
  split
  · exact relinked_setNext s prev (s.next a)
  · exact relinked_setHead s l (s.next a)

/-- Changing links leaves the counters alone. -/
theorem Relinked.timers_eq (h : Relinked s s') :
    s'.tcpTicks = s.tcpTicks ∧ s'.tcpTimerCtr = s.tcpTimerCtr := by
  rw [h]
  exact ⟨rfl, rfl⟩

/-- The block behind `prev` is out. -/
theorem ListInv.unlinkAfter (h : ListInv s nodes []) (hsplit : nodes l = done ++ a :: rest) :
    ListInv (s.unlinkAfter l (done.getLastD 0) a) (fun l' => (nodes l').erase a) [a] := by
  have ha : a ∈ nodes l := by
    rw [hsplit]
    exact List.mem_append_right done List.mem_cons_self
  obtain ⟨t, hrmv, -, ht⟩ := h.tcpRmv ha (Nat.le_refl s.size)
  rw [h.toLinked.tcpRmv_eq hsplit (h.length_le l)] at hrmv
  obtain rfl := Option.some.inj hrmv
  exact ht.set_out (fun b hb => (Function.update_of_ne hb _ _).symm) rfl rfl rfl

/-! ## What a round does with a block -/

/-- What becomes of an active block in a round of `tcp_slowtmr`. -/
inductive SlowtmrFate
  /-- It was seen already. -/
  | skip
  | keep
  /-- A limit is reached. -/
  | remove
  /-- The application aborts the connection in its poll callback. -/
  | abort
  deriving DecidableEq, Repr

/-- What the round does with a block. -/
def slowtmrFate (ticks : UInt32) (timerCtr : UInt8) (pcb : Pcb) : SlowtmrFate :=
  if pcb.lastTimer = timerCtr then .skip
  else if slowtmrRemoves c m ticks timerCtr pcb then .remove
  else if slowtmrPolls (slowtmrRound c m ticks timerCtr pcb) && pcb.cb.poll then .abort
  else .keep

/-- Whenever a block is removed, `prev` is the block before it: `before` says that there is one, `adjacent` that
`prev` is it. -/
def removesOk : Bool → Bool → List SlowtmrFate → Bool
  | _, _, [] => true
  | _, _, .skip :: fates => removesOk true false fates
  | _, _, .keep :: fates => removesOk true true fates
  | before, adjacent, .remove :: fates => adjacent && removesOk before adjacent fates
  | before, _, .abort :: fates => removesOk before (!before) fates

/-- The blocks of `l` in the round of `s`. -/
def Store.fates (s : Store) (l : List ℕ) : List SlowtmrFate :=
  l.map fun a => slowtmrFate c m s.tcpTicks s.tcpTimerCtr (s.block a).pcb

/-- The blocks that were skipped stand in front of no other. -/
theorem removesOk_skipped {seen fates : List SlowtmrFate} (h : ∀ f ∈ seen, f = .skip) :
    removesOk false true (seen ++ fates) = removesOk (!seen.isEmpty) seen.isEmpty fates := by
  have hall : ∀ seen : List SlowtmrFate, (∀ f ∈ seen, f = .skip) →
      removesOk true false (seen ++ fates) = removesOk true false fates := by
    intro seen hseen
    induction seen with
    | nil => rfl
    | cons f seen ih =>
        obtain rfl := hseen f List.mem_cons_self
        exact ih fun g hg => hseen g (List.mem_cons_of_mem _ hg)
  cases seen with
  | nil => rfl
  | cons f seen =>
      obtain rfl := h f List.mem_cons_self
      exact hall seen fun g hg => h g (List.mem_cons_of_mem _ hg)

variable {c m}

/-- A round counts and sends; the state and the callbacks stay. -/
theorem view_slowtmrRound (ticks : UInt32) (timerCtr : UInt8) (pcb : Pcb) :
    (slowtmrRound c m ticks timerCtr pcb).state = pcb.state ∧
      (slowtmrRound c m ticks timerCtr pcb).refusedData = pcb.refusedData ∧
      (slowtmrRound c m ticks timerCtr pcb).cb = pcb.cb ∧
      (slowtmrRound c m ticks timerCtr pcb).lastTimer = timerCtr := by
  obtain ⟨ooseq, -, hview⟩ := view_slowtmrPcb (c := c) (m := m) ticks { pcb with lastTimer := timerCtr }
  exact ⟨congrArg View.state hview, congrArg View.refusedData hview, congrArg View.cb hview,
    congrArg View.lastTimer hview⟩

/-- The connection when the application is polled. -/
def Conn.polled (conn : Conn) : Conn :=
  { conn.onPcb fun pcb => { pcb with polltmr := 0 } with activePcbsChanged := false }

/-- It is not yet time to poll. -/
theorem slowtmrPoll_of_not_polls {conn : Conn} (hpolls : slowtmrPolls conn.pcb = false) :
    slowtmrPoll c m conn = conn.onPcb fun pcb => { pcb with polltmr := pcb.polltmr + 1 } :=
  if_neg (of_decide_eq_false hpolls)

/-- It is time: the application is asked, and then the connection sends. -/
theorem slowtmrPoll_of_polls {conn : Conn} (hpolls : slowtmrPolls conn.pcb = true) :
    slowtmrPoll c m conn =
      if (tcpEventPoll c m conn.polled).2.activePcbsChanged then (tcpEventPoll c m conn.polled).2
      else if (tcpEventPoll c m conn.polled).1 = .ok then Conn.output c m (tcpEventPoll c m conn.polled).2.deref
      else (tcpEventPoll c m conn.polled).2 :=
  if_pos (of_decide_eq_true hpolls)

/-- The end of a round in which the application does not abort: the block stays. -/
theorem slowtmrPoll_keeps (conn : Conn) (hhome : conn.home = .active)
    (hkeep : (slowtmrPolls conn.pcb && conn.pcb.cb.poll) = false) :
    (slowtmrPoll c m conn).home = .active ∧ (slowtmrPoll c m conn).pcb.state = conn.pcb.state ∧
      (slowtmrPoll c m conn).pcb.refusedData = conn.pcb.refusedData ∧
      (slowtmrPoll c m conn).pcb.lastTimer = conn.pcb.lastTimer ∧
      (slowtmrPolls conn.pcb && (slowtmrPoll c m conn).activePcbsChanged) = false := by
  cases hpolls : slowtmrPolls conn.pcb with
  | false =>
      rw [slowtmrPoll_of_not_polls hpolls]
      exact ⟨hhome, rfl, rfl, rfl, rfl⟩
  | true =>
      rw [hpolls, Bool.true_and] at hkeep
      have hpoll : tcpEventPoll c m conn.polled = (.ok, conn.polled) :=
        if_neg (by rw [Conn.polled, Conn.onPcb, hkeep]; decide)
      have hview := view_tcpOutput c conn.ticks conn.inputPcb m.outAlloc { conn.pcb with polltmr := 0 }
      have hrun : slowtmrPoll c m conn = Conn.output c m conn.polled.deref := by
        rw [slowtmrPoll_of_polls hpolls, hpoll]
        rfl
      rw [hrun]
      exact ⟨hhome, congrArg View.state hview, congrArg View.refusedData hview, congrArg View.lastTimer hview, rfl⟩

/-- An abandoned connection is freed, and the loop is told to start again. -/
theorem tcpAbandon_changes (conn : Conn) (hstate : conn.pcb.state ≠ .timeWait) :
    (tcpAbandon c m conn).home = .freed ∧ (tcpAbandon c m conn).activePcbsChanged = true := by
  unfold tcpAbandon
  rw [if_neg hstate]
  refine ⟨home_tcpEventErr _ _, ?_⟩
  unfold tcpEventErr
  dsimp only
  split <;> rfl

/-- The end of a round in which the application aborts: the block is returned, and the list has changed. -/
theorem slowtmrPoll_aborts (conn : Conn) (hstate : conn.pcb.state ≠ .timeWait)
    (habort : (slowtmrPolls conn.pcb && conn.pcb.cb.poll) = true) :
    (slowtmrPoll c m conn).home = .freed ∧
      (slowtmrPolls conn.pcb && (slowtmrPoll c m conn).activePcbsChanged) = true := by
  obtain ⟨hpolls, hpoll⟩ := Bool.and_eq_true_iff.mp habort
  have hrun : tcpEventPoll c m conn.polled = (.ok, tcpAbandon c m conn.polled) := if_pos hpoll
  obtain ⟨hfreed, hchanged⟩ := tcpAbandon_changes (c := c) (m := m) conn.polled hstate
  rw [slowtmrPoll_of_polls hpolls, hrun, if_pos hchanged, hpolls, hchanged]
  exact ⟨hfreed, rfl⟩

/-! ## The walk over the active blocks -/

/-- The walk has come to the block `a` in front of `rest`: the blocks `done` before it have been seen, and when
`adjacent` holds, `prev` is the last one of these. -/
structure AtBlock (c : Config) (m : Mem) (s : Store) (nodes : ListName → List ℕ) (done rest : List ℕ) (adjacent : Bool)
    (prev a : ℕ) : Prop where
  inv : ListInv s nodes []
  split : nodes .active = done ++ rest
  here : a = rest.headD 0
  prev : adjacent = true → prev = done.getLastD 0
  seen : ∀ f ∈ s.fates c m done, f = .skip
  ok : removesOk (!done.isEmpty) adjacent (s.fates c m rest) = true

/-- The number of blocks of `l` that the walk has not seen. -/
def Store.pending (c : Config) (m : Mem) (s : Store) (l : List ℕ) : ℕ := (s.fates c m l).countP (· ≠ .skip)

variable {adjacent : Bool} {conn : Conn}

/-- What a round does is read off the blocks and the counters. -/
theorem fates_congr {t : List ℕ} (hpcb : ∀ b ∈ t, (s'.block b).pcb = (s.block b).pcb) (hticks : s'.tcpTicks = s.tcpTicks)
    (hctr : s'.tcpTimerCtr = s.tcpTimerCtr) : s'.fates c m t = s.fates c m t := by
  unfold Store.fates
  refine List.map_congr_left fun b hb => ?_
  rw [hpcb b hb, hticks, hctr]

/-- The block is skipped. -/
theorem AtBlock.skip (h : AtBlock c m s nodes done (a :: rest) adjacent prev a)
    (hfate : slowtmrFate c m s.tcpTicks s.tcpTimerCtr (s.block a).pcb = .skip) :
    AtBlock c m s nodes (done ++ [a]) rest false prev (s.next a) where
  inv := h.inv
  split := by rw [h.split, List.append_assoc, List.singleton_append]
  here := (h.split ▸ h.inv.path .active).next_eq
  prev hfalse := absurd hfalse (by decide)
  seen := by
    intro f hf
    rw [Store.fates, List.map_append, List.mem_append] at hf
    exact hf.elim (h.seen f) fun hf => (List.mem_singleton.mp hf).trans hfate
  ok := by
    have hok := h.ok
    have hne : (done ++ [a]).isEmpty = false := by simp
    rw [Store.fates, List.map_cons, hfate] at hok
    rw [hne]
    exact hok

/-- When the block is written back, the fates of the others stay. -/
theorem AtBlock.fates_write (h : AtBlock c m s nodes done (a :: rest) adjacent prev a) (conn : Conn) {t : List ℕ}
    (hsub : t ⊆ done ++ rest) : (s.write a conn).fates c m t = s.fates c m t := by
  have ha : a ∉ done ++ rest := by
    have hnd := h.split ▸ h.inv.toLinked.nodup .active
    exact (List.nodup_cons.mp (List.nodup_middle.mp hnd)).1
  refine fates_congr (fun b hb => congrArg Block.pcb (block_write_of_ne s conn ?_)) rfl rfl
  exact fun heq : b = a => ha (heq ▸ hsub hb)

/-- The block stays, and the walk goes on behind it. -/
theorem AtBlock.keep (h : AtBlock c m s nodes done (a :: rest) adjacent prev a)
    (hfate : slowtmrFate c m s.tcpTicks s.tcpTimerCtr (s.block a).pcb = .keep)
    (hstate : conn.pcb.state = (s.block a).pcb.state) (href : conn.pcb.refusedData = (s.block a).pcb.refusedData)
    (htimer : conn.pcb.lastTimer = s.tcpTimerCtr) :
    AtBlock c m (s.write a conn) nodes (done ++ [a]) rest true a (s.next a) := by
  have hpath := h.split ▸ h.inv.path .active
  have ha : a ∈ nodes .active := by
    rw [h.split]
    exact List.mem_append_right done List.mem_cons_self
  have hdone := h.fates_write conn (List.subset_append_left done rest)
  have hrest := h.fates_write conn (List.subset_append_right done rest)
  refine ⟨h.inv.write ha ?_ ?_, ?_, hpath.next_eq, ?_, ?_, ?_⟩
  · show conn.pcb.state.Connected
    rw [hstate]
    exact h.inv.fits .active a ha
  · rw [href]
    exact h.inv.refused a (h.inv.live .active a ha) List.not_mem_nil
  · rw [h.split, List.append_assoc, List.singleton_append]
  · intro _
    rw [List.getLastD_concat]
  · intro f hf
    rw [Store.fates, List.map_append, List.mem_append] at hf
    rcases hf with hf | hf
    · exact h.seen f (hdone ▸ hf)
    · rw [List.mem_singleton.mp hf]
      refine if_pos ?_
      rw [block_write_self]
      exact htimer
  · have hok := h.ok
    have hne : (done ++ [a]).isEmpty = false := by simp
    rw [Store.fates, List.map_cons, hfate] at hok
    rw [hrest, hne]
    exact hok

/-- The list without the block, which is behind those that were seen. -/
theorem AtBlock.erase_eq (h : AtBlock c m s nodes done (a :: rest) adjacent prev a) :
    (nodes .active).erase a = done ++ rest := by
  have hnd := h.split ▸ h.inv.toLinked.nodup .active
  have ha : a ∉ done := fun hm => (List.nodup_append.mp hnd).2.2 a hm a List.mem_cons_self rfl
  rw [h.split, List.erase_append_right _ ha, List.erase_cons_head]

/-- When the block is given back, the fates of the others stay. -/
theorem AtBlock.fates_release (h : AtBlock c m s nodes done (a :: rest) adjacent prev a) (hrel : Relinked s s')
    (conn : Conn) (t : List ℕ) (hsub : t ⊆ done ++ rest) : (s'.release a conn).fates c m t = s.fates c m t := by
  obtain ⟨hticks, hctr⟩ := hrel.timers_eq
  have ha : a ∉ done ++ rest := by
    rw [← h.erase_eq]
    exact (h.inv.toLinked.nodup .active).not_mem_erase
  refine fates_congr (fun b hb => ?_) hticks hctr
  have hblock : (s'.release a conn).block b = s'.block b :=
    Function.update_of_ne (fun heq : b = a => ha (heq ▸ hsub hb)) _ _
  rw [hblock, hrel.pcb_eq]

/-- The block is removed, and `prev` stays the one before. -/
theorem AtBlock.remove (h : AtBlock c m s nodes done (a :: rest) adjacent prev a)
    (hfate : slowtmrFate c m s.tcpTicks s.tcpTimerCtr (s.block a).pcb = .remove) (conn : Conn) :
    AtBlock c m ((s.unlinkAfter .active prev a).release a conn) (fun l => (nodes l).erase a) done rest adjacent prev
      (s.next a) := by
  have hok : (adjacent && removesOk (!done.isEmpty) adjacent (s.fates c m rest)) = true := by
    have hok := h.ok
    rw [Store.fates, List.map_cons, hfate] at hok
    exact hok
  obtain ⟨hadj, hok⟩ := Bool.and_eq_true_iff.mp hok
  obtain rfl := h.prev hadj
  have hrel := relinked_unlinkAfter s .active (done.getLastD 0) a
  have hlive : s.Live .tcpPcb a := h.inv.live .active a (by rw [h.split]; simp)
  refine ⟨(h.inv.unlinkAfter h.split).release (hrel.live.mpr hlive) conn, h.erase_eq,
    (h.split ▸ h.inv.path .active).next_eq, fun _ => rfl, ?_, ?_⟩
  · rw [h.fates_release hrel conn done (List.subset_append_left done rest)]
    exact h.seen
  · rw [h.fates_release hrel conn rest (List.subset_append_right done rest)]
    exact hok

/-- The block is returned, and the walk starts again. -/
theorem AtBlock.abort (h : AtBlock c m s nodes done (a :: rest) adjacent prev a)
    (hfate : slowtmrFate c m s.tcpTicks s.tcpTimerCtr (s.block a).pcb = .abort) (conn : Conn) (hn : s.size ≤ n) :
    ∃ t, s.tcpRmv n .active a = some t ∧ Relinked s t ∧
      AtBlock c m (t.release a conn) (fun l => (nodes l).erase a) [] (done ++ rest) true 0
        ((t.release a conn).head .active) := by
  have ha : a ∈ nodes .active := by
    rw [h.split]
    exact List.mem_append_right done List.mem_cons_self
  obtain ⟨t, hrmv, hrel, ht⟩ := h.inv.tcpRmv ha hn
  have hinv := ht.release (hrel.live.mpr (h.inv.live .active a ha)) conn
  refine ⟨t, hrmv, hrel, hinv, h.erase_eq, ?_, fun _ => rfl, fun f hf => absurd hf List.not_mem_nil, ?_⟩
  · rw [(hinv.path .active).head_eq, h.erase_eq]
  · have hok := h.ok
    rw [Store.fates, List.map_cons, hfate] at hok
    rw [h.fates_release hrel conn _ (List.Subset.refl _), Store.fates, List.map_append]
    refine (removesOk_skipped h.seen).trans ?_
    have hlen : (s.fates c m done).isEmpty = done.isEmpty := List.isEmpty_map
    rw [hlen]
    have hdone : removesOk (!done.isEmpty) done.isEmpty = removesOk (!done.isEmpty) (!!done.isEmpty) := by
      rw [Bool.not_not]
    rw [hdone]
    exact hok

/-! ## One round of the walk -/

/-- The connection of the block, when the limits are looked at. -/
def Store.roundConn (c : Config) (m : Mem) (s : Store) (a : ℕ) : Conn :=
  (s.conn a .active).onPcb (slowtmrRound c m s.tcpTicks s.tcpTimerCtr)

/-- What a fate says about the block. -/
def SlowtmrFate.Says (c : Config) (m : Mem) (ticks : UInt32) (timerCtr : UInt8) (pcb : Pcb) : SlowtmrFate → Prop
  | .skip => pcb.lastTimer = timerCtr
  | .remove => pcb.lastTimer ≠ timerCtr ∧ slowtmrRemoves c m ticks timerCtr pcb = true
  | .abort =>
      pcb.lastTimer ≠ timerCtr ∧ slowtmrRemoves c m ticks timerCtr pcb = false ∧
        (slowtmrPolls (slowtmrRound c m ticks timerCtr pcb) && pcb.cb.poll) = true
  | .keep =>
      pcb.lastTimer ≠ timerCtr ∧ slowtmrRemoves c m ticks timerCtr pcb = false ∧
        (slowtmrPolls (slowtmrRound c m ticks timerCtr pcb) && pcb.cb.poll) = false

/-- The fate of a block, in the words of the round. -/
theorem says_slowtmrFate (ticks : UInt32) (timerCtr : UInt8) (pcb : Pcb) :
    (slowtmrFate c m ticks timerCtr pcb).Says c m ticks timerCtr pcb := by
  by_cases hseen : pcb.lastTimer = timerCtr
  · rw [slowtmrFate, if_pos hseen]
    exact hseen
  · cases hremoves : slowtmrRemoves c m ticks timerCtr pcb with
    | true =>
        rw [slowtmrFate, if_neg hseen, if_pos hremoves]
        exact ⟨hseen, hremoves⟩
    | false =>
        rw [slowtmrFate, if_neg hseen, hremoves, if_neg (by decide)]
        cases hpolls : slowtmrPolls (slowtmrRound c m ticks timerCtr pcb) && pcb.cb.poll with
        | true => exact ⟨hseen, hremoves, hpolls⟩
        | false => exact ⟨hseen, hremoves, hpolls⟩

/-- A block that the loop removes itself does not make it start again. -/
theorem activePcbsChanged_slowtmrRemove (conn : Conn) : (slowtmrRemove conn).activePcbsChanged = false := by
  unfold slowtmrRemove tcpEventErr
  dsimp only
  split <;> rfl

/-- A block that had its round already. -/
theorem slowtmrActive_skip (ha : a ≠ 0) (hfate : slowtmrFate c m s.tcpTicks s.tcpTimerCtr (s.block a).pcb = .skip) :
    s.slowtmrActive c m n (fuel + 1) prev a = s.slowtmrActive c m n fuel prev (s.next a) := by
  have hseen := says_slowtmrFate (c := c) (m := m) s.tcpTicks s.tcpTimerCtr (s.block a).pcb
  rw [hfate] at hseen
  exact (if_neg ha).trans (if_pos hseen)

/-- A block that is removed: the loop goes on behind it. -/
theorem slowtmrActive_remove (ha : a ≠ 0)
    (hfate : slowtmrFate c m s.tcpTicks s.tcpTimerCtr (s.block a).pcb = .remove) :
    s.slowtmrActive c m n (fuel + 1) prev a =
      ((s.unlinkAfter .active prev a).release a (slowtmrRemove (s.roundConn c m a))).slowtmrActive c m n fuel prev
        (s.next a) := by
  have hcases := says_slowtmrFate (c := c) (m := m) s.tcpTicks s.tcpTimerCtr (s.block a).pcb
  rw [hfate] at hcases
  obtain ⟨hseen, hremoves⟩ := hcases
  rw [Store.slowtmrActive, if_neg ha, if_neg hseen]
  simp only [hremoves, if_true, activePcbsChanged_slowtmrRemove, Bool.false_eq_true, if_false]
  rfl

/-- The round that ends with the poll. -/
theorem slowtmrActive_poll (ha : a ≠ 0) (hseen : (s.block a).pcb.lastTimer ≠ s.tcpTimerCtr)
    (hremoves : slowtmrRemoves c m s.tcpTicks s.tcpTimerCtr (s.block a).pcb = false) :
    s.slowtmrActive c m n (fuel + 1) prev a =
      (s.place n .active a (slowtmrPoll c m (s.roundConn c m a))).bind fun t =>
        if slowtmrPolls (s.roundConn c m a).pcb && (slowtmrPoll c m (s.roundConn c m a)).activePcbsChanged then
          t.slowtmrActive c m n fuel 0 (t.head .active)
        else t.slowtmrActive c m n fuel a (s.next a) := by
  rw [Store.slowtmrActive, if_neg ha, if_neg hseen]
  simp only [hremoves]
  rfl

/-- A block that stays, whatever it sent. -/
theorem slowtmrActive_keep (fuel prev : ℕ) (ha : a ≠ 0)
    (hfate : slowtmrFate c m s.tcpTicks s.tcpTimerCtr (s.block a).pcb = .keep) :
    ∃ conn, s.slowtmrActive c m n (fuel + 1) prev a = (s.write a conn).slowtmrActive c m n fuel a (s.next a) ∧
      conn.pcb.state = (s.block a).pcb.state ∧ conn.pcb.refusedData = (s.block a).pcb.refusedData ∧
      conn.pcb.lastTimer = s.tcpTimerCtr := by
  have hcases := says_slowtmrFate (c := c) (m := m) s.tcpTicks s.tcpTimerCtr (s.block a).pcb
  rw [hfate] at hcases
  obtain ⟨hseen, hremoves, hpoll⟩ := hcases
  obtain ⟨hstate, href, hcb, htimer⟩ :=
    view_slowtmrRound (c := c) (m := m) s.tcpTicks s.tcpTimerCtr (s.block a).pcb
  obtain ⟨hhome, hstate', href', htimer', hstays⟩ :=
    slowtmrPoll_keeps (c := c) (m := m) (s.roundConn c m a) rfl
      ((congrArg (fun cb : Callbacks => slowtmrPolls (s.roundConn c m a).pcb && cb.poll) hcb).trans hpoll)
  refine ⟨slowtmrPoll c m (s.roundConn c m a), ?_, hstate'.trans hstate, href'.trans href, htimer'.trans htimer⟩
  rw [slowtmrActive_poll ha hseen hremoves, hstays, Store.place, hhome]
  rfl

/-- A block whose application gave it up: the loop starts again. -/
theorem slowtmrActive_abort (fuel prev : ℕ) (ha : a ≠ 0) (hstate : (s.block a).pcb.state ≠ .timeWait)
    (hfate : slowtmrFate c m s.tcpTicks s.tcpTimerCtr (s.block a).pcb = .abort) :
    ∃ conn, s.slowtmrActive c m n (fuel + 1) prev a =
      (s.tcpRmv n .active a).bind fun t =>
        (t.release a conn).slowtmrActive c m n fuel 0 ((t.release a conn).head .active) := by
  have hcases := says_slowtmrFate (c := c) (m := m) s.tcpTicks s.tcpTimerCtr (s.block a).pcb
  rw [hfate] at hcases
  obtain ⟨hseen, hremoves, hpoll⟩ := hcases
  obtain ⟨hround, -, hcb, -⟩ := view_slowtmrRound (c := c) (m := m) s.tcpTicks s.tcpTimerCtr (s.block a).pcb
  obtain ⟨hhome, hchanged⟩ :=
    slowtmrPoll_aborts (c := c) (m := m) (s.roundConn c m a) (fun heq => hstate (hround.symm.trans heq))
      ((congrArg (fun cb : Callbacks => slowtmrPolls (s.roundConn c m a).pcb && cb.poll) hcb).trans hpoll)
  refine ⟨slowtmrPoll c m (s.roundConn c m a), ?_⟩
  rw [slowtmrActive_poll ha hseen hremoves, hchanged, Store.place, hhome]
  exact Option.bind_map ..

/-- The first block, and the ones behind it, that have their round before them. -/
theorem pending_cons (s : Store) (a : ℕ) (l : List ℕ) :
    s.pending c m (a :: l) = s.pending c m l +
      if slowtmrFate c m s.tcpTicks s.tcpTimerCtr (s.block a).pcb = .skip then 0 else 1 := by
  rw [Store.pending, Store.fates, List.map_cons, List.countP_cons]
  by_cases hfate : slowtmrFate c m s.tcpTicks s.tcpTimerCtr (s.block a).pcb = .skip
  · simp [Store.pending, Store.fates, hfate]
  · simp [Store.pending, Store.fates, hfate]

/-- Two parts of the list. -/
theorem pending_append (s : Store) (l l' : List ℕ) : s.pending c m (l ++ l') = s.pending c m l + s.pending c m l' := by
  rw [Store.pending, Store.fates, List.map_append, List.countP_append]
  rfl

/-- Behind the loop there is nothing to do. -/
theorem AtBlock.pending_done (h : AtBlock c m s nodes done rest adjacent prev a) : s.pending c m done = 0 := by
  rw [Store.pending, List.countP_eq_zero]
  intro f hf
  rw [h.seen f hf]
  decide

/-- Freeing a block does not change what is to do with the others. -/
theorem AtBlock.pending_release (h : AtBlock c m s nodes done (a :: rest) adjacent prev a) (hrel : Relinked s s')
    (conn : Conn) {t : List ℕ} (hsub : t ⊆ done ++ rest) : (s'.release a conn).pending c m t = s.pending c m t :=
  congrArg (List.countP _) (h.fates_release hrel conn t hsub)

/-- **The walk over the active blocks.** When each removal finds its predecessor in `prev`, the walk ends, also
over its restarts, and leaves the lists in order. -/
theorem slowtmrActive_spec (h : AtBlock c m s nodes done rest adjacent prev a) (hn : s.size ≤ n)
    (hfuel : s.pending c m rest * (n + 1) + rest.length ≤ fuel) :
    ∃ s', s.slowtmrActive c m n fuel prev a = some s' ∧ ListsKept s s' := by
  -- the fuel pays one round for a block that is passed, and a whole walk for one after which the loop starts again
  induction fuel generalizing s nodes done rest adjacent prev a with
  | zero =>
      obtain rfl : rest = [] := List.eq_nil_of_length_eq_zero (by omega)
      exact ⟨s, if_pos h.here, ⟨nodes, h.inv⟩, rfl⟩
  | succ fuel ih =>
      cases rest with
      | nil => exact ⟨s, if_pos h.here, ⟨nodes, h.inv⟩, rfl⟩
      | cons b rest =>
          obtain rfl : a = b := h.here
          have hmem : a ∈ nodes .active := by
            rw [h.split]
            exact List.mem_append_right done List.mem_cons_self
          have ha : a ≠ 0 := fun h0 => h.inv.ne_null .active (h0 ▸ hmem)
          have hcount := pending_cons (c := c) (m := m) s a rest
          rw [List.length_cons] at hfuel
          cases hfate : slowtmrFate c m s.tcpTicks s.tcpTimerCtr (s.block a).pcb with
          -- the block has been seen in this tick
          | skip =>
              rw [slowtmrActive_skip ha hfate]
              rw [if_pos hfate, Nat.add_zero] at hcount
              rw [hcount] at hfuel
              exact ih (h.skip hfate) hn (by omega)
          | keep =>
              rw [if_neg (by rw [hfate]; decide)] at hcount
              rw [hcount, Nat.succ_mul] at hfuel
              obtain ⟨conn, hrun, hstate, href, htimer⟩ :=
                slowtmrActive_keep (n := n) fuel prev ha hfate
              have hpend : (s.write a conn).pending c m rest = s.pending c m rest :=
                congrArg (List.countP _) (h.fates_write conn (List.subset_append_right done rest))
              obtain ⟨t, ht, hkept, helems⟩ := ih (h.keep hfate hstate href htimer) hn (by rw [hpend]; omega)
              exact ⟨t, hrun.trans ht, hkept, helems⟩
          | remove =>
              rw [if_neg (by rw [hfate]; decide)] at hcount
              rw [hcount, Nat.succ_mul] at hfuel
              rw [slowtmrActive_remove ha hfate]
              have hrel := relinked_unlinkAfter s .active prev a
              have hpend := h.pending_release hrel (slowtmrRemove (s.roundConn c m a))
                (List.subset_append_right done rest)
              obtain ⟨t, ht, hkept, helems⟩ := ih (h.remove hfate (slowtmrRemove (s.roundConn c m a)))
                (size_le_congr hrel.elems_eq hn) (by rw [hpend]; omega)
              exact ⟨t, ht, hkept, helems.trans hrel.elems_eq⟩
          | abort =>
              rw [if_neg (by rw [hfate]; decide)] at hcount
              rw [hcount, Nat.succ_mul] at hfuel
              have hstate : (s.block a).pcb.state ≠ .timeWait :=
                (show (s.block a).pcb.state.Connected from h.inv.fits .active a hmem).2.2
              obtain ⟨conn, hrun⟩ := slowtmrActive_abort (n := n) fuel prev ha hstate hfate
              obtain ⟨t, hrmv, hrel, hat⟩ := h.abort hfate conn hn
              -- the loop starts again from the head: the blocks in front have been seen, and one less is pending
              have hpend : (t.release a conn).pending c m (done ++ rest) = s.pending c m rest := by
                rw [h.pending_release hrel conn (List.Subset.refl _), pending_append, h.pending_done, Nat.zero_add]
              have hlen : (done ++ rest).length ≤ n := by
                have hlen := hat.inv.length_le .active
                rw [hat.split] at hlen
                exact Nat.le_trans hlen (size_le_congr hrel.elems_eq hn)
              obtain ⟨u, hu, hkept, helems⟩ := ih hat (size_le_congr hrel.elems_eq hn) (by rw [hpend]; omega)
              refine ⟨u, ?_, hkept, helems.trans hrel.elems_eq⟩
              rw [hrun, hrmv]
              exact hu

/-! ## The walk over the blocks in TIME_WAIT -/

/-- The walk over `tcp_tw_pcbs` ends, and leaves the lists in order. -/
theorem slowtmrTimeWait_spec (h : ListInv s nodes []) (hsplit : nodes .timeWait = done ++ rest)
    (hfuel : rest.length ≤ fuel) :
    ∃ s', s.slowtmrTimeWait fuel (done.getLastD 0) (rest.headD 0) = some s' ∧ ListsKept s s' := by
  induction fuel generalizing s nodes done rest with
  | zero =>
      obtain rfl : rest = [] := List.eq_nil_of_length_eq_zero (by omega)
      exact ⟨s, rfl, ⟨nodes, h⟩, rfl⟩
  | succ fuel ih =>
      cases rest with
      | nil => exact ⟨s, if_pos rfl, ⟨nodes, h⟩, rfl⟩
      | cons a rest =>
          have hmem : a ∈ nodes .timeWait := by
            rw [hsplit]
            exact List.mem_append_right done List.mem_cons_self
          have ha : a ≠ 0 := fun h0 => h.ne_null .timeWait (h0 ▸ hmem)
          have hnext : s.next a = rest.headD 0 := (hsplit ▸ h.path .timeWait).next_eq
          have hlen : rest.length ≤ fuel := Nat.le_of_succ_le_succ hfuel
          rw [List.headD_cons, Store.slowtmrTimeWait, if_neg ha]
          simp only [hnext]
          split
          · have hrel := relinked_unlinkAfter s .timeWait (done.getLastD 0) a
            have herase : (nodes .timeWait).erase a = done ++ rest := by
              have hnd := hsplit ▸ h.toLinked.nodup .timeWait
              have hdone : a ∉ done := fun hm => (List.nodup_append.mp hnd).2.2 a hm a List.mem_cons_self rfl
              rw [hsplit, List.erase_append_right _ hdone, List.erase_cons_head]
            obtain ⟨t, ht, hkept, helems⟩ := ih ((h.unlinkAfter hsplit).release
              (hrel.live.mpr (h.live .timeWait a hmem)) (Tcp.mempFree ((s.conn a .timeWait).onPcb tcpPcbPurge)))
              herase hlen
            exact ⟨t, ht, hkept, helems.trans hrel.elems_eq⟩
          · have hsplit' : nodes .timeWait = (done ++ [a]) ++ rest := by
              rw [hsplit, List.append_assoc, List.singleton_append]
            have hkeep := ih h hsplit' hlen
            rw [List.getLastD_concat] at hkeep
            exact hkeep

/-- The counters of the slow timer go on. -/
def Store.tick (s : Store) : Store := { s with tcpTicks := s.tcpTicks + 1, tcpTimerCtr := s.tcpTimerCtr + 1 }

/-- **`tcp_slowtmr` keeps the lists.** In a round in which each removal finds its predecessor in `prev`, the loops
end and leave every list in order. -/
theorem ListInv.tcpSlowtmr (h : ListInv s nodes []) (hn : s.size ≤ n)
    (hok : removesOk false true (s.tick.fates c m (nodes .active)) = true) :
    ∃ s', s.tcpSlowtmr c m n = some s' ∧ ListsKept s s' := by
  have htick : ListInv s.tick nodes [] := h.congr rfl rfl rfl rfl
  have hat : AtBlock c m s.tick nodes [] (nodes .active) true 0 (s.tick.head .active) :=
    { inv := htick
      split := rfl
      here := (htick.path .active).head_eq
      prev := fun _ => rfl
      seen := fun f hf => absurd hf List.not_mem_nil
      ok := hok }
  have hlen : (nodes .active).length ≤ n := Nat.le_trans (h.length_le .active) hn
  have hpend : s.tick.pending c m (nodes .active) ≤ n :=
    Nat.le_trans List.countP_le_length (by rwa [Store.fates, List.length_map])
  have hfuel : s.tick.pending c m (nodes .active) * (n + 1) + (nodes .active).length ≤ (n + 1) * (n + 1) := by
    have hmul := Nat.mul_le_mul_right (n + 1) hpend
    rw [Nat.succ_mul n (n + 1)]
    omega
  obtain ⟨t, ht, ⟨nodes', hinv⟩, helems⟩ := slowtmrActive_spec hat hn hfuel
  have hn' : t.size ≤ n := size_le_congr helems hn
  have hsplit : nodes' .timeWait = [] ++ nodes' .timeWait := rfl
  obtain ⟨u, hu, hkept, helems'⟩ :=
    slowtmrTimeWait_spec hinv hsplit (Nat.le_trans (hinv.length_le .timeWait) hn')
  refine ⟨u, ?_, hkept, helems'.trans helems⟩
  rw [← (hinv.path .timeWait).head_eq] at hu
  exact (congrArg (Option.bind · _) ht).trans hu

/-! ## The fast timer -/

/-- Without refused data the round of `tcp_fasttmr` at most acknowledges. -/
theorem fasttmrActive_keeps (conn : Conn) (hhome : conn.home = .active) (href : conn.pcb.refusedData = none) :
    (fasttmrActive c m conn).home = .active ∧ (fasttmrActive c m conn).pcb.state = conn.pcb.state ∧
      (fasttmrActive c m conn).pcb.refusedData = none := by
  unfold fasttmrActive
  by_cases hseen : conn.pcb.lastTimer = conn.timerCtr
  · rw [if_pos hseen]
    exact ⟨hhome, rfl, href⟩
  rw [if_neg hseen]
  by_cases hack : conn.pcb.flags.ackDelay = true
  · have hview := view_tcpOutput c conn.ticks conn.inputPcb m.outAlloc
      (tcpAckNow { conn.pcb with lastTimer := conn.timerCtr })
    have hnone := (congrArg View.refusedData hview).trans href
    simp only [Conn.onPcb, hack, if_true]
    split
    · exact ⟨hhome, congrArg View.state hview, hnone⟩
    · rename_i heq
      exact absurd (hnone.symm.trans heq) (by simp)
  · simp only [Conn.onPcb, hack, Bool.false_eq_true, if_false, href]
    exact ⟨hhome, trivial, trivial⟩

/-- The walk over blocks that were not seen yet visits each of them once. -/
theorem fasttmrLoop_spec (h : ListInv s nodes []) (hsplit : nodes .active = done ++ rest)
    (hunseen : ∀ b ∈ rest, (s.block b).pcb.lastTimer ≠ s.tcpTimerCtr) (hfuel : rest.length ≤ fuel) :
    ∃ s', s.fasttmrLoop c m n fuel (rest.headD 0) = some s' ∧ ListsKept s s' := by
  induction fuel generalizing s done rest with
  | zero =>
      obtain rfl : rest = [] := List.eq_nil_of_length_eq_zero (by omega)
      exact ⟨s, rfl, ⟨nodes, h⟩, rfl⟩
  | succ fuel ih =>
      cases rest with
      | nil => exact ⟨s, if_pos rfl, ⟨nodes, h⟩, rfl⟩
      | cons a rest =>
          have hmem : a ∈ nodes .active := by
            rw [hsplit]
            exact List.mem_append_right done List.mem_cons_self
          have ha : a ≠ 0 := fun h0 => h.ne_null .active (h0 ▸ hmem)
          have hrest : a ∉ rest :=
            (List.nodup_cons.mp (List.nodup_append.mp (hsplit ▸ h.toLinked.nodup .active)).2.1).1
          have hnext : s.next a = rest.headD 0 := (hsplit ▸ h.path .active).next_eq
          have href := h.refused a (h.live .active a hmem) List.not_mem_nil
          obtain ⟨hhome, hstate, href'⟩ :=
            fasttmrActive_keeps (c := c) (m := m) (s.conn a .active) rfl href
          have hwrite : ListInv (s.write a (fasttmrActive c m (s.conn a .active))) nodes [] := by
            refine h.write hmem ?_ href'
            show (fasttmrActive c m (s.conn a .active)).pcb.state.Connected
            rw [hstate]
            exact h.fits .active a hmem
          have hsplit' : nodes .active = (done ++ [a]) ++ rest := by
            rw [hsplit, List.append_assoc, List.singleton_append]
          obtain ⟨t, ht, hkept, helems⟩ := ih hwrite hsplit'
            (fun b hb => by
              rw [block_write_of_ne s _ fun heq : b = a => hrest (heq ▸ hb)]
              exact hunseen b (List.mem_cons_of_mem a hb))
            (Nat.le_of_succ_le_succ hfuel)
          refine ⟨t, ?_, hkept, helems⟩
          rw [List.headD_cons, Store.fasttmrLoop, if_neg ha, if_neg (hunseen a List.mem_cons_self)]
          simp only [Store.place, hhome, hnext, href]
          exact ht

/-- **`tcp_fasttmr` keeps the lists**, when no active block is marked as seen already: such a block would hold it
for ever. -/
theorem ListInv.tcpFasttmr (h : ListInv s nodes []) (hn : s.size ≤ n)
    (hunseen : ∀ a ∈ nodes .active, (s.block a).pcb.lastTimer ≠ s.tcpTimerCtr + 1) :
    ∃ s', s.tcpFasttmr c m n = some s' ∧ ListsKept s s' := by
  have htick : ListInv { s with tcpTimerCtr := s.tcpTimerCtr + 1 } nodes [] := h.congr rfl rfl rfl rfl
  have hlen : (nodes .active).length ≤ (n + 1) * (n + 1) :=
    Nat.le_trans (Nat.le_trans (h.length_le .active) hn)
      (Nat.le_trans (Nat.le_succ n) (Nat.le_mul_of_pos_left (n + 1) n.succ_pos))
  have hsplit : nodes .active = [] ++ nodes .active := rfl
  obtain ⟨t, ht, hkept, helems⟩ := fasttmrLoop_spec (c := c) (m := m) (n := n) htick hsplit hunseen hlen
  refine ⟨t, ?_, hkept, helems⟩
  rw [← (htick.path .active).head_eq] at ht
  exact ht

/-- A block that is marked as seen holds `tcp_fasttmr` for ever, with any bound on its rounds. -/
theorem fasttmrLoop_stays (ha : a ≠ 0) (hseen : (s.block a).pcb.lastTimer = s.tcpTimerCtr) (fuel : ℕ) :
    s.fasttmrLoop c m n fuel a = none := by
  induction fuel with
  | zero => exact if_neg ha
  | succ fuel ih => rw [Store.fasttmrLoop, if_neg ha, if_pos hseen, ih]

end BareMetal.Tcp
