import BareMetal.Eth.RxRing
import BareMetal.Eth.WakeUp
import Mathlib.Tactic.NormNum

/-! # What one run of the handler takes off the ring

While the DMA is quiet, `ETH_IRQHandler` takes completed descriptors for as long as `ETH_GetRxPktSize`
is not zero. That function is zero for a descriptor with an error, without `LS` or of length zero, so
the branch of `ETH_Rx_Packet` for such frames is never reached and the handler stops in front of the
first of them (`waiting_eq_dropWhile`). The ring moves on exactly when everything from there on belongs
to a frame that the DMA has not finished (`moves_on_iff`). -/

namespace BareMetal.Eth

/-- The status words of the completed descriptors from `d` on, at most `n` of them. -/
def completedFrom (desc : ℕ → DmaDesc) : ℕ → ℕ → List U32
  | 0, _ => []
  | n + 1, d =>
      if bitSet (desc d).status dmaRxDescOwn then []
      else (desc d).status :: completedFrom desc n (desc d).buffer2NextDescAddr

/-- The status words of the completed descriptors from `DMARxDescToGet` on. -/
def State.waiting (c : Config) (s : State) : List U32 :=
  completedFrom s.desc c.rxBuffCount s.dmaRxDescToGet

/-- The test of the loop in `ETH_IRQHandler`. -/
def Deliverable (status : U32) : Bool := ethGetRxPktSize status != 0

/-- `DMARxDescToGet` points to a descriptor that is owned by the DMA or belongs to a frame whose last
descriptor is not completed yet. -/
def MovesOn (c : Config) (s : State) : Prop :=
  bitSet (s.desc s.dmaRxDescToGet).status dmaRxDescOwn = true ∨
    ∀ w ∈ s.waiting c, bitSet w dmaRxDescLs = false

instance (c : Config) (s : State) : Decidable (MovesOn c s) :=
  inferInstanceAs (Decidable (_ ∨ _))

/-- A step of the handler. -/
def Event.isCpu : Event → Bool
  | .cpu _ _ => true
  | _ => false

variable {c : Config} {s s' t : State} {e : Event} {es cpus : List Event}

/-- The completions that are not taken yet. -/
def State.backlog (s : State) : List U32 := (s.arrived.drop s.taken).map Prod.fst

/-- Outside a frame, following the chain from `DMARxDescToGet` meets exactly the completions that are
not taken yet. -/
theorem RxRing.waiting_eq (h : RxRing c s) (hnone : s.pc.frame? = none) : s.waiting c = s.backlog := by
  have hreleased := State.released_of_none hnone
  have hfrom : ∀ m k, k + m = s.taken + c.rxBuffCount → s.taken ≤ k → k ≤ s.arrived.length →
      completedFrom s.desc m (k % c.rxBuffCount) = (s.arrived.drop k).map Prod.fst := by
    intro m
    induction m with
    | zero =>
        intro k hk _ _
        have := h.arrived_le
        rw [List.drop_of_length_le (by omega)]
        rfl
    | succ m ih =>
        intro k hk htk hka
        rw [completedFrom]
        rcases Nat.lt_or_ge k s.arrived.length with hlt | hge
        · obtain ⟨x, hx, hstatus⟩ := h.completed k (by omega) hlt
          have hown := (h.arrived_own x (List.mem_of_getElem? hx)).1
          obtain ⟨hlt', hget⟩ := List.getElem?_eq_some_iff.mp hx
          rw [hstatus, hown, if_neg Bool.false_ne_true, h.nextDesc, ih (k + 1) (by omega) (by omega) hlt,
            List.drop_eq_getElem_cons hlt', hget, List.map_cons]
        · rw [h.owned k hge (by omega), if_pos rfl, List.drop_of_length_le hge]
          rfl
  rw [State.waiting, h.toGet]
  exact hfrom c.rxBuffCount s.taken rfl le_rfl h.taken_le

/-- The property only looks at the completed descriptors. -/
theorem movesOn_iff (c : Config) (s : State) :
    MovesOn c s ↔ ∀ w ∈ s.waiting c, bitSet w dmaRxDescLs = false := by
  refine ⟨fun hm => hm.elim (fun hown => ?_) id, Or.inr⟩
  obtain ⟨n, hn⟩ := Nat.exists_eq_succ_of_ne_zero c.rxBuffCount_pos.ne'
  intro w hw
  rw [State.waiting, hn, completedFrom, if_pos hown] at hw
  exact absurd hw List.not_mem_nil

/-! ## While the DMA is quiet -/

/-- After its last test the handler only clears the status bits. -/
def Pc.leaving : Pc → Bool
  | .clearR | .clearNis | .idle => true
  | _ => false

/-- The handler takes deliverable completions off the front of the backlog, and it leaves its loop
when there is none: `rest` is what it will leave behind. -/
structure Draining (c : Config) (rest : List U32) (s : State) : Prop where
  ring : RxRing c s
  backlog : s.backlog.dropWhile Deliverable = rest
  leaving : s.pc.leaving = true → s.backlog = rest

/-- A step that takes nothing keeps the backlog. -/
theorem Draining.keep {rest : List U32} (h : Draining c rest s) (hring : RxRing c s')
    (hb : s'.backlog = s.backlog) (hl : s'.pc.leaving = true → s.pc.leaving = true) :
    Draining c rest s' :=
  ⟨hring, hb ▸ h.backlog, fun hl' => hb ▸ h.leaving (hl hl')⟩

/-- A failed test means that nothing deliverable is in front. -/
theorem Draining.stop {rest : List U32} (h : Draining c rest s) (hpc : s.pc = .test)
    (hsize : ¬ ethGetRxPktSize (s.desc s.dmaRxDescToGet).status ≠ 0) : s.backlog = rest := by
  rw [← h.backlog]
  have hreleased : s.released = s.taken := State.released_of_none (by rw [hpc]; rfl)
  rcases Nat.lt_or_ge s.taken s.arrived.length with hlt | hge
  · obtain ⟨x, hx, hstatus⟩ := h.ring.completed s.taken hreleased.le hlt
    obtain ⟨hlt', hget⟩ := List.getElem?_eq_some_iff.mp hx
    rw [h.ring.toGet, hstatus] at hsize
    have hnot : ¬ Deliverable x.1 = true := by
      rw [Deliverable, bne_iff_ne]
      exact hsize
    rw [State.backlog, List.drop_eq_getElem_cons hlt', hget, List.map_cons,
      List.dropWhile_cons_of_neg hnot]
  · rw [State.backlog, List.drop_of_length_le hge]
    rfl

/-- A step of the handler keeps what is known of the frames that wait. -/
theorem Draining.handlerStep {rest : List U32} {free : ℕ} {old : ℕ → ℕ → UInt8}
    (h : Draining c rest s) (hs : handlerStep c free old s = some s') : Draining c rest s' := by
  have hring := h.ring.handlerStep hs
  rw [Eth.handlerStep] at hs
  split at hs
  · cases hs
  · next hpc =>
      split at hs
      · obtain rfl := Option.some.inj hs
        exact h.keep hring rfl fun hl => by cases hl
      · next hsize =>
          obtain rfl := Option.some.inj hs
          exact ⟨hring, h.backlog, fun _ => h.stop hpc hsize⟩
  · next hpc =>
      obtain rfl := Option.some.inj hs
      -- the descriptor taken is the deliverable one in front of the backlog
      obtain ⟨x, hx, hstatus⟩ := h.ring.ready_getElem? hpc
      have hready := h.ring.ready hpc
      rw [hstatus] at hready
      obtain ⟨hlt, hget⟩ := List.getElem?_eq_some_iff.mp hx
      refine ⟨hring, ?_, fun hl => by cases hl⟩
      have hback := h.backlog
      rw [State.backlog, List.drop_eq_getElem_cons hlt, hget, List.map_cons,
        List.dropWhile_cons_of_pos (by rw [Deliverable, bne_iff_ne]; exact hready)] at hback
      rw [h.ring.ethRxPacket_eq hpc hx]
      exact hback
  · split at hs <;> obtain rfl := Option.some.inj hs <;> exact h.keep hring rfl fun hl => by cases hl
  · obtain rfl := Option.some.inj hs
    exact h.keep hring rfl fun hl => by cases hl
  · obtain rfl := Option.some.inj hs
    exact h.keep hring rfl fun hl => by cases hl
  · next frame _ _ =>
      obtain rfl := Option.some.inj hs
      refine h.keep hring ?_ fun hl => by cases hl
      cases frame.descriptor <;> rfl
  · split at hs <;> obtain rfl := Option.some.inj hs <;> exact h.keep hring rfl fun hl => by cases hl
  · obtain rfl := Option.some.inj hs
    exact h.keep hring rfl fun hl => by cases hl
  · obtain rfl := Option.some.inj hs
    refine h.keep hring ?_ fun hl => by cases hl
    rw [ethernetifInput_eq]
    rfl
  · next hpc =>
      obtain rfl := Option.some.inj hs
      exact h.keep hring rfl fun _ => by rw [hpc]; rfl
  · next hpc =>
      obtain rfl := Option.some.inj hs
      exact h.keep hring rfl fun _ => by rw [hpc]; rfl

/-- **One run of the handler.** With the DMA quiet, the handler leaves exactly what is behind the
deliverable descriptors in front. -/
theorem waiting_eq_dropWhile (h : RxRing c s) (hidle : s.pc = .idle)
    (hcpu : ∀ e ∈ cpus, e.isCpu = true) (hrun : run (step c) s (.irq :: cpus) = some s')
    (hidle' : s'.pc = .idle) : RxRing c s' ∧ s'.waiting c = (s.waiting c).dropWhile Deliverable := by
  obtain ⟨t, ht, hrest⟩ := run_cons_eq_some.mp hrun
  have hring := h.step ht
  rw [step, hidle] at ht
  obtain ⟨-, ht⟩ := Option.ite_none_right_eq_some.mp ht
  obtain rfl := Option.some.inj ht
  have hstart : Draining c (s.backlog.dropWhile Deliverable) { s with pc := .test } :=
    ⟨hring, rfl, fun hl => by cases hl⟩
  have hend : Draining c (s.backlog.dropWhile Deliverable) s' := by
    refine run_invariant_of_meets ?_ hstart (runMeets_of_forall _ hcpu) hrest
    intro s e s' hd he hs
    cases e with
    | cpu free old => exact hd.handlerStep hs
    | complete | rbus | irq => cases he
  refine ⟨hend.ring, ?_⟩
  rw [hend.ring.waiting_eq (by rw [hidle']; rfl), h.waiting_eq (by rw [hidle]; rfl)]
  exact hend.leaving (by rw [hidle']; rfl)

/-! ## The handler returns -/

section Return

variable {bufsize free remLen length : ℕ} {old : ℕ → ℕ → UInt8} {p : List Pbuf}

/-- A chain has at most as many pbufs as bytes, but for the first. -/
theorem length_pbufAllocTail (hpos : 0 < bufsize) (h : pbufAllocTail bufsize free old remLen = some p) :
    p.length ≤ remLen := by
  induction free generalizing old remLen p with
  | zero =>
      rw [pbufAllocTail, Option.ite_none_right_eq_some] at h
      obtain rfl := Option.some.inj h.2
      exact Nat.zero_le _
  | succ free ih =>
      rw [pbufAllocTail] at h
      split at h
      · obtain rfl := Option.some.inj h
        exact Nat.zero_le _
      · obtain ⟨r, hr, rfl⟩ := Option.map_eq_some_iff.mp h
        have := ih hr
        rw [List.length_cons]
        omega

/-- A chain has at most one pbuf more than bytes. -/
theorem length_pbufAlloc (hpos : 0 < bufsize) (h : pbufAlloc bufsize free old length = some p) :
    p.length ≤ length + 1 := by
  cases free with
  | zero => cases h
  | succ free =>
      obtain ⟨r, hr, rfl⟩ := Option.map_eq_some_iff.mp h
      have := length_pbufAllocTail hpos hr
      rw [List.length_cons]
      omega

/-- The steps that the handler takes at most before it is in its loop again or outside. -/
def Pc.rank : Pc → ℕ
  | .idle => 0
  | .clearNis => 1
  | .clearR => 2
  | .rxPacket => 3
  | .test => 4
  | .input _ => 5
  | .rbusClear _ => 6
  | .rbusTest _ => 7
  | .release _ _ => 8
  | .copy _ _ todo _ => 9 + todo.length
  | .alloc _ => 65546

/-- The steps that the handler takes at most before it returns, with the DMA quiet. -/
def State.rank (s : State) : ℕ := (s.arrived.length - s.taken) * 131072 + s.pc.rank

/-- Every step of the handler brings it closer to its return. -/
theorem RxRing.rank_lt (h : RxRing c s) (hs : Eth.handlerStep c free old s = some s') :
    s'.rank < s.rank := by
  have hpos : 0 < c.pbufPoolBufsize := by
    have := c.sizeofEthHdr_le
    omega
  rw [Eth.handlerStep] at hs
  simp only [State.rank]
  split at hs
  · cases hs
  · next hpc => split at hs <;> obtain rfl := Option.some.inj hs <;> simp only [hpc, Pc.rank] <;> omega
  · -- a frame is taken, so one fewer waits
    next hpc =>
      obtain rfl := Option.some.inj hs
      obtain ⟨x, hx, -⟩ := h.ready_getElem? hpc
      have hlt := RxRing.lt_of_getElem? hx
      rw [h.ethRxPacket_eq hpc hx]
      simp only [hpc, Pc.rank]
      omega
  · -- the copy loop is no longer than the chain, which has at most one pbuf more than bytes
    next frame hpc =>
      split at hs
      · obtain rfl := Option.some.inj hs
        simp only [hpc, Pc.rank]
        omega
      · next p hp =>
          obtain rfl := Option.some.inj hs
          have := length_pbufAlloc hpos hp
          have := Nat.mod_lt frame.length.toNat (show 0 < 65536 by norm_num)
          simp only [hpc, Pc.rank]
          omega
  · next hpc =>
      obtain rfl := Option.some.inj hs
      simp only [hpc, Pc.rank]
      omega
  · -- one pbuf fewer to fill
    next hpc =>
      obtain rfl := Option.some.inj hs
      simp only [hpc, Pc.rank, List.length_cons]
      omega
  · next frame p hpc =>
      obtain rfl := Option.some.inj hs
      cases frame.descriptor <;> simp only [hpc, Pc.rank, releaseDesc] <;> omega
  · next hpc => split at hs <;> obtain rfl := Option.some.inj hs <;> simp only [hpc, Pc.rank] <;> omega
  · next hpc =>
      obtain rfl := Option.some.inj hs
      simp only [hpc, Pc.rank]
      omega
  · next p hpc =>
      obtain rfl := Option.some.inj hs
      rw [ethernetifInput_eq]
      simp only [hpc, Pc.rank]
      omega
  · next hpc =>
      obtain rfl := Option.some.inj hs
      simp only [hpc, Pc.rank]
      omega
  · next hpc =>
      obtain rfl := Option.some.inj hs
      simp only [hpc, Pc.rank]
      omega

/-- Inside the handler there is always a next step. -/
theorem exists_handlerStep (c : Config) (free : ℕ) (old : ℕ → ℕ → UInt8) (hidle : s.pc ≠ .idle) :
    ∃ s', handlerStep c free old s = some s' := by
  rw [handlerStep]
  split
  · next hpc => exact absurd hpc hidle
  · split <;> exact ⟨_, rfl⟩
  · exact ⟨_, rfl⟩
  · split <;> exact ⟨_, rfl⟩
  · exact ⟨_, rfl⟩
  · exact ⟨_, rfl⟩
  · exact ⟨_, rfl⟩
  · split <;> exact ⟨_, rfl⟩
  · exact ⟨_, rfl⟩
  · exact ⟨_, rfl⟩
  · exact ⟨_, rfl⟩
  · exact ⟨_, rfl⟩

/-- **The handler returns.** With the DMA quiet, the handler reaches its end whatever the pbuf pool
gives it. -/
theorem RxRing.handler_returns (h : RxRing c s) (pool : ℕ → ℕ × (ℕ → ℕ → UInt8)) :
    ∃ k s', run (Eth.step c) s ((List.range k).map fun i => Event.cpu (pool i).1 (pool i).2) = some s' ∧
      s'.pc = .idle := by
  induction hn : s.rank using Nat.strong_induction_on generalizing s pool with
  | _ n ih =>
      by_cases hidle : s.pc = .idle
      · exact ⟨0, s, rfl, hidle⟩
      · obtain ⟨t, ht⟩ := exists_handlerStep c (pool 0).1 (pool 0).2 hidle
        have hlt := h.rank_lt ht
        obtain ⟨k, s', hrun, hidle'⟩ :=
          ih t.rank (hn ▸ hlt) (h.handlerStep ht) (fun i => pool (i + 1)) rfl
        refine ⟨k + 1, s', ?_, hidle'⟩
        rw [List.range_succ_eq_map, List.map_cons, List.map_map]
        exact run_cons_eq_some.mpr ⟨t, ht, hrun⟩

/-- A pending interrupt can be handled to the end. -/
theorem RxRing.exists_handler_run (h : RxRing c s) (hidle : s.pc = .idle) (hpend : s.pending = true)
    (pool : ℕ → ℕ × (ℕ → ℕ → UInt8)) :
    ∃ cpus s', (∀ e ∈ cpus, e.isCpu = true) ∧ run (Eth.step c) s (.irq :: cpus) = some s' ∧
      s'.pc = .idle := by
  have hirq : Eth.step c s .irq = some { s with pc := .test } := by
    rw [Eth.step, hidle]
    exact if_pos hpend
  obtain ⟨k, s', hrun, hidle'⟩ := (h.step hirq).handler_returns pool
  refine ⟨_, s', fun e he => ?_, run_cons_eq_some.mpr ⟨_, hirq, hrun⟩, hidle'⟩
  obtain ⟨i, -, rfl⟩ := List.mem_map.mp he
  rfl

end Return

/-- **When the ring moves on.** From a reachable state, a run of the handler during which the DMA
completes nothing leaves `DMARxDescToGet` at a descriptor of the DMA or of an unfinished frame if and
only if, behind the deliverable descriptors that were waiting in front, no descriptor was waiting that
ends a frame. -/
theorem moves_on_iff (c : Config) (desc : ℕ → DmaDesc) (mem : ByteMem) (es cpus : List Event)
    (s s' : State) (hreach : run (step c) (init c desc mem) es = some s) (hidle : s.pc = .idle)
    (hcpu : ∀ e ∈ cpus, e.isCpu = true) (hrun : run (step c) s (.irq :: cpus) = some s')
    (hidle' : s'.pc = .idle) :
    MovesOn c s' ↔ ∀ w ∈ (s.waiting c).dropWhile Deliverable, bitSet w dmaRxDescLs = false := by
  obtain ⟨-, hwaiting⟩ := waiting_eq_dropWhile (rxRing_of_run hreach) hidle hcpu hrun hidle'
  rw [movesOn_iff, hwaiting]

/-- A frame with a CRC error completes: `ES` is set, and `FS` and `LS`. -/
def errorFrameCompletes : Event := .complete 0x00408300 (List.replicate 64 0)

/-- After one completion: whether the handler is outside, whether its interrupt is pending, and the
completed descriptors. -/
def afterCompletion (e : Event) : Option (Bool × Bool × List U32) :=
  (step twoBuffers fresh e).map fun s => (s.pc.isIdle, s.pending, s.waiting twoBuffers)

/-- The theorem at a run of the whole handler. -/
theorem moves_on_iff_goodFrame : ∃ cpus s s', run (step twoBuffers) fresh [goodFrameCompletes] = some s ∧
    run (step twoBuffers) s (.irq :: cpus) = some s' ∧ s'.pc = .idle ∧
    (MovesOn twoBuffers s' ↔
      ∀ w ∈ (s.waiting twoBuffers).dropWhile Deliverable, bitSet w dmaRxDescLs = false) := by
  have hout : afterCompletion goodFrameCompletes = some (true, true, [goodStatus]) := by decide
  obtain ⟨s, hs, hobs⟩ := Option.map_eq_some_iff.mp hout
  simp only [Prod.mk.injEq, Pc.isIdle_iff] at hobs
  obtain ⟨hidle, hpend, -⟩ := hobs
  have hreach := run_cons_eq_some.mpr ⟨s, hs, run_nil s⟩
  obtain ⟨cpus, s', hcpu, hrun, hidle'⟩ :=
    (rxRing_of_run hreach).exists_handler_run hidle hpend fun _ => (0, fun _ _ => 0)
  exact ⟨cpus, s, s', hreach, hrun, hidle', moves_on_iff twoBuffers (fun _ => blankDesc) (fun _ => 0)
    [goodFrameCompletes] cpus s s' hreach hidle hcpu hrun hidle'⟩

/-- The ring does not always move on: after a frame with a CRC error the handler returns and leaves that
frame at `DMARxDescToGet`. -/
theorem not_moves_on : ¬ ∀ (c : Config) (desc : ℕ → DmaDesc) (mem : ByteMem) (es cpus : List Event)
    (s s' : State), run (step c) (init c desc mem) es = some s → s.pc = .idle →
      (∀ e ∈ cpus, e.isCpu = true) → run (step c) s (.irq :: cpus) = some s' → s'.pc = .idle →
      MovesOn c s' := by
  intro h
  have hout : afterCompletion errorFrameCompletes = some (true, true, [0x00408300]) := by decide
  obtain ⟨s, hs, hobs⟩ := Option.map_eq_some_iff.mp hout
  simp only [Prod.mk.injEq, Pc.isIdle_iff] at hobs
  obtain ⟨hidle, hpend, hwaiting⟩ := hobs
  have hreach := run_cons_eq_some.mpr ⟨s, hs, run_nil s⟩
  have hring := rxRing_of_run hreach
  obtain ⟨cpus, s', hcpu, hrun, hidle'⟩ :=
    hring.exists_handler_run hidle hpend fun _ => (0, fun _ _ => 0)
  have hmoves := (movesOn_iff twoBuffers s').mp (h twoBuffers _ _ _ cpus s s' hreach hidle hcpu hrun hidle')
  rw [(waiting_eq_dropWhile hring hidle hcpu hrun hidle').2, hwaiting] at hmoves
  have hstays : ([0x00408300] : List U32).dropWhile Deliverable = [0x00408300] := rfl
  rw [hstays] at hmoves
  exact absurd (hmoves _ List.mem_cons_self) (by decide)

end BareMetal.Eth
