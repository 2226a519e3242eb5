import BareMetal.Eth.Receive

/-! # The receive interrupt as a wake-up

`ETH_IRQHandler` tests the ring, and when it finds nothing it clears `R` and `NIS` in two more writes. A
frame that completes between that last test and the write of `NIS` sets the bits of an interrupt that
the handler then clears: the frame waits in the ring with no interrupt pending, until another one
arrives. Apart from that window no wake-up is lost (`pending_of_waiting`), and every frame that falls
into it loses its own (`not_pending_of_late`). -/

namespace BareMetal.Eth

/-- The status word of a good frame in a single descriptor. -/
def GoodFrame (status : U32) : Prop :=
  bitSet status dmaRxDescOwn = false ∧ bitSet status dmaRxDescEs = false ∧
    bitSet status dmaRxDescFs = true ∧ bitSet status dmaRxDescLs = true ∧
    ethGetDMARxDescFrameLength status ≠ 0

instance (status : U32) : Decidable (GoodFrame status) :=
  inferInstanceAs (Decidable (_ ∧ _))

/-- A good frame waits at `DMARxDescToGet`. -/
def State.Waiting (s : State) : Prop := GoodFrame (s.desc s.dmaRxDescToGet).status

instance (s : State) : Decidable s.Waiting := inferInstanceAs (Decidable (GoodFrame _))

/-- The handler has made its last test and is about to clear the status bits. -/
def Pc.clearing : Pc → Bool
  | .clearR | .clearNis => true
  | _ => false

/-- The handler is not running. -/
def Pc.isIdle : Pc → Bool
  | .idle => true
  | _ => false

/-- The handler is idle in one place only. -/
theorem Pc.isIdle_iff {pc : Pc} : pc.isIdle = true ↔ pc = .idle := by
  cases pc <;> simp [isIdle]

/-- No good frame completes at `DMARxDescToGet` while the handler is clearing the status bits. -/
def NotLate (s : State) : Event → Prop
  | .complete status _ =>
      ¬ (s.pc.clearing = true ∧ s.dmaDesc = s.dmaRxDescToGet ∧ GoodFrame status)
  | _ => True

variable {c : Config} {s s' : State} {e : Event} {es : List Event} {status : U32} {bytes : List UInt8}

/-- The loop of the handler stays in it while a good frame waits. -/
theorem GoodFrame.ethGetRxPktSize_ne_zero (h : GoodFrame status) : ethGetRxPktSize status ≠ 0 :=
  (ethGetRxPktSize_ne_zero_iff status).mpr ⟨h.1, h.2.1, h.2.2.2.1, h.2.2.2.2⟩

/-- A completion sets both bits of the interrupt. -/
theorem pending_complete (hs : dmaComplete s status bytes = some s') : s'.pending = true := by
  obtain ⟨-, hs⟩ := Option.ite_none_right_eq_some.mp hs
  obtain rfl := Option.some.inj hs
  rw [State.pending, Bool.and_eq_true]
  constructor
  · exact bitSet_or _ (bitSet_or_self _ (by decide))
  · exact bitSet_or_self _ (by decide)

/-- What a completion does to the frame at `DMARxDescToGet`. -/
theorem waiting_complete (hs : dmaComplete s status bytes = some s') :
    s'.pc = s.pc ∧ (s'.Waiting → s.Waiting ∨ s.dmaDesc = s.dmaRxDescToGet ∧ GoodFrame status) := by
  obtain ⟨-, hs⟩ := Option.ite_none_right_eq_some.mp hs
  obtain rfl := Option.some.inj hs
  refine ⟨rfl, fun h => ?_⟩
  simp only [State.Waiting] at h ⊢
  by_cases hd : s.dmaDesc = s.dmaRxDescToGet
  · rw [hd, Function.update_self] at h
    exact Or.inr ⟨hd, h⟩
  · rw [Function.update_of_ne (Ne.symm hd)] at h
    exact Or.inl h

/-- **The wake-up invariant.** Outside the handler a waiting frame has its interrupt pending, and from
the last test of the handler to its return no good frame waits. -/
def WakeUp (s : State) : Prop :=
  match s.pc with
  | .idle => s.Waiting → s.pending = true
  | .clearR | .clearNis => ¬ s.Waiting
  | _ => True

/-- At the start nothing waits. -/
theorem wakeUp_init (desc : ℕ → DmaDesc) (mem : ByteMem) : WakeUp (init c desc mem) := by
  intro h
  have hown := h.1
  have hdesc := ethDMARxDescChainInit_apply c.rxBuff c.rxBuffCount desc c.rxBuffCount_pos
  simp only [init, hdesc, chainInitDesc] at hown
  exact absurd hown (by decide)

/-- A frame that completes in time is signalled. -/
theorem WakeUp.complete (h : WakeUp s) (hlate : NotLate s (.complete status bytes))
    (hs : dmaComplete s status bytes = some s') : WakeUp s' := by
  obtain ⟨hpc, hwaiting⟩ := waiting_complete hs
  rw [WakeUp, hpc]
  rw [WakeUp] at h
  rw [NotLate] at hlate
  split
  · exact fun _ => pending_complete hs
  · next hclear =>
      rw [hclear] at h hlate
      exact fun hw => (hwaiting hw).elim h fun hd => hlate ⟨rfl, hd⟩
  · next hclear =>
      rw [hclear] at h hlate
      exact fun hw => (hwaiting hw).elim h fun hd => hlate ⟨rfl, hd⟩
  · trivial

/-- The handler leaves its loop only when no good frame waits. -/
theorem WakeUp.handlerStep {free : ℕ} {old : ℕ → ℕ → UInt8} (h : WakeUp s)
    (hs : handlerStep c free old s = some s') : WakeUp s' := by
  rw [WakeUp] at h
  rw [Eth.handlerStep] at hs
  split at hs
  · cases hs
  · -- `test`: at the end of the loop the current descriptor holds no good frame
    split at hs
    · obtain rfl := Option.some.inj hs
      trivial
    · next hsize =>
        obtain rfl := Option.some.inj hs
        exact fun hw => hsize (GoodFrame.ethGetRxPktSize_ne_zero hw)
  · obtain rfl := Option.some.inj hs
    trivial
  · split at hs <;> obtain rfl := Option.some.inj hs <;> trivial
  · obtain rfl := Option.some.inj hs
    trivial
  · obtain rfl := Option.some.inj hs
    trivial
  · obtain rfl := Option.some.inj hs
    trivial
  · split at hs <;> obtain rfl := Option.some.inj hs <;> trivial
  · obtain rfl := Option.some.inj hs
    trivial
  · obtain rfl := Option.some.inj hs
    trivial
  · -- `clearR`: what waits now, came after the test, and would set the flag again
    next hpc =>
      rw [hpc] at h
      obtain rfl := Option.some.inj hs
      exact h
  · -- `clearNis`
    next hpc =>
      rw [hpc] at h
      obtain rfl := Option.some.inj hs
      exact fun hw => absurd hw h

/-- Every step keeps a frame that waits signalled. -/
theorem WakeUp.step (h : WakeUp s) (hlate : NotLate s e) (hs : step c s e = some s') : WakeUp s' := by
  cases e with
  | complete status bytes => exact h.complete hlate hs
  | rbus =>
      obtain rfl := Option.some.inj hs
      rw [WakeUp] at h ⊢
      cases hpc : s.pc <;> rw [hpc] at h <;> try exact h
      intro hw
      have hpend := h hw
      rw [State.pending, Bool.and_eq_true] at hpend ⊢
      exact ⟨bitSet_or _ hpend.1, bitSet_or _ hpend.2⟩
  | irq =>
      rw [Eth.step] at hs
      split at hs
      · obtain ⟨-, hs⟩ := Option.ite_none_right_eq_some.mp hs
        obtain rfl := Option.some.inj hs
        trivial
      · cases hs
  | cpu free old => exact h.handlerStep hs

/-- **No wake-up is lost outside the window.** In a run in which no good frame completes at
`DMARxDescToGet` between the last test of the handler and its return, a good frame that waits outside
the handler always has its interrupt pending. -/
theorem pending_of_waiting (desc : ℕ → DmaDesc) (mem : ByteMem)
    (hlate : RunMeets (step c) NotLate (init c desc mem) es)
    (hrun : run (step c) (init c desc mem) es = some s) (hidle : s.pc = .idle) (hw : s.Waiting) :
    s.pending = true := by
  have h : WakeUp s := run_invariant_of_meets (fun _ _ _ h hl hs => WakeUp.step h hl hs)
    (wakeUp_init desc mem) hlate hrun
  rw [WakeUp, hidle] at h
  exact h hw

/-- The window is exact: a good frame that waits while the handler makes its last write has lost its
interrupt when the handler returns. -/
theorem not_pending_of_late {free : ℕ} {old : ℕ → ℕ → UInt8} (hpc : s.pc = .clearNis)
    (hw : s.Waiting) (hs : step c s (.cpu free old) = some s') :
    s'.pc = .idle ∧ s'.Waiting ∧ s'.pending = false := by
  rw [Eth.step, handlerStep, hpc] at hs
  obtain rfl := Option.some.inj hs
  refine ⟨rfl, hw, ?_⟩
  rw [State.pending, Bool.and_eq_false_iff]
  right
  rw [bitSet_eq_false_iff, ethDMAClearITPendingBit, BitVec.and_assoc]
  simp [dmaItNis]

/-- Two buffers, and pool pbufs of 592 bytes. -/
def twoBuffers : Config where
  rxBuff := 0x20001000
  rxBuffCount := 2
  pbufPoolBufsize := 592
  rxBuffCount_pos := by decide
  sizeofEthHdr_le := by decide
  pbufPoolBufsize_lt := by decide

/-- A descriptor before the chain is initialised. -/
def blankDesc : DmaDesc := ⟨0, 0, 0, 0⟩

/-- The status word of a good 64-byte frame: `FL` is 64, and `FS` and `LS` are set. -/
def goodStatus : U32 := 0x00400300

/-- A good 64-byte frame completes. -/
def goodFrameCompletes : Event := .complete goodStatus (List.replicate 64 0)

/-- A step of the handler with an empty pbuf pool. -/
def cpuNoPool : Event := .cpu 0 fun _ _ => 0

/-- Before any frame, with all memory zero. -/
def fresh : State := init twoBuffers (fun _ => blankDesc) fun _ => 0

/-- What a schedule leaves: whether the handler has returned, a good frame waits, and the interrupt is
pending. -/
def outcome (es : List Event) : Option (Bool × Bool × Bool) :=
  (run (step twoBuffers) fresh es).map fun s => (s.pc.isIdle, decide s.Waiting, s.pending)

/-- The theorem at the first frame. -/
theorem pending_of_waiting_first : ∃ s, run (step twoBuffers) fresh [goodFrameCompletes] = some s ∧
    s.pc = .idle ∧ s.Waiting ∧ s.pending = true := by
  have hout : outcome [goodFrameCompletes] = some (true, true, true) := by decide
  obtain ⟨s, hrun, hs⟩ := Option.map_eq_some_iff.mp hout
  simp only [Prod.mk.injEq, Pc.isIdle_iff, decide_eq_true_eq] at hs
  obtain ⟨hidle, hw, -⟩ := hs
  have hlate : RunMeets (step twoBuffers) NotLate fresh [goodFrameCompletes] :=
    ⟨fun h => absurd h.1 (by decide), fun _ _ => trivial⟩
  exact ⟨s, hrun, hidle, hw, pending_of_waiting (fun _ => blankDesc) (fun _ => 0) hlate hrun hidle hw⟩

/-- The window is real: the second of two good frames completes after the last test of the handler and
waits without an interrupt when the handler returns. -/
theorem waiting_without_interrupt :
    ¬ ∀ (c : Config) (desc : ℕ → DmaDesc) (mem : ByteMem) (es : List Event) (s : State),
      run (step c) (init c desc mem) es = some s → s.pc = .idle → s.Waiting → s.pending = true := by
  intro h
  have hout : outcome ([goodFrameCompletes, .irq] ++ List.replicate 7 cpuNoPool ++
      [goodFrameCompletes] ++ List.replicate 2 cpuNoPool) = some (true, true, false) := by decide
  obtain ⟨s, hrun, hs⟩ := Option.map_eq_some_iff.mp hout
  simp only [Prod.mk.injEq, Pc.isIdle_iff, decide_eq_true_eq] at hs
  obtain ⟨hidle, hw, hpend⟩ := hs
  rw [h twoBuffers _ _ _ s hrun hidle hw] at hpend
  cases hpend

end BareMetal.Eth
