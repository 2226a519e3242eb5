import BareMetal.Eth.Receive

/-! # The invariant of the receive ring

Number the completions of the DMA in order. Completion `k` fills descriptor `k % n`, and the handler
takes and gives back descriptors in the same order, so three counters describe the ring: `released`
descriptors have been given back, `taken` have been taken off, and `arrived.length` have been completed.
The descriptors from `released` on hold the completions of these numbers, and the rest of the ring is
owned by the DMA (`RxRing`). This holds for every status word the DMA may report. -/

namespace BareMetal.Eth

/-- The frame that is taken and not yet given back. -/
def Pc.frame? : Pc → Option FrameType
  | .alloc f | .copy f _ _ _ | .release f _ => some f
  | _ => none

/-- The number of descriptors given back to the DMA. -/
def State.released (s : State) : ℕ := s.taken - if s.pc.frame?.isSome then 1 else 0

/-- The buffer of the descriptor in which completion `k` is. -/
def Config.bufferAddr (c : Config) (k : ℕ) : ℕ := c.rxBuff + k % c.rxBuffCount * ethRxBufSize

/-- What `ETH_Rx_Packet` returns for completion `k` with this status word. -/
def frameOf (c : Config) (k : ℕ) (status : U32) : FrameType :=
  if !bitSet status dmaRxDescEs && bitSet status dmaRxDescLs && bitSet status dmaRxDescFs then
    ⟨ethGetDMARxDescFrameLength status - 4, c.bufferAddr k, some (k % c.rxBuffCount)⟩
  else ⟨ethError, 0, some (k % c.rxBuffCount)⟩

/-- Descriptor `d` holds completion `k`. -/
def Holds (arrived : List (U32 × List UInt8)) (k : ℕ) (d : DmaDesc) : Prop :=
  ∃ x, arrived[k]? = some x ∧ d.status = x.1

/-- **The invariant of the receive ring.** -/
structure RxRing (c : Config) (s : State) : Prop where
  /-- Nothing changes the fields that `ETH_DMARxDescChainInit` has set. -/
  chain : ∀ i < c.rxBuffCount, s.desc i =
    { chainInitDesc c.rxBuff c.rxBuffCount i with status := (s.desc i).status }
  toGet : s.dmaRxDescToGet = s.taken % c.rxBuffCount
  dma : s.dmaDesc = s.arrived.length % c.rxBuffCount
  taken_le : s.taken ≤ s.arrived.length
  arrived_le : s.arrived.length ≤ s.released + c.rxBuffCount
  arrived_own : ∀ x ∈ s.arrived, bitSet x.1 dmaRxDescOwn = false ∧ x.2.length ≤ ethRxBufSize
  completed : Window s.desc c.rxBuffCount s.released s.arrived.length (Holds s.arrived)
  owned : Window s.desc c.rxBuffCount s.arrived.length (s.released + c.rxBuffCount) fun _ d =>
    bitSet d.status dmaRxDescOwn = true
  buffers : ∀ k x, s.released ≤ k → s.arrived[k]? = some x →
    readBytes s.mem (c.bufferAddr k) x.2.length = x.2
  frame : ∀ f, s.pc.frame? = some f →
    0 < s.taken ∧ ∃ x, s.arrived[s.taken - 1]? = some x ∧ f = frameOf c (s.taken - 1) x.1
  ready : s.pc = .rxPacket → ethGetRxPktSize (s.desc s.dmaRxDescToGet).status ≠ 0

variable {c : Config} {s s' : State} {e : Event} {es : List Event} {status : U32} {bytes : List UInt8}

/-- The handler holds no frame. -/
theorem State.released_of_none (h : s.pc.frame? = none) : s.released = s.taken := by
  rw [released, h]
  rfl

/-- The handler holds the last frame that it took. -/
theorem State.released_of_some {f : FrameType} (h : s.pc.frame? = some f) :
    s.released = s.taken - 1 := by
  rw [released, h]
  rfl

/-- What was given back was taken before. -/
theorem State.released_le_taken (s : State) : s.released ≤ s.taken := Nat.sub_le _ _

/-- A frame that arrived has its number. -/
theorem RxRing.lt_of_getElem? {k : ℕ} {x : U32 × List UInt8} (h : s.arrived[k]? = some x) :
    k < s.arrived.length :=
  (List.getElem?_eq_some_iff.mp h).1

/-- The bytes of a completed descriptor are within the programmed size of its buffer. -/
theorem chainInitDesc_bufferSize (rxBuff n i : ℕ) :
    ((chainInitDesc rxBuff n i).controlBufferSize &&& dmaRxDescRbs1).toNat = ethRxBufSize := by
  show ((dmaRxDescRch ||| BitVec.ofNat 32 ethRxBufSize) &&& dmaRxDescRbs1).toNat = ethRxBufSize
  decide

/-- The status word of a descriptor that is given to the DMA. -/
theorem bitSet_own : bitSet dmaRxDescOwn dmaRxDescOwn = true := by
  decide

/-- The slot of a frame is one of the ring. -/
theorem RxRing.slot_lt (c : Config) (k : ℕ) : k % c.rxBuffCount < c.rxBuffCount :=
  Nat.mod_lt k c.rxBuffCount_pos

/-- A descriptor keeps its buffer. -/
theorem RxRing.buffer1Addr (h : RxRing c s) (k : ℕ) :
    (s.desc (k % c.rxBuffCount)).buffer1Addr = c.bufferAddr k := by
  rw [h.chain _ (RxRing.slot_lt c k)]
  rfl

/-- A descriptor keeps its place in the chain. -/
theorem RxRing.nextDesc (h : RxRing c s) (k : ℕ) :
    (s.desc (k % c.rxBuffCount)).buffer2NextDescAddr = (k + 1) % c.rxBuffCount := by
  rw [h.chain _ (RxRing.slot_lt c k)]
  exact next_slot c.rxBuffCount_pos k

/-- A change of the status word of one descriptor keeps the chain. -/
theorem RxRing.chain_update (h : RxRing c s) (k : ℕ) (w : U32) (i : ℕ) (hi : i < c.rxBuffCount) :
    Function.update s.desc k { s.desc k with status := w } i =
      { chainInitDesc c.rxBuff c.rxBuffCount i with
        status := (Function.update s.desc k { s.desc k with status := w } i).status } := by
  by_cases hik : i = k
  · subst hik
    rw [Function.update_self, h.chain i hi]
  · rw [Function.update_of_ne hik]
    exact h.chain i hi

/-- A descriptor without `OWN` at the position `k` of the ring holds a completion. -/
theorem RxRing.lt_arrived (h : RxRing c s) {k : ℕ} (hk : k < s.released + c.rxBuffCount)
    (hown : bitSet (s.desc (k % c.rxBuffCount)).status dmaRxDescOwn = false) :
    k < s.arrived.length := by
  by_contra hge
  rw [h.owned k (Nat.not_lt.mp hge) hk] at hown
  cases hown

/-- A descriptor with `OWN` at the position of the DMA is not one the handler still has to give back. -/
theorem RxRing.room (h : RxRing c s) (hown : bitSet (s.desc s.dmaDesc).status dmaRxDescOwn = true) :
    s.arrived.length < s.released + c.rxBuffCount := by
  by_contra hge
  have heq : s.arrived.length = s.released + c.rxBuffCount := le_antisymm h.arrived_le (by omega)
  have hpos := c.rxBuffCount_pos
  obtain ⟨x, hx, hstatus⟩ := h.completed s.released le_rfl (by omega)
  rw [h.dma, heq, Nat.add_mod_right, hstatus, (h.arrived_own x (List.mem_of_getElem? hx)).1] at hown
  cases hown

/-- Steps that leave the ring alone keep the invariant. -/
theorem RxRing.setPc {pc : Pc} (dmasr : U32) (log : List Action) (h : RxRing c s)
    (hframe : pc.frame? = s.pc.frame?)
    (hready : pc = .rxPacket → ethGetRxPktSize (s.desc s.dmaRxDescToGet).status ≠ 0) :
    RxRing c { s with pc := pc, dmasr := dmasr, log := log } := by
  have hreleased : State.released { s with pc := pc, dmasr := dmasr, log := log } = s.released := by
    simp only [State.released, hframe]
  constructor
  · exact h.chain
  · exact h.toGet
  · exact h.dma
  · exact h.taken_le
  · rw [hreleased]
    exact h.arrived_le
  · exact h.arrived_own
  · rw [hreleased]
    exact h.completed
  · rw [hreleased]
    exact h.owned
  · rw [hreleased]
    exact h.buffers
  · intro f hf
    exact h.frame f (hframe ▸ hf)
  · exact hready

/-- After `low_level_init` every descriptor is the DMA's. -/
theorem rxRing_init (c : Config) (desc : ℕ → DmaDesc) (mem : ByteMem) : RxRing c (init c desc mem) := by
  have hinit : ∀ i < c.rxBuffCount, (init c desc mem).desc i = chainInitDesc c.rxBuff c.rxBuffCount i :=
    fun i hi => ethDMARxDescChainInit_apply c.rxBuff c.rxBuffCount desc hi
  constructor
  · intro i hi
    rw [hinit i hi]
  · exact (Nat.zero_mod _).symm
  · exact (Nat.zero_mod _).symm
  · exact le_rfl
  · exact Nat.zero_le _
  · exact fun x hx => absurd hx List.not_mem_nil
  · exact Window.empty le_rfl
  · intro k _ _
    rw [hinit _ (RxRing.slot_lt c k)]
    exact bitSet_own
  · intro k x _ hx
    cases hx
  · intro f hf
    cases hf
  · intro hpc
    cases hpc

/-- Two buffers of different slots lie apart. -/
theorem Config.bufferAddr_apart (c : Config) {j k : ℕ} (h : j % c.rxBuffCount ≠ k % c.rxBuffCount) :
    c.bufferAddr j + ethRxBufSize ≤ c.bufferAddr k ∨
      c.bufferAddr k + ethRxBufSize ≤ c.bufferAddr j := by
  rw [bufferAddr, bufferAddr, ethRxBufSize]
  omega

/-- A completion appends to the completed part of the ring. -/
theorem RxRing.complete (h : RxRing c s) (hs : dmaComplete s status bytes = some s') : RxRing c s' := by
  obtain ⟨hcond, hs⟩ := Option.ite_none_right_eq_some.mp hs
  obtain rfl := Option.some.inj hs
  simp only [Bool.and_eq_true, Bool.not_eq_true', decide_eq_true_eq] at hcond
  obtain ⟨⟨hown, hstatus⟩, hlen⟩ := hcond
  have hroom := h.room hown
  have hsize : bytes.length ≤ ethRxBufSize := by
    rw [h.dma, h.chain _ (RxRing.slot_lt c _)] at hlen
    exact hlen.trans_eq (chainInitDesc_bufferSize c.rxBuff c.rxBuffCount 0)
  have hlength : (s.arrived ++ [(status, bytes)]).length = s.arrived.length + 1 := by
    rw [List.length_append, List.length_singleton]
  constructor
  · exact h.chain_update s.dmaDesc status
  · exact h.toGet
  · simp only [hlength, h.dma]
    exact h.nextDesc s.arrived.length
  · simp only [hlength]
    exact h.taken_le.trans (Nat.le_succ _)
  · simp only [hlength]
    exact hroom
  · intro x hx
    rcases List.mem_append.mp hx with hx | hx
    · exact h.arrived_own x hx
    · obtain rfl := List.mem_singleton.mp hx
      exact ⟨hstatus, hsize⟩
  · simp only [hlength, h.dma]
    refine Window.push (h.completed.mono le_rfl le_rfl ?_) ?_ hroom
    · rintro k v - - ⟨x, hx, hv⟩
      exact ⟨x, by rw [List.getElem?_append_left (lt_of_getElem? hx), hx], hv⟩
    · exact ⟨(status, bytes), List.getElem?_concat_length, rfl⟩
  · simp only [hlength, h.dma]
    refine h.owned.pop ?_
    have := s.released_le_taken
    have := h.taken_le
    show s.released + c.rxBuffCount ≤ _
    omega
  · intro k x hk hx
    have hk' : k < s.arrived.length + 1 := hlength ▸ (List.getElem?_eq_some_iff.mp hx).1
    simp only [h.dma, h.buffer1Addr]
    by_cases hlast : k = s.arrived.length
    · subst hlast
      obtain rfl := Option.some.inj ((List.getElem?_concat_length).symm.trans hx)
      exact (readBytes_writeBytes s.mem _ le_rfl).trans (List.take_length)
    · rw [List.getElem?_append_left (by omega)] at hx
      have hxlen := (h.arrived_own x (List.mem_of_getElem? hx)).2
      have hapart := c.bufferAddr_apart (slot_ne (show k < s.arrived.length by omega)
        (hroom.trans_le (Nat.add_le_add_right hk _)))
      rw [← readBytes_congr ((writeBytes_agreeOff s.mem (c.bufferAddr s.arrived.length) bytes).agreeOn
        (by omega))]
      exact h.buffers k x hk hx
  · intro f hf
    obtain ⟨hpos, x, hx, hfx⟩ := h.frame f hf
    exact ⟨hpos, x, by rw [List.getElem?_append_left (lt_of_getElem? hx), hx], hfx⟩
  · intro hpc
    have hne := h.ready hpc
    simp only [ne_eq]
    rw [Function.update_of_ne]
    · exact hne
    · -- the descriptor at `DMARxDescToGet` has no `OWN`, so it is not the one the DMA completes
      rintro heq
      rw [ethGetRxPktSize_ne_zero_iff, heq, hown] at hne
      cases hne.1

/-- What the taken descriptor holds, when the test of the loop has succeeded. -/
theorem RxRing.ready_getElem? (h : RxRing c s) (hpc : s.pc = .rxPacket) :
    ∃ x, s.arrived[s.taken]? = some x ∧ (s.desc s.dmaRxDescToGet).status = x.1 := by
  have hready := (ethGetRxPktSize_ne_zero_iff _).mp (h.ready hpc)
  have hreleased : s.released = s.taken := State.released_of_none (by rw [hpc]; rfl)
  have hpos := c.rxBuffCount_pos
  rw [h.toGet] at hready ⊢
  have hlt := h.lt_arrived (by omega) hready.1
  exact h.completed s.taken hreleased.le hlt

/-- `ETH_Rx_Packet` takes the next completion. -/
theorem RxRing.ethRxPacket_eq (h : RxRing c s) (hpc : s.pc = .rxPacket) {x : U32 × List UInt8}
    (hx : s.arrived[s.taken]? = some x) :
    ethRxPacket s = (frameOf c s.taken x.1,
      { s with dmaRxDescToGet := (s.taken + 1) % c.rxBuffCount
               taken := s.taken + 1
               log := s.log ++ [.take (s.taken % c.rxBuffCount)] }) := by
  obtain ⟨y, hy, hstatus⟩ := h.ready_getElem? hpc
  obtain rfl := Option.some.inj (hx.symm.trans hy)
  have hown := (h.arrived_own x (List.mem_of_getElem? hx)).1
  rw [h.toGet] at hstatus
  simp only [ethRxPacket, frameOf, h.toGet, hstatus, hown, Bool.false_eq_true, if_false,
    h.buffer1Addr, h.nextDesc]

/-- The handler takes a frame. -/
theorem RxRing.take (h : RxRing c s) (hpc : s.pc = .rxPacket) :
    RxRing c { (ethRxPacket s).2 with pc := .alloc (ethRxPacket s).1 } := by
  obtain ⟨x, hx, -⟩ := h.ready_getElem? hpc
  rw [h.ethRxPacket_eq hpc hx]
  have hreleased : s.released = s.taken := State.released_of_none (by rw [hpc]; rfl)
  have hlt := RxRing.lt_of_getElem? hx
  constructor
  · exact h.chain
  · rfl
  · exact h.dma
  · exact hlt
  · exact h.arrived_le.trans (by rw [hreleased]; exact le_rfl)
  · exact h.arrived_own
  · exact (hreleased ▸ h.completed :)
  · exact (hreleased ▸ h.owned :)
  · exact (hreleased ▸ h.buffers :)
  · intro f hf
    obtain rfl := Option.some.inj hf
    exact ⟨Nat.succ_pos _, x, hx, rfl⟩
  · intro hpc'
    cases hpc'

/-- Giving a descriptor back returns it to the DMA. -/
theorem RxRing.release {f : FrameType} {p : Option (List Pbuf)} (h : RxRing c s)
    (hpc : s.pc = .release f p) :
    RxRing c { releaseDesc s f.descriptor with pc := .rbusTest p } := by
  have hframe : s.pc.frame? = some f := by rw [hpc]; rfl
  have hreleased := State.released_of_some hframe
  obtain ⟨hpos, x, hx, hfx⟩ := h.frame f hframe
  have hd : f.descriptor = some (s.released % c.rxBuffCount) := by
    rw [hfx, frameOf, hreleased]
    split <;> rfl
  have hlt := RxRing.lt_of_getElem? hx
  have htaken : s.taken = s.released + 1 := by omega
  rw [hd, releaseDesc]
  constructor
  · exact h.chain_update _ _
  · exact h.toGet
  · exact h.dma
  · exact h.taken_le
  · -- one slot is free again, and the oldest frame leaves the window of the complete ones
    refine h.arrived_le.trans (Nat.add_le_add_right ?_ _)
    exact s.released_le_taken
  · exact h.arrived_own
  · show Window _ _ s.taken _ _
    rw [htaken]
    exact h.completed.pop h.arrived_le
  · show Window _ _ _ (s.taken + _) _
    rw [htaken, Nat.add_right_comm, ← Nat.add_mod_right s.released]
    refine h.owned.push bitSet_own ?_
    omega
  · intro k y hk hy
    exact h.buffers k y (s.released_le_taken.trans hk) hy
  · intro g hg
    cases hg
  · intro hpc'
    cases hpc'

/-- Every step of the handler keeps the ring. -/
theorem RxRing.handlerStep {free : ℕ} {old : ℕ → ℕ → UInt8} (h : RxRing c s)
    (hs : handlerStep c free old s = some s') : RxRing c s' := by
  rw [Eth.handlerStep] at hs
  split at hs
  · -- `idle`: the handler does not run
    cases hs
  · -- `test`: the current descriptor holds a frame, or the loop ends
    next hpc =>
      split at hs
      · next hsize =>
          obtain rfl := Option.some.inj hs
          exact h.setPc _ _ (by rw [hpc]; rfl) fun _ => hsize
      · obtain rfl := Option.some.inj hs
        exact h.setPc _ _ (by rw [hpc]; rfl) fun hpc' => by cases hpc'
  · -- `rxPacket`
    next hpc =>
      obtain rfl := Option.some.inj hs
      exact h.take hpc
  · -- `alloc`, `copy` and its end write no descriptor
    next hpc =>
      split at hs <;> obtain rfl := Option.some.inj hs <;>
        exact h.setPc _ _ (by rw [hpc]; rfl) fun hpc' => by cases hpc'
  · next hpc =>
      obtain rfl := Option.some.inj hs
      exact h.setPc _ _ (by rw [hpc]; rfl) fun hpc' => by cases hpc'
  · next hpc =>
      obtain rfl := Option.some.inj hs
      exact h.setPc _ _ (by rw [hpc]; rfl) fun hpc' => by cases hpc'
  · -- `release`
    next hpc =>
      obtain rfl := Option.some.inj hs
      exact h.release hpc
  · -- from `rbusTest` on, no descriptor is written
    next hpc =>
      split at hs <;> obtain rfl := Option.some.inj hs <;>
        exact h.setPc _ _ (by rw [hpc]; rfl) fun hpc' => by cases hpc'
  · next hpc =>
      obtain rfl := Option.some.inj hs
      exact h.setPc _ _ (by rw [hpc]; rfl) fun hpc' => by cases hpc'
  · next p hpc =>
      obtain rfl := Option.some.inj hs
      rw [ethernetifInput_eq]
      exact h.setPc _ _ (by rw [hpc]; rfl) fun hpc' => by cases hpc'
  · next hpc =>
      obtain rfl := Option.some.inj hs
      exact h.setPc _ _ (by rw [hpc]; rfl) fun hpc' => by cases hpc'
  · next hpc =>
      obtain rfl := Option.some.inj hs
      exact h.setPc _ _ (by rw [hpc]; rfl) fun hpc' => by cases hpc'

/-- **Every step keeps the ring.** -/
theorem RxRing.step (h : RxRing c s) (hs : step c s e = some s') : RxRing c s' := by
  cases e with
  | complete status bytes => exact h.complete hs
  | rbus =>
      obtain rfl := Option.some.inj hs
      exact h.setPc _ _ rfl h.ready
  | irq =>
      rw [Eth.step] at hs
      split at hs
      · next hpc =>
          obtain ⟨-, hs⟩ := Option.ite_none_right_eq_some.mp hs
          obtain rfl := Option.some.inj hs
          exact h.setPc _ _ (by rw [hpc]; rfl) fun hpc' => by cases hpc'
      · cases hs
  | cpu free old => exact h.handlerStep hs

/-- The ring is sound after every run. -/
theorem rxRing_of_run {desc : ℕ → DmaDesc} {mem : ByteMem}
    (hrun : run (step c) (init c desc mem) es = some s) : RxRing c s :=
  run_invariant (fun _ _ _ h hs => RxRing.step h hs) (rxRing_init c desc mem) hrun

end BareMetal.Eth
