import BareMetal.Eth.Delivery

/-! # One call of `ethernetif_input`

`low_level_input` is meant to be called with a complete frame at `DMARxDescToGet`, but it tests nothing
itself: the answer of `ETH_Rx_Packet` for a descriptor that is still with the DMA, or that carries an
error, is a frame of length 0, and `pbuf_alloc` of length 0 succeeds. Here is the call as one function of
the state (`lowLevelInput`), the proof that it is what the handler does step by step
(`reaches_ethernetifInputCall`), and for which status words it is safe and honest (`safeAndHonest_iff`). -/

namespace BareMetal.Eth

/-- The log goes on with these actions. -/
def State.logged (s : State) (actions : List Action) : State := { s with log := s.log ++ actions }

/-- The copy loop of `low_level_input`. -/
def copyLoop (frame : FrameType) (done : List Pbuf) : List Pbuf → ℕ → State → List Pbuf × State
  | [], _, s => (done, s)
  | q :: todo, i, s =>
      let q' := copyInto s.mem (frame.buffer + i) q
      copyLoop frame (done ++ [q']) todo (i + q.len) (s.logged [.copy q'.bytes])

/-- `RBUS` is cleared and reception resumed. -/
def clearRbus (s : State) : State :=
  if bitSet s.dmasr dmasrRbus then { s with dmasr := ethDMAClearITPendingBit s.dmasr dmasrRbus } else s

/-- `low_level_input`. -/
def lowLevelInput (c : Config) (free : ℕ) (old : ℕ → ℕ → UInt8) (s : State) :
    Option (List Pbuf) × State :=
  let (frame, s) := ethRxPacket s
  -- `len` is a `u16_t`
  let (p, s) := match pbufAlloc c.pbufPoolBufsize free old (frame.length.toNat % 2 ^ 16) with
    | none => (none, s.logged [.allocFailed])
    | some p =>
        let (p, s) := copyLoop frame [] p 0 s
        (some p, s)
  (p, clearRbus (releaseDesc s frame.descriptor))

/-- `ethernetif_input`. -/
def ethernetifInputCall (c : Config) (free : ℕ) (old : ℕ → ℕ → UInt8) (s : State) : State :=
  let (p, s) := lowLevelInput c free old s
  ethernetifInput s p

/-- **What is expected of a call.** -/
structure SafeAndHonest (c : Config) (free : ℕ) (old : ℕ → ℕ → UInt8) (s : State) : Prop where
  /-- Nothing is written through a null descriptor. -/
  null : (lowLevelInput c free old s).2.log.count .nullWrite = s.log.count .nullWrite
  /-- While the descriptor is with the DMA the ring does not change. -/
  owned : bitSet (s.desc s.dmaRxDescToGet).status dmaRxDescOwn = true →
    (lowLevelInput c free old s).2.desc = s.desc ∧
      (lowLevelInput c free old s).2.dmaRxDescToGet = s.dmaRxDescToGet
  /-- A frame with an error, or one that is not complete in its descriptor, is no packet. -/
  rejected : bitSet (s.desc s.dmaRxDescToGet).status dmaRxDescEs = true ∨
    bitSet (s.desc s.dmaRxDescToGet).status dmaRxDescLs = false ∨
    bitSet (s.desc s.dmaRxDescToGet).status dmaRxDescFs = false → (lowLevelInput c free old s).1 = none
  /-- A packet is the frame without its last four bytes, and a frame of less than four bytes is none. -/
  length : ∀ p, (lowLevelInput c free old s).1 = some p →
    4 ≤ (ethGetDMARxDescFrameLength (s.desc s.dmaRxDescToGet).status).toNat ∧
      chainBytes p = readBytes s.mem (s.desc s.dmaRxDescToGet).buffer1Addr
        ((ethGetDMARxDescFrameLength (s.desc s.dmaRxDescToGet).status).toNat - 4)
  /-- The EtherType is read from a packet of at least 14 bytes. -/
  etherType : ∀ p, (lowLevelInput c free old s).1 = some p → 14 ≤ (chainBytes p).length

/-- The status word reports a complete frame without an error in a single descriptor. -/
def Complete (status : U32) : Prop :=
  bitSet status dmaRxDescEs = false ∧ bitSet status dmaRxDescLs = true ∧
    bitSet status dmaRxDescFs = true

instance (status : U32) : Decidable (Complete status) := inferInstanceAs (Decidable (_ ∧ _))

/-- The status words for which the call is safe and honest with `free` elements in the pool: a complete
frame of at least 18 bytes, or any frame that the pool has no room for. A frame of less than four bytes
asks for the room of its length minus 4 modulo `2 ^ 16`. -/
def Handled (c : Config) (free : ℕ) (status : U32) : Prop :=
  bitSet status dmaRxDescOwn = false ∧
    (Complete status ∧ 18 ≤ (ethGetDMARxDescFrameLength status).toNat ∨ free = 0 ∨
      Complete status ∧ (ethGetDMARxDescFrameLength status).toNat < 4 ∧
        free * c.pbufPoolBufsize < (ethGetDMARxDescFrameLength status).toNat + 65532)

instance (c : Config) (free : ℕ) (status : U32) : Decidable (Handled c free status) :=
  inferInstanceAs (Decidable (_ ∧ _))

variable {c : Config} {s s' : State} {free : ℕ} {old : ℕ → ℕ → UInt8} {frame : FrameType}
  {done todo p : List Pbuf} {i : ℕ} {status : U32}

/-! ## The call is a run of the handler -/

/-- A chain after the copy loop has filled it from byte `i` of the buffer on. -/
def copyChain (m : ByteMem) (buffer : ℕ) : ℕ → List Pbuf → List Pbuf
  | _, [] => []
  | i, q :: todo => copyInto m (buffer + i) q :: copyChain m buffer (i + q.len) todo

/-- The copy loop, as what it makes of the chain and of the log. -/
theorem copyLoop_eq (frame : FrameType) (done todo : List Pbuf) (i : ℕ) (s : State) :
    copyLoop frame done todo i s = (done ++ copyChain s.mem frame.buffer i todo,
      s.logged (copies (copyChain s.mem frame.buffer i todo))) := by
  induction todo generalizing done i s with
  | nil =>
      simp only [copyLoop, copyChain, State.logged, copies, List.map_nil, List.append_nil]
  | cons q todo ih =>
      rw [copyLoop, ih]
      simp only [copyChain, State.logged, copies, List.map_cons, List.append_assoc,
        List.singleton_append]

/-- The bytes of the chain are the front of the buffer. -/
theorem chainBytes_copyChain (m : ByteMem) (buffer i : ℕ) (p : List Pbuf) :
    chainBytes (copyChain m buffer i p) = readBytes m (buffer + i) (chainLen p) := by
  induction p generalizing i with
  | nil => rfl
  | cons q p ih =>
      rw [copyChain, chainBytes, List.flatMap_cons, bytes_copyInto, chainLen_cons, ← readBytes_add,
        Nat.add_assoc]
      exact congrArg _ (ih (i + q.len))

/-- Clearing the flag RBUS leaves the descriptors alone. -/
@[simp] theorem clearRbus_desc (s : State) : (clearRbus s).desc = s.desc := by
  rw [clearRbus]
  split <;> rfl

/-- And the log. -/
@[simp] theorem clearRbus_log (s : State) : (clearRbus s).log = s.log := by
  rw [clearRbus]
  split <;> rfl

/-- And the current descriptor. -/
@[simp] theorem clearRbus_dmaRxDescToGet (s : State) :
    (clearRbus s).dmaRxDescToGet = s.dmaRxDescToGet := by
  rw [clearRbus]
  split <;> rfl

/-- `low_level_input` when `pbuf_alloc` fails. -/
theorem lowLevelInput_of_none
    (h : pbufAlloc c.pbufPoolBufsize free old ((ethRxPacket s).1.length.toNat % 2 ^ 16) = none) :
    lowLevelInput c free old s = (none, clearRbus (releaseDesc
      ((ethRxPacket s).2.logged [.allocFailed]) (ethRxPacket s).1.descriptor)) := by
  rw [lowLevelInput]
  simp only [h]

/-- `low_level_input` when `pbuf_alloc` succeeds. -/
theorem lowLevelInput_of_some
    (h : pbufAlloc c.pbufPoolBufsize free old ((ethRxPacket s).1.length.toNat % 2 ^ 16) = some p) :
    lowLevelInput c free old s =
      (some (copyChain (ethRxPacket s).2.mem (ethRxPacket s).1.buffer 0 p), clearRbus (releaseDesc
        ((ethRxPacket s).2.logged (copies (copyChain (ethRxPacket s).2.mem (ethRxPacket s).1.buffer 0 p)))
        (ethRxPacket s).1.descriptor)) := by
  rw [lowLevelInput]
  simp only [h, copyLoop_eq, List.nil_append]

/-- The handler gets from `s` to `t` while the DMA does nothing. -/
def Reaches (c : Config) (free : ℕ) (old : ℕ → ℕ → UInt8) (s t : State) : Prop :=
  ∃ n, run (step c) s (List.replicate n (.cpu free old)) = some t

/-- No step. -/
theorem Reaches.refl (s : State) : Reaches c free old s s := ⟨0, rfl⟩

/-- One step and then others. -/
theorem Reaches.head {t u : State} (hs : handlerStep c free old s = some t)
    (h : Reaches c free old t u) : Reaches c free old s u := by
  obtain ⟨n, hn⟩ := h
  refine ⟨n + 1, ?_⟩
  rw [List.replicate_succ]
  exact run_cons_eq_some.mpr ⟨t, hs, hn⟩

/-- Some steps and then others. -/
theorem Reaches.trans {t u : State} (h : Reaches c free old s t) (h' : Reaches c free old t u) :
    Reaches c free old s u := by
  obtain ⟨n, hn⟩ := h
  obtain ⟨k, hk⟩ := h'
  refine ⟨n + k, ?_⟩
  rw [List.replicate_add, run_append, hn]
  exact hk

/-- The steps of the copy loop. -/
theorem reaches_copy (todo done : List Pbuf) (i : ℕ) (s : State) :
    Reaches c free old { s with pc := .copy frame done todo i }
      { s.logged (copies (copyChain s.mem frame.buffer i todo)) with
        pc := .release frame (some (done ++ copyChain s.mem frame.buffer i todo)) } := by
  induction todo generalizing done i s with
  | nil =>
      refine .head rfl ?_
      simp only [copyChain, State.logged, copies, List.map_nil, List.append_nil]
      exact .refl _
  | cons q todo ih =>
      refine .head rfl ?_
      have hrest := ih (done ++ [copyInto s.mem (frame.buffer + i) q]) (i + q.len)
        (s.logged [.copy (copyInto s.mem (frame.buffer + i) q).bytes])
      simp only [State.logged, copies, copyChain, List.map_cons, List.append_assoc,
        List.singleton_append] at hrest ⊢
      exact hrest

/-- `ethernetif_input` does the same wherever the handler stands. -/
theorem ethernetifInput_pc (s : State) (q : Option (List Pbuf)) (pc pc' : Pc) :
    { ethernetifInput { s with pc := pc } q with pc := pc' } =
      { ethernetifInput s q with pc := pc' } := by
  cases q with
  | none => rfl
  | some p =>
      rw [ethernetifInput, ethernetifInput]
      split <;> rfl

/-- Giving a descriptor back does not depend on where the handler is. -/
theorem releaseDesc_pc (s : State) (d : Option ℕ) (pc : Pc) :
    releaseDesc { s with pc := pc } d = { releaseDesc s d with pc := pc } := by
  cases d <;> rfl

/-- The steps from giving the descriptor back to the end of `ethernetif_input`. -/
theorem reaches_release (s : State) (frame : FrameType) (q : Option (List Pbuf)) :
    Reaches c free old { s with pc := .release frame q }
      { ethernetifInput (clearRbus (releaseDesc s frame.descriptor)) q with pc := .test } := by
  have hrelease : handlerStep c free old { s with pc := .release frame q } =
      some { releaseDesc s frame.descriptor with pc := .rbusTest q } := by
    simp only [handlerStep, releaseDesc_pc]
  refine .head hrelease ?_
  generalize releaseDesc s frame.descriptor = t
  rw [clearRbus]
  by_cases hrbus : bitSet t.dmasr dmasrRbus = true
  · have htest : handlerStep c free old { t with pc := .rbusTest q } =
        some { t with pc := .rbusClear q } :=
      if_pos hrbus
    rw [if_pos hrbus, ← ethernetifInput_pc _ q (.input q)]
    exact .head htest (.head rfl (.head rfl (.refl _)))
  · have htest : handlerStep c free old { t with pc := .rbusTest q } =
        some { t with pc := .input q } :=
      if_neg hrbus
    rw [if_neg hrbus, ← ethernetifInput_pc _ q (.input q)]
    exact .head htest (.head rfl (.refl _))

/-- Nor does `ETH_RxPacket`. -/
theorem ethRxPacket_pc (s : State) (pc : Pc) :
    ethRxPacket { s with pc := pc } = ((ethRxPacket s).1, { (ethRxPacket s).2 with pc := pc }) := by
  simp only [ethRxPacket]
  split
  · split <;> rfl
  · rfl

/-- **The call is what the handler does**: its steps from `ETH_Rx_Packet` to the next test of the loop,
when the DMA does nothing in between. -/
theorem reaches_ethernetifInputCall (c : Config) (free : ℕ) (old : ℕ → ℕ → UInt8) (s : State) :
    Reaches c free old { s with pc := .rxPacket }
      { ethernetifInputCall c free old s with pc := .test } := by
  have htake : handlerStep c free old { s with pc := .rxPacket } =
      some { (ethRxPacket s).2 with pc := .alloc (ethRxPacket s).1 } := by
    simp only [handlerStep, ethRxPacket_pc]
  refine .head htake ?_
  rw [ethernetifInputCall]
  rcases halloc : pbufAlloc c.pbufPoolBufsize free old ((ethRxPacket s).1.length.toNat % 2 ^ 16) with _ | p
  · rw [lowLevelInput_of_none halloc]
    refine .head ?_ (reaches_release ((ethRxPacket s).2.logged [.allocFailed]) _ none)
    simp only [handlerStep, halloc]
    rfl
  · rw [lowLevelInput_of_some halloc]
    refine .head ?_ ((reaches_copy p [] 0 (ethRxPacket s).2).trans (reaches_release _ _ _))
    simp only [handlerStep, halloc]

/-! ## For which status words the call is safe and honest -/

/-- The pool runs out of elements behind the first one. -/
theorem pbufAllocTail_eq_none_iff {bufsize remLen : ℕ} :
    pbufAllocTail bufsize free old remLen = none ↔ free * bufsize < remLen := by
  induction free generalizing old remLen with
  | zero =>
      rw [pbufAllocTail, Nat.zero_mul]
      split <;> simp_all [Nat.pos_iff_ne_zero]
  | succ free ih =>
      rw [pbufAllocTail, Nat.succ_mul]
      split
      · simp_all
      · rw [Option.map_eq_none_iff, ih]
        omega

/-- `pbuf_alloc` fails exactly when the pool has no element or not enough of them. -/
theorem pbufAlloc_eq_none_iff {bufsize length : ℕ} :
    pbufAlloc bufsize free old length = none ↔ free = 0 ∨ free * bufsize < length := by
  cases free with
  | zero => simp [pbufAlloc]
  | succ free =>
      rw [pbufAlloc, Option.map_eq_none_iff, pbufAllocTail_eq_none_iff, Nat.succ_mul]
      omega

/-- The length of a chain from `pbuf_alloc`. -/
theorem chainLen_pbufAlloc {bufsize length : ℕ} (h : pbufAlloc bufsize free old length = some p) :
    chainLen p = length := by
  cases free with
  | zero => cases h
  | succ free =>
      obtain ⟨r, hr, rfl⟩ := Option.map_eq_some_iff.mp h
      rw [chainLen_cons, chainLen_pbufAllocTail hr]
      exact Nat.add_sub_cancel' (min_le_left length bufsize)

/-- The frame length has 14 bits. -/
theorem ethGetDMARxDescFrameLength_lt (status : U32) :
    (ethGetDMARxDescFrameLength status).toNat < 2 ^ 14 := by
  have hmask : (status &&& dmaRxDescFl).toNat ≤ dmaRxDescFl.toNat := by
    rw [BitVec.toNat_and]
    exact Nat.and_le_right
  have hfl : dmaRxDescFl.toNat = 0x3FFF0000 := by decide
  rw [ethGetDMARxDescFrameLength, BitVec.toNat_ushiftRight, Nat.shiftRight_eq_div_pow]
  omega

/-- The length that `low_level_input` asks for: the subtraction wraps for frames of less than four bytes. -/
def askedLength (fl : ℕ) : ℕ := if fl < 4 then fl + 65532 else fl - 4

/-- The length that `pbuf_alloc` is asked for, in 16 bits. -/
theorem askedLength_eq (status : U32) : (ethGetDMARxDescFrameLength status - 4).toNat % 2 ^ 16 =
    askedLength (ethGetDMARxDescFrameLength status).toNat := by
  have hlt := ethGetDMARxDescFrameLength_lt status
  have hfour : (4 : U32).toNat = 4 := rfl
  rw [BitVec.toNat_sub, hfour, askedLength]
  split <;> omega

/-- `ETH_Rx_Packet` finds the descriptor with the DMA. -/
theorem ethRxPacket_of_own (hown : bitSet (s.desc s.dmaRxDescToGet).status dmaRxDescOwn = true) :
    ∃ dmasr, ethRxPacket s = (⟨ethError, 0, none⟩, { s with dmasr := dmasr }) := by
  simp only [ethRxPacket, hown, if_true]
  split
  · exact ⟨_, rfl⟩
  · exact ⟨s.dmasr, rfl⟩

/-- `ETH_Rx_Packet` takes a descriptor. -/
theorem ethRxPacket_of_not_own (hown : bitSet (s.desc s.dmaRxDescToGet).status dmaRxDescOwn = false) :
    ethRxPacket s =
      (if Complete (s.desc s.dmaRxDescToGet).status then
          ⟨ethGetDMARxDescFrameLength (s.desc s.dmaRxDescToGet).status - 4,
            (s.desc s.dmaRxDescToGet).buffer1Addr, some s.dmaRxDescToGet⟩
        else ⟨ethError, 0, some s.dmaRxDescToGet⟩,
        { s with dmaRxDescToGet := (s.desc s.dmaRxDescToGet).buffer2NextDescAddr
                 taken := s.taken + 1
                 log := s.log ++ [.take s.dmaRxDescToGet] }) := by
  have hcond : (!bitSet (s.desc s.dmaRxDescToGet).status dmaRxDescEs &&
      bitSet (s.desc s.dmaRxDescToGet).status dmaRxDescLs &&
      bitSet (s.desc s.dmaRxDescToGet).status dmaRxDescFs) = true ↔
        Complete (s.desc s.dmaRxDescToGet).status := by
    simp only [Complete, Bool.and_eq_true, Bool.not_eq_true', and_assoc]
  simp only [ethRxPacket, hown, Bool.false_eq_true, if_false, hcond]

/-- Copying writes nothing through `NULL`. -/
theorem count_copies (p : List Pbuf) : (copies p).count .nullWrite = 0 := by
  rw [List.count_eq_zero, copies]
  intro h
  obtain ⟨bytes, -, hbytes⟩ := List.mem_map.mp h
  cases hbytes

/-- A descriptor that is still with the DMA makes `low_level_input` write through a null descriptor. -/
theorem null_of_own (hown : bitSet (s.desc s.dmaRxDescToGet).status dmaRxDescOwn = true) :
    (lowLevelInput c free old s).2.log.count .nullWrite = s.log.count .nullWrite + 1 := by
  obtain ⟨dmasr, hrx⟩ := ethRxPacket_of_own hown
  rcases halloc : pbufAlloc c.pbufPoolBufsize free old ((ethRxPacket s).1.length.toNat % 2 ^ 16) with _ | p
  · rw [lowLevelInput_of_none halloc, hrx]
    simp [releaseDesc, State.logged]
  · rw [lowLevelInput_of_some halloc, hrx]
    simp [releaseDesc, State.logged, count_copies]

/-- Any other descriptor is given back. -/
theorem null_of_not_own (hown : bitSet (s.desc s.dmaRxDescToGet).status dmaRxDescOwn = false) :
    (lowLevelInput c free old s).2.log.count .nullWrite = s.log.count .nullWrite := by
  have hdesc : (ethRxPacket s).1.descriptor = some s.dmaRxDescToGet := by
    rw [ethRxPacket_of_not_own hown]
    dsimp only
    split <;> rfl
  have hlog : (ethRxPacket s).2.log = s.log ++ [.take s.dmaRxDescToGet] := by
    rw [ethRxPacket_of_not_own hown]
  rcases halloc : pbufAlloc c.pbufPoolBufsize free old ((ethRxPacket s).1.length.toNat % 2 ^ 16) with _ | p
  · rw [lowLevelInput_of_none halloc, hdesc]
    simp [releaseDesc, State.logged, hlog]
  · rw [lowLevelInput_of_some halloc, hdesc]
    simp [releaseDesc, State.logged, hlog, count_copies]

/-- The packet that `low_level_input` returns for a descriptor that the DMA has given up, with the
length `len` it asks for. -/
theorem lowLevelInput_packet (c : Config) (free : ℕ) (old : ℕ → ℕ → UInt8) {len : ℕ}
    (hown : bitSet (s.desc s.dmaRxDescToGet).status dmaRxDescOwn = false)
    (hlen : (ethRxPacket s).1.length.toNat % 2 ^ 16 = len) :
    ((free = 0 ∨ free * c.pbufPoolBufsize < len) ∧ (lowLevelInput c free old s).1 = none) ∨
      ¬(free = 0 ∨ free * c.pbufPoolBufsize < len) ∧ ∃ p, (lowLevelInput c free old s).1 = some p ∧
        chainBytes p = readBytes s.mem (ethRxPacket s).1.buffer len := by
  subst hlen
  have hmem : (ethRxPacket s).2.mem = s.mem := by
    rw [ethRxPacket_of_not_own hown]
  rcases halloc : pbufAlloc c.pbufPoolBufsize free old ((ethRxPacket s).1.length.toNat % 2 ^ 16) with _ | p
  · rw [lowLevelInput_of_none halloc]
    exact .inl ⟨pbufAlloc_eq_none_iff.mp halloc, rfl⟩
  · rw [lowLevelInput_of_some halloc]
    refine .inr ⟨fun h => ?_, _, rfl, ?_⟩
    · rw [pbufAlloc_eq_none_iff.mpr h] at halloc
      cases halloc
    · rw [chainBytes_copyChain, chainLen_pbufAlloc halloc, hmem, Nat.add_zero]

/-- How a frame may fail to be complete. -/
theorem not_complete_iff : ¬Complete status ↔ bitSet status dmaRxDescEs = true ∨
    bitSet status dmaRxDescLs = false ∨ bitSet status dmaRxDescFs = false := by
  simp only [Complete, not_and_or, Bool.not_eq_false, Bool.not_eq_true]

/-- Of a frame that is not complete `low_level_input` makes an empty packet, unless the pool is empty. -/
theorem safeAndHonest_iff_of_not_complete
    (hown : bitSet (s.desc s.dmaRxDescToGet).status dmaRxDescOwn = false)
    (hcomplete : ¬Complete (s.desc s.dmaRxDescToGet).status) :
    SafeAndHonest c free old s ↔ free = 0 := by
  -- a frame with an error, or in several descriptors, has length 0 for `low_level_input`
  have hlen : (ethRxPacket s).1.length.toNat % 2 ^ 16 = 0 := by
    rw [ethRxPacket_of_not_own hown]
    simp only [hcomplete, if_false]
    rfl
  have hpacket := lowLevelInput_packet c free old hown hlen
  simp only [Nat.not_lt_zero, or_false] at hpacket
  constructor
  · -- such a frame may not be passed on, so `pbuf_alloc` has to fail
    intro h
    rcases hpacket with ⟨hfree, -⟩ | ⟨-, p, hp, -⟩
    · exact hfree
    · rw [h.rejected (not_complete_iff.mp hcomplete)] at hp
      cases hp
  · intro hfree
    have hnone : (lowLevelInput c free old s).1 = none := by
      rcases hpacket with ⟨-, hnone⟩ | ⟨hne, -⟩
      · exact hnone
      · exact absurd hfree hne
    constructor
    · exact null_of_not_own hown
    · intro h
      rw [hown] at h
      cases h
    · exact fun _ => hnone
    · intro p hp
      rw [hnone] at hp
      cases hp
    · intro p hp
      rw [hnone] at hp
      cases hp

/-- A complete frame is handled when it is long enough, or when the pool has no room for what is asked. -/
theorem safeAndHonest_iff_of_complete
    (hown : bitSet (s.desc s.dmaRxDescToGet).status dmaRxDescOwn = false)
    (hcomplete : Complete (s.desc s.dmaRxDescToGet).status) :
    SafeAndHonest c free old s ↔
      18 ≤ (ethGetDMARxDescFrameLength (s.desc s.dmaRxDescToGet).status).toNat ∨ free = 0 ∨
        (ethGetDMARxDescFrameLength (s.desc s.dmaRxDescToGet).status).toNat < 4 ∧
          free * c.pbufPoolBufsize <
            (ethGetDMARxDescFrameLength (s.desc s.dmaRxDescToGet).status).toNat + 65532 := by
  have hrx := ethRxPacket_of_not_own hown
  simp only [hcomplete, if_true] at hrx
  have hlen : (ethRxPacket s).1.length.toNat % 2 ^ 16 =
      askedLength (ethGetDMARxDescFrameLength (s.desc s.dmaRxDescToGet).status).toNat := by
    rw [hrx]
    exact askedLength_eq _
  have hbuffer : (ethRxPacket s).1.buffer = (s.desc s.dmaRxDescToGet).buffer1Addr := by
    rw [hrx]
  have hpacket := lowLevelInput_packet c free old hown hlen
  rw [hbuffer] at hpacket
  -- a single element has room for a header
  have hfit : free ≠ 0 → 14 ≤ free * c.pbufPoolBufsize :=
    fun hne => c.sizeofEthHdr_le.trans (Nat.le_mul_of_pos_left _ (Nat.pos_of_ne_zero hne))
  constructor
  · intro h
    rcases hpacket with ⟨hshort, -⟩ | ⟨-, p, hp, hbytes⟩
    · rw [askedLength] at hshort
      split at hshort <;> omega
    · have hfour := (h.length p hp).1
      have hheader := h.etherType p hp
      rw [hbytes, length_readBytes, askedLength, if_neg (Nat.not_lt.mpr hfour)] at hheader
      omega
  · intro h
    have hproduced : ∀ p, (lowLevelInput c free old s).1 = some p →
        18 ≤ (ethGetDMARxDescFrameLength (s.desc s.dmaRxDescToGet).status).toNat ∧
          chainBytes p = readBytes s.mem (s.desc s.dmaRxDescToGet).buffer1Addr
            ((ethGetDMARxDescFrameLength (s.desc s.dmaRxDescToGet).status).toNat - 4) := by
      intro p hp
      rcases hpacket with ⟨-, hnone⟩ | ⟨henough, q, hq, hbytes⟩
      · rw [hnone] at hp
        cases hp
      · obtain rfl := Option.some.inj (hq.symm.trans hp)
        have hlong : 18 ≤ (ethGetDMARxDescFrameLength (s.desc s.dmaRxDescToGet).status).toNat := by
          rw [askedLength] at henough
          split at henough <;> omega
        rw [askedLength, if_neg (by omega)] at hbytes
        exact ⟨hlong, hbytes⟩
    constructor
    · exact null_of_not_own hown
    · intro howned
      rw [hown] at howned
      cases howned
    · exact fun hbad => absurd hcomplete (not_complete_iff.mpr hbad)
    · intro p hp
      obtain ⟨hlong, hbytes⟩ := hproduced p hp
      exact ⟨by omega, hbytes⟩
    · intro p hp
      obtain ⟨hlong, hbytes⟩ := hproduced p hp
      rw [hbytes, length_readBytes]
      omega

/-- **When a call is safe and honest.** -/
theorem safeAndHonest_iff (c : Config) (free : ℕ) (old : ℕ → ℕ → UInt8) (s : State) :
    SafeAndHonest c free old s ↔ Handled c free (s.desc s.dmaRxDescToGet).status := by
  rcases hown : bitSet (s.desc s.dmaRxDescToGet).status dmaRxDescOwn with _ | _
  · by_cases hcomplete : Complete (s.desc s.dmaRxDescToGet).status
    · rw [safeAndHonest_iff_of_complete hown hcomplete, Handled]
      simp only [hown, hcomplete, true_and]
    · rw [safeAndHonest_iff_of_not_complete hown hcomplete, Handled]
      simp only [hown, hcomplete, true_and, false_and, false_or, or_false]
  · constructor
    · intro h
      have hnull := h.null
      rw [null_of_own hown] at hnull
      omega
    · intro h
      rw [h.1] at hown
      cases hown

/-- Before the first frame, the descriptor is with the DMA. -/
theorem not_safeAndHonest : ¬SafeAndHonest twoBuffers 1 (fun _ _ => 0) fresh := by
  intro h
  have hnull := h.null
  rw [null_of_own (by decide)] at hnull
  omega

/-- A frame with a CRC error becomes an empty packet, and its EtherType is read. -/
example : ((lowLevelInput twoBuffers 1 (fun _ _ => 0)
    { fresh with desc := fun _ => { blankDesc with status := 0x00408300 } }).1.map chainLen) = some 0 := by
  decide

end BareMetal.Eth
