import BareMetal.Eth.Descriptor
import BareMetal.Lib.ByteMem

/-! # The transmit ring

Sending is a machine of two parties as well. A caller fills the buffer that `ETH_GetCurrentTxBuffer`
reports and hands it over with `ETH_Tx_Packet`; the DMA sends the frames of the descriptors it owns in
ring order and clears `OWN`. Number the accepted frames in order: frame `k` is in descriptor `k % n`, the
first `sent.length` frames have been sent, and the descriptors of the others are the ones the DMA owns
(`TxRing`, for every frame length). What the DMA sends is what was handed over as long as no accepted
frame is larger than its buffer (`TxFrames`).

`ETH_Tx_Packet` is one event: it writes a descriptor only while the DMA does not own it, and the write
that sets `OWN` is its last one to the descriptor. -/

namespace BareMetal.Eth.Tx

/-- `ETH_DMATxDesc_OWN`: the descriptor is owned by the DMA. -/
def dmaTxDescOwn : U32 := 0x80000000

/-- `ETH_DMATxDesc_LS`: the last segment of the frame. -/
def dmaTxDescLs : U32 := 0x20000000

/-- `ETH_DMATxDesc_FS`: the first segment of the frame. -/
def dmaTxDescFs : U32 := 0x10000000

/-- `ETH_DMATxDesc_CIC`: the checksum insertion control. -/
def dmaTxDescCic : U32 := 0x00C00000

/-- `ETH_DMATxDesc_TCH`: the second address is chained. -/
def dmaTxDescTch : U32 := 0x00100000

/-- `ETH_DMATxDesc_TBS1`: the size of the first buffer. -/
def dmaTxDescTbs1 : U32 := 0x00001FFF

/-- `ETH_TX_BUF_SIZE`. -/
def ethTxBufSize : ℕ := 1524

/-- `ETH_SUCCESS`. -/
def ethSuccess : U32 := 1

/-- `ETH_DMASR_TBUS`: the transmit buffer was unavailable. -/
def dmasrTbus : U32 := 0x00000004

/-- `IS_ETH_DMA_TXDESC_CHECKSUM`. -/
inductive Checksum
  | byPass
  | ipv4Header
  | tcpUdpIcmpSegment
  | tcpUdpIcmpFull

/-- The word of a checksum insertion mode. -/
def Checksum.word : Checksum → U32
  | .byPass => 0x00000000
  | .ipv4Header => 0x00400000
  | .tcpUdpIcmpSegment => 0x00800000
  | .tcpUdpIcmpFull => 0x00C00000

/-- The transmit buffers, and the checksum insertion that `low_level_init` configures, if any. -/
structure Config where
  /-- `Tx_Buff`. -/
  txBuff : ℕ
  /-- `ETH_TXBUFNB`. -/
  txBuffCount : ℕ
  txBuffCount_pos : 0 < txBuffCount
  checksum : Option Checksum

/-- What the loop of `ETH_DMATxDescChainInit` writes into descriptor `i`. -/
def chainInitDesc (txBuff txBuffCount i : ℕ) (d : DmaDesc) : DmaDesc :=
  { d with status := dmaTxDescTch
           buffer1Addr := txBuff + i * ethTxBufSize
           buffer2NextDescAddr := if i < txBuffCount - 1 then i + 1 else 0 }

/-- `ETH_DMATxDescChainInit`, which also sets `DMATxDescToSet` to the first descriptor. -/
def ethDMATxDescChainInit (txBuff txBuffCount : ℕ) (desc : ℕ → DmaDesc) : ℕ → DmaDesc :=
  forLoop (fun i desc => Function.update desc i (chainInitDesc txBuff txBuffCount i (desc i)))
    txBuffCount desc

/-- `ETH_DMATxDescChecksumInsertionConfig`. -/
def ethDMATxDescChecksumInsertionConfig (checksum : Checksum) (d : DmaDesc) : DmaDesc :=
  { d with status := d.status ||| checksum.word }

/-- What `low_level_init` does to the transmit descriptors. -/
def lowLevelInit (c : Config) (desc : ℕ → DmaDesc) : ℕ → DmaDesc :=
  let desc := ethDMATxDescChainInit c.txBuff c.txBuffCount desc
  match c.checksum with
  | none => desc
  | some checksum =>
      forLoop (fun i desc =>
        Function.update desc i (ethDMATxDescChecksumInsertionConfig checksum (desc i)))
        c.txBuffCount desc

/-- The shared memory, and the frames as two history variables. -/
structure State where
  /-- `DMATxDscrTab`. -/
  desc : ℕ → DmaDesc
  mem : ByteMem
  dmaTxDescToSet : ℕ
  /-- The descriptor the DMA sends next. -/
  dmaDesc : ℕ
  dmasr : U32
  /-- The first `FrameLength` bytes of the buffer, for each `ETH_Tx_Packet` that returned `ETH_SUCCESS`. -/
  accepted : List (List UInt8)
  /-- What the DMA has sent. -/
  sent : List (List UInt8)

/-- After `low_level_init`. -/
def init (c : Config) (desc : ℕ → DmaDesc) (mem : ByteMem) : State where
  desc := lowLevelInit c desc
  mem := mem
  dmaTxDescToSet := 0
  dmaDesc := 0
  dmasr := 0
  accepted := []
  sent := []

/-- `ETH_GetCurrentTxBuffer`. -/
def ethGetCurrentTxBuffer (s : State) : ℕ := (s.desc s.dmaTxDescToSet).buffer1Addr

/-- `ETH_Tx_Packet`. -/
def ethTxPacket (s : State) (frameLength : BitVec 16) : U32 × State :=
  let d := s.desc s.dmaTxDescToSet
  if bitSet d.status dmaTxDescOwn then (ethError, s)
  else
    let d' : DmaDesc :=
      { d with controlBufferSize := frameLength.setWidth 32 &&& dmaTxDescTbs1
               status := d.status ||| (dmaTxDescLs ||| dmaTxDescFs) ||| dmaTxDescOwn }
    (ethSuccess,
      { s with desc := Function.update s.desc s.dmaTxDescToSet d'
               dmasr := if bitSet s.dmasr dmasrTbus then ethDMAClearITPendingBit s.dmasr dmasrTbus
                 else s.dmasr
               dmaTxDescToSet := d.buffer2NextDescAddr })

/-- What can happen next. -/
inductive Event
  /-- The caller writes these bytes into the buffer that `ETH_GetCurrentTxBuffer` reports. -/
  | fill (bytes : List UInt8)
  /-- A call of `ETH_Tx_Packet`. -/
  | tx (frameLength : BitVec 16)
  /-- The DMA has sent the frame of the next descriptor and writes its status back. -/
  | complete (status : U32)
  /-- The DMA finds no descriptor to send. -/
  | tbus

/-- The bits of the status word that configure the descriptor. The DMA writes them back as they were. -/
def configBits : U32 := dmaTxDescTch ||| dmaTxDescCic

/-- The DMA sends the frame of a descriptor that it owns and clears `OWN`; of the rest of the status word
only the configuration bits are known afterwards. -/
def dmaComplete (s : State) (status : U32) : Option State :=
  let d := s.desc s.dmaDesc
  if bitSet d.status dmaTxDescOwn then
    let status' := (d.status &&& configBits) ||| (status &&& ~~~(dmaTxDescOwn ||| configBits))
    some { s with desc := Function.update s.desc s.dmaDesc { d with status := status' }
                  dmaDesc := d.buffer2NextDescAddr
                  sent := s.sent ++
                    [readBytes s.mem d.buffer1Addr (d.controlBufferSize &&& dmaTxDescTbs1).toNat] }
  else none

/-- One event of the machine. The caller fills a buffer only while the DMA does not own it, and writes
no more than the buffer holds. -/
def step (s : State) : Event → Option State
  | .fill bytes =>
      if !bitSet (s.desc s.dmaTxDescToSet).status dmaTxDescOwn && bytes.length ≤ ethTxBufSize then
        some { s with mem := writeBytes s.mem (ethGetCurrentTxBuffer s) bytes }
      else none
  | .tx frameLength =>
      let (err, s') := ethTxPacket s frameLength
      if err = ethSuccess then
        some { s' with accepted :=
          s.accepted ++ [readBytes s.mem (ethGetCurrentTxBuffer s) frameLength.toNat] }
      else some s'
  | .complete status => dmaComplete s status
  | .tbus => some { s with dmasr := s.dmasr ||| dmasrTbus }

/-! ## What a call promises -/

/-- The call that leads from `s` to `s'` has handed the current descriptor to the DMA. -/
structure HandsOver (frameLength : BitVec 16) (s s' : State) : Prop where
  /-- It is the descriptor whose buffer was reported. -/
  buffer : (s'.desc s.dmaTxDescToSet).buffer1Addr = ethGetCurrentTxBuffer s
  fs : bitSet (s'.desc s.dmaTxDescToSet).status dmaTxDescFs = true
  ls : bitSet (s'.desc s.dmaTxDescToSet).status dmaTxDescLs = true
  own : bitSet (s'.desc s.dmaTxDescToSet).status dmaTxDescOwn = true
  size : (s'.desc s.dmaTxDescToSet).controlBufferSize.toNat = frameLength.toNat
  size_le : (s'.desc s.dmaTxDescToSet).controlBufferSize.toNat ≤ ethTxBufSize
  link : (s'.desc s.dmaTxDescToSet).buffer2NextDescAddr = (s.desc s.dmaTxDescToSet).buffer2NextDescAddr
  config : (s'.desc s.dmaTxDescToSet).status &&& configBits =
    (s.desc s.dmaTxDescToSet).status &&& configBits
  /-- No other descriptor is handed over. -/
  others : ∀ i, i ≠ s.dmaTxDescToSet → s'.desc i = s.desc i
  next : s'.dmaTxDescToSet = (s.desc s.dmaTxDescToSet).buffer2NextDescAddr

/-- A call that finds `OWN` set returns `ETH_ERROR` and changes nothing; any other call returns
`ETH_SUCCESS` and hands the frame over. -/
def CallOk (s : State) : Event → Prop
  | .tx frameLength =>
      if bitSet (s.desc s.dmaTxDescToSet).status dmaTxDescOwn then
        ethTxPacket s frameLength = (ethError, s)
      else
        (ethTxPacket s frameLength).1 = ethSuccess ∧ HandsOver frameLength s (ethTxPacket s frameLength).2
  | _ => True

/-- The call finds the descriptor with the DMA, or its frame fits the buffer. -/
def Fits (s : State) : Event → Prop
  | .tx frameLength =>
      bitSet (s.desc s.dmaTxDescToSet).status dmaTxDescOwn = false → frameLength.toNat ≤ ethTxBufSize
  | _ => True

instance (s : State) : (e : Event) → Decidable (Fits s e)
  | .tx frameLength => inferInstanceAs (Decidable (_ = false → frameLength.toNat ≤ ethTxBufSize))
  | .fill _ | .complete _ | .tbus => isTrue trivial

/-! ## The ring -/

/-- The configuration bits of every descriptor. -/
def Config.word (c : Config) : U32 :=
  dmaTxDescTch ||| match c.checksum with
    | none => 0
    | some checksum => checksum.word

/-- The buffer of frame `k`. -/
def Config.bufferAddr (c : Config) (k : ℕ) : ℕ := c.txBuff + k % c.txBuffCount * ethTxBufSize

/-- The chain link, the buffer and the configuration bits of descriptor `i` are those that
`low_level_init` has set. -/
structure ChainKept (c : Config) (i : ℕ) (d : DmaDesc) : Prop where
  buffer : d.buffer1Addr = c.txBuff + i * ethTxBufSize
  link : d.buffer2NextDescAddr = if i < c.txBuffCount - 1 then i + 1 else 0
  config : d.status &&& configBits = c.word

/-- **The invariant of the transmit ring.** -/
structure TxRing (c : Config) (s : State) : Prop where
  chain : ∀ i < c.txBuffCount, ChainKept c i (s.desc i)
  toSet : s.dmaTxDescToSet = s.accepted.length % c.txBuffCount
  dma : s.dmaDesc = s.sent.length % c.txBuffCount
  sent_le : s.sent.length ≤ s.accepted.length
  accepted_le : s.accepted.length ≤ s.sent.length + c.txBuffCount
  owned : Window s.desc c.txBuffCount s.sent.length s.accepted.length fun _ d =>
    bitSet d.status dmaTxDescOwn = true
  unowned : Window s.desc c.txBuffCount s.accepted.length (s.sent.length + c.txBuffCount) fun _ d =>
    bitSet d.status dmaTxDescOwn = false

/-- **The frames in the ring**: what has been sent is the front of what was accepted, and the rest is in
the buffers of the descriptors that the DMA owns. -/
structure TxFrames (c : Config) (s : State) : Prop where
  sent : s.sent <+: s.accepted
  size_le : ∀ f ∈ s.accepted, f.length ≤ ethTxBufSize
  size : Window s.desc c.txBuffCount s.sent.length s.accepted.length fun k d =>
    ∀ f, s.accepted[k]? = some f → (d.controlBufferSize &&& dmaTxDescTbs1).toNat = f.length
  buffers : ∀ k f, s.sent.length ≤ k → s.accepted[k]? = some f →
    readBytes s.mem (c.bufferAddr k) f.length = f

variable {c : Config} {s s' : State} {e : Event} {es : List Event} {frameLength : BitVec 16}
  {status : U32} {bytes : List UInt8} {i k : ℕ} {d : DmaDesc}

/-- The checksum bits are configuration. -/
theorem Checksum.word_and (checksum : Checksum) : checksum.word &&& configBits = checksum.word := by
  cases checksum <;> decide

/-- So is all that the initial word says. -/
theorem Config.word_and (c : Config) : c.word &&& configBits = c.word := by
  rcases hc : c.checksum with _ | checksum <;> simp only [word, hc]
  · decide
  · cases checksum <;> decide

/-- The initial word leaves the descriptor to the driver. -/
theorem Config.word_own (c : Config) : bitSet c.word dmaTxDescOwn = false := by
  rcases hc : c.checksum with _ | checksum <;> simp only [word, hc]
  · decide
  · cases checksum <;> decide

/-- What `low_level_init` leaves in each descriptor. -/
theorem lowLevelInit_apply (c : Config) (desc : ℕ → DmaDesc) (hi : i < c.txBuffCount) :
    lowLevelInit c desc i =
      { chainInitDesc c.txBuff c.txBuffCount i (desc i) with status := c.word } := by
  have hchain : ethDMATxDescChainInit c.txBuff c.txBuffCount desc i =
      chainInitDesc c.txBuff c.txBuffCount i (desc i) :=
    forLoop_update_apply (chainInitDesc c.txBuff c.txBuffCount) desc hi
  rcases hc : c.checksum with _ | checksum
  · simp only [lowLevelInit, Config.word, hc, hchain]
    rfl
  · have hloop := forLoop_update_apply
      (fun _ d => ethDMATxDescChecksumInsertionConfig checksum d)
      (ethDMATxDescChainInit c.txBuff c.txBuffCount desc) hi
    rw [hchain] at hloop
    simp only [lowLevelInit, Config.word, hc, hloop]
    rfl

/-- The slot of a frame is one of the ring. -/
theorem slot_lt (c : Config) (k : ℕ) : k % c.txBuffCount < c.txBuffCount :=
  Nat.mod_lt k c.txBuffCount_pos

/-- After `low_level_init` every descriptor is the driver's. -/
theorem txRing_init (c : Config) (desc : ℕ → DmaDesc) (mem : ByteMem) : TxRing c (init c desc mem) := by
  constructor
  · intro i hi
    have hdesc : (init c desc mem).desc i = _ := lowLevelInit_apply c desc hi
    constructor <;> rw [hdesc]
    · rfl
    · rfl
    · exact c.word_and
  · exact (Nat.zero_mod _).symm
  · exact (Nat.zero_mod _).symm
  · exact le_rfl
  · exact Nat.zero_le _
  · exact Window.empty le_rfl
  · intro k _ _
    have hdesc : (init c desc mem).desc (k % c.txBuffCount) = _ :=
      lowLevelInit_apply c desc (slot_lt c k)
    rw [hdesc]
    exact c.word_own

/-- After `low_level_init` no frame is on its way. -/
theorem txFrames_init (c : Config) (desc : ℕ → DmaDesc) (mem : ByteMem) :
    TxFrames c (init c desc mem) := by
  constructor
  · exact List.nil_prefix
  · exact fun f hf => absurd hf List.not_mem_nil
  · exact Window.empty le_rfl
  · intro k f _ hf
    cases hf

/-- A descriptor keeps its buffer. -/
theorem TxRing.buffer1Addr (h : TxRing c s) (k : ℕ) :
    (s.desc (k % c.txBuffCount)).buffer1Addr = c.bufferAddr k :=
  (h.chain _ (slot_lt c k)).buffer

/-- A descriptor keeps its place in the chain. -/
theorem TxRing.nextDesc (h : TxRing c s) (k : ℕ) :
    (s.desc (k % c.txBuffCount)).buffer2NextDescAddr = (k + 1) % c.txBuffCount := by
  rw [(h.chain _ (slot_lt c k)).link]
  exact next_slot c.txBuffCount_pos k

/-- The buffer that is handed out is the one of the next frame. -/
theorem TxRing.ethGetCurrentTxBuffer_eq (h : TxRing c s) :
    ethGetCurrentTxBuffer s = c.bufferAddr s.accepted.length := by
  rw [ethGetCurrentTxBuffer, h.toSet, h.buffer1Addr]

/-- A rewrite of one descriptor that keeps its link, buffer and configuration keeps the chain. -/
theorem TxRing.chain_update (h : TxRing c s) (hd : k < c.txBuffCount → ChainKept c k d) :
    ∀ i < c.txBuffCount, ChainKept c i (Function.update s.desc k d i) := by
  intro i hi
  by_cases hik : i = k
  · subst hik
    rw [Function.update_self]
    exact hd hi
  · rw [Function.update_of_ne hik]
    exact h.chain i hi

/-- A current descriptor without `OWN` means that the ring is not full. -/
theorem TxRing.room (h : TxRing c s)
    (hown : bitSet (s.desc s.dmaTxDescToSet).status dmaTxDescOwn = false) :
    s.accepted.length < s.sent.length + c.txBuffCount := by
  by_contra hge
  have heq : s.accepted.length = s.sent.length + c.txBuffCount := le_antisymm h.accepted_le (by omega)
  have hpos := c.txBuffCount_pos
  have howned := h.owned s.sent.length le_rfl (by omega)
  rw [h.toSet, heq, Nat.add_mod_right, howned] at hown
  cases hown

/-- The DMA owns its next descriptor exactly when there is a frame to send. -/
theorem TxRing.own_iff (h : TxRing c s) :
    bitSet (s.desc s.dmaDesc).status dmaTxDescOwn = true ↔ s.sent.length < s.accepted.length := by
  rw [h.dma]
  constructor
  · intro hown
    by_contra hge
    have hpos := c.txBuffCount_pos
    have hfree := h.unowned s.sent.length (by omega) (by omega)
    rw [hfree] at hown
    cases hown
  · intro hlt
    exact h.owned s.sent.length le_rfl hlt

/-- Two buffers of different slots lie apart. -/
theorem Config.bufferAddr_apart (c : Config) {j k : ℕ} (h : j % c.txBuffCount ≠ k % c.txBuffCount) :
    c.bufferAddr j + ethTxBufSize ≤ c.bufferAddr k ∨
      c.bufferAddr k + ethTxBufSize ≤ c.bufferAddr j := by
  rw [bufferAddr, bufferAddr, ethTxBufSize]
  omega

/-! ## The calls -/

/-- The status word with which a descriptor is handed over. -/
def handedStatus (w : U32) : U32 := w ||| (dmaTxDescLs ||| dmaTxDescFs) ||| dmaTxDescOwn

/-- A descriptor that was handed over is the DMA's. -/
theorem handedStatus_own (w : U32) : bitSet (handedStatus w) dmaTxDescOwn = true :=
  bitSet_or_self _ (by decide)

/-- It holds the end of a frame. -/
theorem handedStatus_ls (w : U32) : bitSet (handedStatus w) dmaTxDescLs = true := by
  rw [handedStatus, BitVec.or_comm dmaTxDescLs, ← BitVec.or_assoc]
  exact bitSet_or _ (bitSet_or_self _ (by decide))

/-- It holds the beginning of a frame. -/
theorem handedStatus_fs (w : U32) : bitSet (handedStatus w) dmaTxDescFs = true := by
  rw [handedStatus, ← BitVec.or_assoc]
  exact bitSet_or _ (bitSet_or_self _ (by decide))

/-- Its configuration is what it was. -/
theorem handedStatus_config (w : U32) : handedStatus w &&& configBits = w &&& configBits := by
  rw [handedStatus, BitVec.or_assoc]
  exact or_and_of_disjoint w (by decide)

/-- The status word that the DMA writes back. -/
def completedStatus (w status : U32) : U32 :=
  (w &&& configBits) ||| (status &&& ~~~(dmaTxDescOwn ||| configBits))

/-- The DMA does not write the configuration. -/
theorem completedStatus_config (w status : U32) :
    completedStatus w status &&& configBits = w &&& configBits := by
  have hoff : status &&& ~~~(dmaTxDescOwn ||| configBits) &&& configBits = 0 := by
    rw [BitVec.and_assoc, show ~~~(dmaTxDescOwn ||| configBits) &&& configBits = 0 by decide]
    exact BitVec.and_zero
  rw [completedStatus, or_and_of_disjoint _ hoff, BitVec.and_assoc, BitVec.and_self]

/-- The DMA gives the descriptor back. -/
theorem completedStatus_own (w status : U32) : bitSet (completedStatus w status) dmaTxDescOwn = false := by
  rw [bitSet_eq_false_iff, completedStatus, BitVec.and_or_distrib_right, BitVec.and_assoc,
    BitVec.and_assoc, show configBits &&& dmaTxDescOwn = 0 by decide,
    show ~~~(dmaTxDescOwn ||| configBits) &&& dmaTxDescOwn = 0 by decide]
  show w &&& 0#32 ||| status &&& 0#32 = 0#32
  rw [BitVec.and_zero, BitVec.and_zero, BitVec.or_zero]

/-- The descriptor that `ETH_Tx_Packet` hands over. -/
def handed (d : DmaDesc) (frameLength : BitVec 16) : DmaDesc :=
  { d with controlBufferSize := frameLength.setWidth 32 &&& dmaTxDescTbs1
           status := handedStatus d.status }

/-- The descriptor is the DMA's: `ETH_TxPacket` does nothing. -/
theorem ethTxPacket_of_own (frameLength : BitVec 16)
    (hown : bitSet (s.desc s.dmaTxDescToSet).status dmaTxDescOwn = true) :
    ethTxPacket s frameLength = (ethError, s) := by
  rw [ethTxPacket, if_pos hown]

/-- The descriptor is the driver's: it is handed over, and the next one is current. -/
theorem ethTxPacket_of_not_own (frameLength : BitVec 16)
    (hown : bitSet (s.desc s.dmaTxDescToSet).status dmaTxDescOwn = false) :
    ∃ dmasr, ethTxPacket s frameLength = (ethSuccess,
      { s with desc := Function.update s.desc s.dmaTxDescToSet
                 (handed (s.desc s.dmaTxDescToSet) frameLength)
               dmasr := dmasr
               dmaTxDescToSet := (s.desc s.dmaTxDescToSet).buffer2NextDescAddr }) := by
  refine ⟨if bitSet s.dmasr dmasrTbus then ethDMAClearITPendingBit s.dmasr dmasrTbus else s.dmasr, ?_⟩
  rw [ethTxPacket, if_neg (Bool.not_eq_true _ ▸ hown)]
  rfl

/-- A length that fits the buffer also fits the 13 bits of the size field. -/
theorem size_of_le (h : frameLength.toNat ≤ ethTxBufSize) :
    (frameLength.setWidth 32 &&& dmaTxDescTbs1).toNat = frameLength.toNat := by
  have hmask : dmaTxDescTbs1.toNat = 2 ^ 13 - 1 := by decide
  rw [BitVec.toNat_and, hmask, Nat.and_two_pow_sub_one_eq_mod, BitVec.toNat_setWidth]
  rw [ethTxBufSize] at h
  omega

/-- **What a call promises holds exactly when the frame fits**, in every state. -/
theorem callOk_iff (s : State) (e : Event) : CallOk s e ↔ Fits s e := by
  cases e with
  | tx frameLength =>
      rcases hown : bitSet (s.desc s.dmaTxDescToSet).status dmaTxDescOwn with _ | _
      · obtain ⟨dmasr, htx⟩ := ethTxPacket_of_not_own frameLength hown
        simp only [CallOk, Fits, hown, htx, Bool.false_eq_true, if_false, forall_const, true_and]
        constructor
        · intro h
          rw [← h.size]
          exact h.size_le
        · intro hle
          have hsize := size_of_le hle
          constructor <;> simp only [Function.update_self]
          · rfl
          · exact handedStatus_fs _
          · exact handedStatus_ls _
          · exact handedStatus_own _
          · exact hsize
          · exact hsize.trans_le hle
          · rfl
          · exact handedStatus_config _
          · exact fun i hi => Function.update_of_ne hi _ _
      · simp only [CallOk, Fits, hown, if_true, ethTxPacket_of_own frameLength hown, reduceCtorEq,
          false_implies]
  | fill bytes => exact Iff.rfl
  | complete status => exact Iff.rfl
  | tbus => exact Iff.rfl

/-! ## The steps -/

/-- A call that finds `OWN` set is an error; another one appends a frame. -/
theorem step_tx (hs : step s (.tx frameLength) = some s') :
    (bitSet (s.desc s.dmaTxDescToSet).status dmaTxDescOwn = true ∧ s' = s) ∨
      bitSet (s.desc s.dmaTxDescToSet).status dmaTxDescOwn = false ∧ ∃ dmasr, s' =
        { s with desc := Function.update s.desc s.dmaTxDescToSet
                   (handed (s.desc s.dmaTxDescToSet) frameLength)
                 dmasr := dmasr
                 dmaTxDescToSet := (s.desc s.dmaTxDescToSet).buffer2NextDescAddr
                 accepted := s.accepted ++
                   [readBytes s.mem (ethGetCurrentTxBuffer s) frameLength.toNat] } := by
  rw [step] at hs
  rcases hown : bitSet (s.desc s.dmaTxDescToSet).status dmaTxDescOwn with _ | _
  · obtain ⟨dmasr, htx⟩ := ethTxPacket_of_not_own frameLength hown
    rw [htx] at hs
    exact .inr ⟨rfl, dmasr, (Option.some.inj hs).symm⟩
  · rw [ethTxPacket_of_own frameLength hown] at hs
    exact .inl ⟨rfl, (Option.some.inj hs).symm⟩

/-- The DMA sends the frame of a descriptor that it owns. -/
theorem step_complete (hs : step s (.complete status) = some s') :
    bitSet (s.desc s.dmaDesc).status dmaTxDescOwn = true ∧ s' =
      { s with desc := Function.update s.desc s.dmaDesc { s.desc s.dmaDesc with
                 status := completedStatus (s.desc s.dmaDesc).status status }
               dmaDesc := (s.desc s.dmaDesc).buffer2NextDescAddr
               sent := s.sent ++ [readBytes s.mem (s.desc s.dmaDesc).buffer1Addr
                 ((s.desc s.dmaDesc).controlBufferSize &&& dmaTxDescTbs1).toNat] } := by
  obtain ⟨hown, hs⟩ := Option.ite_none_right_eq_some.mp hs
  exact ⟨hown, (Option.some.inj hs).symm⟩

/-- Writing a frame needs a buffer that is the driver's. -/
theorem step_fill (hs : step s (.fill bytes) = some s') :
    bitSet (s.desc s.dmaTxDescToSet).status dmaTxDescOwn = false ∧ bytes.length ≤ ethTxBufSize ∧
      s' = { s with mem := writeBytes s.mem (ethGetCurrentTxBuffer s) bytes } := by
  obtain ⟨hcond, hs⟩ := Option.ite_none_right_eq_some.mp hs
  simp only [Bool.and_eq_true, Bool.not_eq_true', decide_eq_true_eq] at hcond
  exact ⟨hcond.1, hcond.2, (Option.some.inj hs).symm⟩

/-- Handing a descriptor over gives it to the DMA. -/
theorem TxRing.tx (h : TxRing c s) (hs : step s (.tx frameLength) = some s') : TxRing c s' := by
  obtain ⟨-, rfl⟩ | ⟨hown, dmasr, rfl⟩ := step_tx hs
  · exact h
  have hroom := h.room hown
  constructor
  · refine h.chain_update fun hk => ?_
    have hkept := h.chain _ hk
    exact ⟨hkept.buffer, hkept.link, (handedStatus_config _).trans hkept.config⟩
  · simp only [List.length_append, List.length_singleton, h.toSet]
    exact h.nextDesc s.accepted.length
  · exact h.dma
  · simp only [List.length_append, List.length_singleton]
    exact h.sent_le.trans (Nat.le_succ _)
  · simp only [List.length_append, List.length_singleton]
    exact hroom
  · simp only [List.length_append, List.length_singleton, h.toSet]
    exact h.owned.push (handedStatus_own _) hroom
  · simp only [List.length_append, List.length_singleton, h.toSet]
    refine h.unowned.pop ?_
    exact Nat.add_le_add_right h.sent_le _

/-- Sending a frame gives its descriptor back. -/
theorem TxRing.complete (h : TxRing c s) (hs : step s (.complete status) = some s') : TxRing c s' := by
  obtain ⟨hown, rfl⟩ := step_complete hs
  have hlt := h.own_iff.mp hown
  constructor
  · refine h.chain_update fun hk => ?_
    have hkept := h.chain _ hk
    exact ⟨hkept.buffer, hkept.link, (completedStatus_config _ _).trans hkept.config⟩
  · exact h.toSet
  · simp only [List.length_append, List.length_singleton, h.dma]
    exact h.nextDesc s.sent.length
  · simp only [List.length_append, List.length_singleton]
    exact hlt
  · simp only [List.length_append, List.length_singleton]
    have := h.accepted_le
    omega
  · simp only [List.length_append, List.length_singleton, h.dma]
    exact h.owned.pop h.accepted_le
  · simp only [List.length_append, List.length_singleton, h.dma]
    rw [Nat.add_right_comm, ← Nat.add_mod_right s.sent.length]
    refine h.unowned.push (completedStatus_own _ _) ?_
    omega

/-- **Every step keeps the ring**, for every frame length. -/
theorem TxRing.step (h : TxRing c s) (hs : step s e = some s') : TxRing c s' := by
  cases e with
  | fill bytes =>
      obtain ⟨-, -, rfl⟩ := step_fill hs
      exact ⟨h.chain, h.toSet, h.dma, h.sent_le, h.accepted_le, h.owned, h.unowned⟩
  | tx frameLength => exact h.tx hs
  | complete status => exact h.complete hs
  | tbus =>
      obtain rfl := Option.some.inj hs
      exact ⟨h.chain, h.toSet, h.dma, h.sent_le, h.accepted_le, h.owned, h.unowned⟩

/-- A frame that fits its buffer is in the ring as it was handed over. -/
theorem TxFrames.tx (h : TxRing c s) (hf : TxFrames c s) (hfits : Fits s (.tx frameLength))
    (hs : step s (.tx frameLength) = some s') : TxFrames c s' := by
  obtain ⟨-, rfl⟩ | ⟨hown, dmasr, rfl⟩ := step_tx hs
  · exact hf
  have hroom := h.room hown
  have hle : frameLength.toNat ≤ ethTxBufSize := hfits hown
  rw [h.ethGetCurrentTxBuffer_eq]
  constructor
  · exact hf.sent.trans (List.prefix_append _ _)
  · -- the frame is no longer than a buffer, so its length fits the field TBS1
    intro f hmem
    rcases List.mem_append.mp hmem with hmem | hmem
    · exact hf.size_le f hmem
    · rw [List.mem_singleton.mp hmem, length_readBytes]
      exact hle
  · simp only [List.length_append, List.length_singleton, h.toSet]
    refine Window.push (hf.size.mono le_rfl le_rfl ?_) ?_ hroom
    · intro k d _ hk hd f hget
      rw [List.getElem?_append_left hk] at hget
      exact hd f hget
    · intro f hget
      obtain rfl := Option.some.inj (List.getElem?_concat_length.symm.trans hget)
      show (frameLength.setWidth 32 &&& dmaTxDescTbs1 &&& dmaTxDescTbs1).toNat = _
      rw [BitVec.and_assoc, BitVec.and_self, size_of_le hle, length_readBytes]
  · -- the buffers of earlier frames are not the current one
    intro k f hk hget
    rcases Nat.lt_or_ge k s.accepted.length with hlt | hge
    · rw [List.getElem?_append_left hlt] at hget
      exact hf.buffers k f hk hget
    · obtain rfl : k = s.accepted.length := by
        have hlast := (List.getElem?_eq_some_iff.mp hget).1
        rw [List.length_append, List.length_singleton] at hlast
        omega
      obtain rfl := Option.some.inj (List.getElem?_concat_length.symm.trans hget)
      rw [length_readBytes]

/-- The DMA sends the next accepted frame. -/
theorem TxFrames.complete (h : TxRing c s) (hf : TxFrames c s)
    (hs : step s (.complete status) = some s') : TxFrames c s' := by
  obtain ⟨hown, rfl⟩ := step_complete hs
  have hlt := h.own_iff.mp hown
  have hget : s.accepted[s.sent.length]? = some s.accepted[s.sent.length] := List.getElem?_eq_getElem hlt
  have hsize := hf.size s.sent.length le_rfl hlt _ hget
  have hbytes := hf.buffers s.sent.length _ le_rfl hget
  rw [h.dma, h.buffer1Addr, hsize, hbytes]
  constructor
  · -- the frame sent is the one behind the frames sent before
    show s.sent ++ [s.accepted[s.sent.length]] <+: s.accepted
    have htake : s.accepted.take s.sent.length = s.sent := List.prefix_iff_eq_take.mp hf.sent |>.symm
    have hnext := List.take_append_getElem hlt
    rw [htake] at hnext
    rw [hnext]
    exact List.take_prefix _ _
  · exact hf.size_le
  · simp only [List.length_append, List.length_singleton]
    exact hf.size.pop h.accepted_le
  · intro k f hk hkget
    rw [List.length_append] at hk
    exact hf.buffers k f (by omega) hkget

/-- Filling the current buffer leaves the buffers alone that the DMA owns. -/
theorem TxFrames.fill (h : TxRing c s) (hf : TxFrames c s)
    (hs : step s (.fill bytes) = some s') : TxFrames c s' := by
  obtain ⟨hown, hlen, rfl⟩ := step_fill hs
  have hroom := h.room hown
  refine ⟨hf.sent, hf.size_le, hf.size, fun k f hk hget => ?_⟩
  have hlt : k < s.accepted.length := (List.getElem?_eq_some_iff.mp hget).1
  have hf_le := hf.size_le f (List.mem_of_getElem? hget)
  have hapart := c.bufferAddr_apart (slot_ne hlt (hroom.trans_le (Nat.add_le_add_right hk _)))
  have hoff := writeBytes_agreeOff s.mem (c.bufferAddr s.accepted.length) bytes
  rw [h.ethGetCurrentTxBuffer_eq, ← readBytes_congr (hoff.agreeOn (by omega))]
  exact hf.buffers k f hk hget

/-- Every step whose frame fits keeps the frames. -/
theorem TxFrames.step (h : TxRing c s) (hf : TxFrames c s) (hfits : Fits s e)
    (hs : step s e = some s') : TxFrames c s' := by
  cases e with
  | fill bytes => exact hf.fill h hs
  | tx frameLength => exact hf.tx h hfits hs
  | complete status => exact hf.complete h hs
  | tbus =>
      obtain rfl := Option.some.inj hs
      exact ⟨hf.sent, hf.size_le, hf.size, hf.buffers⟩

/-! ## Every accepted frame is sent once, in order -/

/-- What has been sent is the front of what was accepted, and when the DMA goes on, whatever status words
it writes back, it sends exactly the rest and then finds nothing to send. -/
structure SentInOrder (s : State) : Prop where
  sent : s.sent <+: s.accepted
  rest : ∀ ws : List U32, ws.length = s.accepted.length - s.sent.length →
    ∃ t, run step s (ws.map .complete) = some t ∧ t.sent = s.accepted ∧
      ∀ w, step t (.complete w) = none

/-- The DMA completes the oldest frame on its way. -/
theorem TxRing.step_complete_eq (h : TxRing c s) (w : U32) (hlt : s.sent.length < s.accepted.length) :
    ∃ t, Tx.step s (.complete w) = some t ∧ t.accepted = s.accepted ∧
      t.sent.length = s.sent.length + 1 := by
  refine ⟨_, if_pos (h.own_iff.mpr hlt), rfl, ?_⟩
  exact List.length_append

/-- With no frame on its way there is none to complete. -/
theorem TxRing.step_complete_none (h : TxRing c s) (w : U32) (hle : s.accepted.length ≤ s.sent.length) :
    Tx.step s (.complete w) = none := by
  refine if_neg fun hown => ?_
  exact absurd (h.own_iff.mp hown) (Nat.not_lt.mpr hle)

/-- What was sent is the beginning of what was accepted. -/
theorem TxFrames.sentInOrder (h : TxRing c s) (hf : TxFrames c s) : SentInOrder s := by
  refine ⟨hf.sent, fun ws hws => ?_⟩
  induction ws generalizing s with
  | nil =>
      have hlen : s.accepted.length ≤ s.sent.length := by
        rw [List.length_nil] at hws
        omega
      exact ⟨s, rfl, hf.sent.eq_of_length_le hlen, fun w => h.step_complete_none w hlen⟩
  | cons w ws ih =>
      rw [List.length_cons] at hws
      obtain ⟨t, ht, haccepted, hsent⟩ := h.step_complete_eq w (by omega)
      obtain ⟨u, hu, husent, hnone⟩ := ih (h.complete ht) (hf.complete h ht) (by rw [haccepted]; omega)
      refine ⟨u, ?_, husent.trans haccepted, hnone⟩
      rw [List.map_cons, run_cons, ht]
      exact hu

variable {desc : ℕ → DmaDesc} {mem : ByteMem}

/-- **The transmit ring keeps its promises exactly while the frames fit.** Along a run from
`low_level_init`, all calls of `ETH_Tx_Packet` do what they promise, the chain is as it was configured and
the accepted frames are sent once and in order, if and only if no call hands over more bytes than a buffer
holds. -/
theorem tx_sound_iff (c : Config) (hrun : run step (init c desc mem) es = some s) :
    (RunMeets step CallOk (init c desc mem) es ∧
      (∀ i < c.txBuffCount, ChainKept c i (s.desc i)) ∧ SentInOrder s) ↔
      RunMeets step Fits (init c desc mem) es := by
  have hcalls : RunMeets step CallOk (init c desc mem) es ↔ RunMeets step Fits (init c desc mem) es :=
    runMeets_congr (fun _ _ _ h hs => TxRing.step h hs) (fun s e _ => callOk_iff s e)
      (txRing_init c desc mem)
  rw [hcalls]
  refine ⟨And.left, fun hfits => ?_⟩
  let I (s : State) : Prop := TxRing c s ∧ TxFrames c s
  have hI : I s := by
    refine run_invariant_of_meets ?_ ⟨txRing_init c desc mem, txFrames_init c desc mem⟩ hfits hrun
    rintro s e s' ⟨h, hf⟩ hfit hs
    exact ⟨h.step hs, hf.step h hfit hs⟩
  exact ⟨hfits, hI.1.chain, hI.2.sentInOrder hI.1⟩

/-- The five buffers of `ETH_TXBUFNB`, with the checksums inserted by the hardware. -/
def fiveBuffers : Config where
  txBuff := 0x20000000
  txBuffCount := 5
  txBuffCount_pos := by decide
  checksum := some .tcpUdpIcmpFull

/-- `low_level_init` on descriptors that were zero. -/
def fiveBuffersInit : State :=
  init fiveBuffers (fun _ => ⟨0, 0, 0, 0⟩) fun _ => 0

/-- The theorem at a run with two frames, the second accepted after the first was sent. -/
theorem tx_sound_iff_fiveBuffers :
    ∃ s, run step fiveBuffersInit [.fill [1, 2, 3], .tx 1524, .complete 0x7F, .tbus, .tx 60] = some s ∧
      (RunMeets step CallOk fiveBuffersInit [.fill [1, 2, 3], .tx 1524, .complete 0x7F, .tbus, .tx 60] ∧
        (∀ i < 5, ChainKept fiveBuffers i (s.desc i)) ∧ SentInOrder s) := by
  have hrun : (run step fiveBuffersInit
      [.fill [1, 2, 3], .tx 1524, .complete 0x7F, .tbus, .tx 60]).isSome = true := by decide
  obtain ⟨s, hs⟩ := Option.isSome_iff_exists.mp hrun
  exact ⟨s, hs, (tx_sound_iff fiveBuffers hs).mpr (by decide)⟩

/-- A frame of one byte more than the buffer holds is accepted: the call breaks its promise. -/
theorem tx_not_sound : ∃ s, run step fiveBuffersInit [.tx 1525] = some s ∧
    ¬(RunMeets step CallOk fiveBuffersInit [.tx 1525] ∧
      (∀ i < 5, ChainKept fiveBuffers i (s.desc i)) ∧ SentInOrder s) := by
  have hrun : (run step fiveBuffersInit [.tx 1525]).isSome = true := by decide
  obtain ⟨s, hs⟩ := Option.isSome_iff_exists.mp hrun
  refine ⟨s, hs, fun h => ?_⟩
  exact absurd ((callOk_iff fiveBuffersInit (.tx 1525)).mp h.1.1) (by decide)

end BareMetal.Eth.Tx
