import BareMetal.Lib.Run
import BareMetal.Lib.Ring
import Mathlib.Data.BitVec

/-! # DMA descriptors and the driver functions on them

The receive descriptors form a chain in the table `DMARxDscrTab`. A descriptor is named by its index in
the table, in the pointers `DMARxDescToGet` and `Buffer2NextDescAddr` as well. Status words are the
32-bit words of the hardware, and the tests on them are the masks of `stm32f4x7_eth.h`. -/

namespace BareMetal.Eth

/-- `uint32_t`. -/
abbrev U32 := BitVec 32

/-- `ETH_DMARxDesc_OWN`: the descriptor is owned by the DMA. -/
def dmaRxDescOwn : U32 := 0x80000000

/-- `ETH_DMARxDesc_FL`: the frame length. -/
def dmaRxDescFl : U32 := 0x3FFF0000

/-- `ETH_DMARxDesc_ES`: the error summary. -/
def dmaRxDescEs : U32 := 0x00008000

/-- `ETH_DMARxDesc_FS`: the first descriptor of the frame. -/
def dmaRxDescFs : U32 := 0x00000200

/-- `ETH_DMARxDesc_LS`: the last descriptor of the frame. -/
def dmaRxDescLs : U32 := 0x00000100

/-- `ETH_DMARxDesc_RCH`: the second address is chained. -/
def dmaRxDescRch : U32 := 0x00004000

/-- `ETH_DMARxDesc_RBS1`: the size of the first buffer. -/
def dmaRxDescRbs1 : U32 := 0x00001FFF

/-- `ETH_RX_BUF_SIZE`. -/
def ethRxBufSize : ℕ := 1524

/-- `ETH_ERROR`. -/
def ethError : U32 := 0

/-- `ETH_DMASR_RBUS`: the receive buffer was unavailable. -/
def dmasrRbus : U32 := 0x00000080

/-- `ETH_DMA_IT_R`: the receive interrupt. -/
def dmaItR : U32 := 0x00000040

/-- `ETH_DMA_IT_NIS`: the normal interrupt summary. -/
def dmaItNis : U32 := 0x00010000

/-- `(w & mask) != RESET`. -/
def bitSet (w mask : U32) : Bool := w &&& mask != 0

/-- `ETH_DMADESCTypeDef`. -/
structure DmaDesc where
  status : U32
  controlBufferSize : U32
  buffer1Addr : ℕ
  /-- The next descriptor of the chain. -/
  buffer2NextDescAddr : ℕ

/-- `FrameTypeDef`; `descriptor` is `none` for the null pointer. -/
structure FrameType where
  length : U32
  buffer : ℕ
  descriptor : Option ℕ

/-- `ETH_GetDMARxDescFrameLength`. -/
def ethGetDMARxDescFrameLength (status : U32) : U32 := (status &&& dmaRxDescFl) >>> 16

/-- `ETH_GetRxPktSize`. A descriptor without `OWN` is not touched by the DMA, so of the reads of the
status word only the first can meet a change. -/
def ethGetRxPktSize (status : U32) : U32 :=
  if !bitSet status dmaRxDescOwn && !bitSet status dmaRxDescEs && bitSet status dmaRxDescLs then
    ethGetDMARxDescFrameLength status
  else 0

/-- What the loop of `ETH_DMARxDescChainInit` writes into descriptor `i`. -/
def chainInitDesc (rxBuff rxBuffCount i : ℕ) : DmaDesc where
  status := dmaRxDescOwn
  controlBufferSize := dmaRxDescRch ||| BitVec.ofNat 32 ethRxBufSize
  buffer1Addr := rxBuff + i * ethRxBufSize
  buffer2NextDescAddr := if i < rxBuffCount - 1 then i + 1 else 0

/-- `ETH_DMARxDescChainInit`, which also sets `DMARxDescToGet` to the first descriptor. -/
def ethDMARxDescChainInit (rxBuff rxBuffCount : ℕ) (desc : ℕ → DmaDesc) : ℕ → DmaDesc :=
  forLoop (fun i desc => Function.update desc i (chainInitDesc rxBuff rxBuffCount i)) rxBuffCount desc

/-- `ETH_DMAClearITPendingBit`, and every other write to `ETH->DMASR`: a one clears its bit. -/
def ethDMAClearITPendingBit (dmasr it : U32) : U32 := dmasr &&& ~~~it

/-! ## Masks -/

variable {w v m : U32}

/-- A bit is set when the mask leaves something. -/
theorem bitSet_iff : bitSet w m = true ↔ w &&& m ≠ 0 := by
  rw [bitSet, bne_iff_ne]

/-- A bit is clear when the mask leaves nothing. -/
theorem bitSet_eq_false_iff : bitSet w m = false ↔ w &&& m = 0 := by
  rw [bitSet, bne_eq_false_iff_eq]

/-- Setting a mask sets its bits. -/
theorem bitSet_or_self (w : U32) (hm : m ≠ 0) : bitSet (w ||| m) m = true := by
  rw [bitSet_iff]
  have : (w ||| m) &&& m = m := by
    ext i
    simp only [BitVec.getElem_and, BitVec.getElem_or]
    cases w[i] <;> simp
  rwa [this]

/-- Setting other bits keeps the bits set. -/
theorem bitSet_or (v : U32) (h : bitSet w m = true) : bitSet (w ||| v) m = true := by
  rw [bitSet_iff] at h ⊢
  intro h0
  apply h
  have hle : w &&& m = ((w ||| v) &&& m) &&& w := by
    ext i
    simp only [BitVec.getElem_and, BitVec.getElem_or]
    cases w[i] <;> simp
  rw [hle, h0]
  exact BitVec.zero_and

/-- Setting a mask does not touch the bits outside it. -/
theorem or_and_of_disjoint (w : U32) (h : v &&& m = 0) : (w ||| v) &&& m = w &&& m := by
  rw [BitVec.and_or_distrib_right, h]
  exact BitVec.or_zero

/-- When `ETH_GetRxPktSize` sees a packet. -/
theorem ethGetRxPktSize_ne_zero_iff (status : U32) :
    ethGetRxPktSize status ≠ 0 ↔
      bitSet status dmaRxDescOwn = false ∧ bitSet status dmaRxDescEs = false ∧
        bitSet status dmaRxDescLs = true ∧ ethGetDMARxDescFrameLength status ≠ 0 := by
  rw [ethGetRxPktSize]
  split
  · next h =>
      simp only [Bool.and_eq_true, Bool.not_eq_true'] at h
      simp only [h, true_and]
  · next h =>
      simp only [Bool.and_eq_true, Bool.not_eq_true'] at h
      constructor
      · intro h0
        exact absurd rfl h0
      · rintro ⟨hown, hes, hls, -⟩
        exact absurd ⟨⟨hown, hes⟩, hls⟩ h

/-! ## The chain -/

/-- What `ETH_DMARxDescChainInit` leaves in each descriptor. -/
theorem ethDMARxDescChainInit_apply (rxBuff n : ℕ) (desc : ℕ → DmaDesc) {i : ℕ} (hi : i < n) :
    ethDMARxDescChainInit rxBuff n desc i = chainInitDesc rxBuff n i :=
  forLoop_update_apply (fun i _ => chainInitDesc rxBuff n i) desc hi

end BareMetal.Eth
