import BareMetal.Eth.Descriptor
import BareMetal.Lib.ByteMem

/-! # Receiving frames: the DMA and `ETH_IRQHandler`

The receive path is a machine of two parties. A `complete` event is the DMA filling the next descriptor
of the ring: it writes the buffer, clears `OWN` and sets the `R` and `NIS` bits of `DMASR`. An `irq`
event enters `ETH_IRQHandler` while those bits are set, and each `cpu` event executes the next step of
the handler, through `ethernetif_input`, `low_level_input` and `ETH_Rx_Packet`. A step is at most one
access to what the two share, with one exception that makes no difference: a descriptor without `OWN`
is not touched by the DMA, so the reads of a status word after the one that finds `OWN` clear are one
step with it.

Where `pbuf_alloc` gets its elements is outside this machine: the `cpu` event carries the number of
elements that are free in `MEMP_PBUF_POOL` and the old contents of their payloads. -/

namespace BareMetal.Eth

/-- The receive buffers and the payload size of a pool pbuf. -/
structure Config where
  /-- `Rx_Buff`. -/
  rxBuff : ℕ
  /-- `ETH_RXBUFNB`. -/
  rxBuffCount : ℕ
  /-- `PBUF_POOL_BUFSIZE_ALIGNED`; a pool pbuf is made for a full TCP segment with its headers. -/
  pbufPoolBufsize : ℕ
  rxBuffCount_pos : 0 < rxBuffCount
  sizeofEthHdr_le : 14 ≤ pbufPoolBufsize
  pbufPoolBufsize_lt : pbufPoolBufsize < 2 ^ 16

/-- A `struct pbuf` of a chain, with the bytes its payload pointer leads to. -/
structure Pbuf where
  payload : ℕ → UInt8
  len : ℕ

/-- The `len` bytes of a pbuf. -/
def Pbuf.bytes (q : Pbuf) : List UInt8 := (List.range q.len).map q.payload

/-- The bytes of a chain. -/
def chainBytes (p : List Pbuf) : List UInt8 := p.flatMap Pbuf.bytes

/-- `memcpy(q->payload, src, q->len)`. -/
def copyInto (m : ByteMem) (src : ℕ) (q : Pbuf) : Pbuf where
  payload k := if k < q.len then m (src + k) else q.payload k
  len := q.len

/-- The loop of `pbuf_alloc` that allocates the tail of a `PBUF_POOL` chain. -/
def pbufAllocTail (bufsize : ℕ) : ℕ → (ℕ → ℕ → UInt8) → ℕ → Option (List Pbuf)
  | 0, _, remLen => if remLen = 0 then some [] else none
  | free + 1, old, remLen =>
      if remLen = 0 then some []
      else
        (pbufAllocTail bufsize free (fun k => old (k + 1)) (remLen - min remLen bufsize)).map
          fun r => ⟨old 0, min remLen bufsize⟩ :: r

/-- `pbuf_alloc(PBUF_RAW, length, PBUF_POOL)` with `free` elements in the pool. A chain that cannot be
completed is freed again. -/
def pbufAlloc (bufsize : ℕ) : ℕ → (ℕ → ℕ → UInt8) → ℕ → Option (List Pbuf)
  | 0, _, _ => none
  | free + 1, old, length =>
      (pbufAllocTail bufsize free (fun k => old (k + 1)) (length - min length bufsize)).map
        fun r => ⟨old 0, min length bufsize⟩ :: r

/-- `ETHTYPE_IP`. -/
def ethtypeIp : ℕ := 0x0800

/-- `ETHTYPE_ARP`. -/
def ethtypeArp : ℕ := 0x0806

/-- `htons(ethhdr->type)` of the header that `p->payload` points to. -/
def ethType : List Pbuf → ℕ
  | [] => 0
  | q :: _ => 256 * (q.payload 12).toNat + (q.payload 13).toNat

/-- Where the handler stands. -/
inductive Pc
  /-- Outside the handler. -/
  | idle
  /-- Before the test of the loop in `ETH_IRQHandler`. -/
  | test
  /-- In `low_level_input`, before `ETH_Rx_Packet`. -/
  | rxPacket
  /-- Before `pbuf_alloc`. -/
  | alloc (frame : FrameType)
  /-- In the copy loop: the pbufs `done` are filled with the first `i` bytes, `todo` is the rest. -/
  | copy (frame : FrameType) (done todo : List Pbuf) (i : ℕ)
  /-- Before the descriptor is given back. -/
  | release (frame : FrameType) (p : Option (List Pbuf))
  /-- Before the test of `RBUS`. -/
  | rbusTest (p : Option (List Pbuf))
  /-- Before `RBUS` is cleared and reception resumed. -/
  | rbusClear (p : Option (List Pbuf))
  /-- In `ethernetif_input`, after `low_level_input` has returned. -/
  | input (p : Option (List Pbuf))
  /-- Before `R` is cleared. -/
  | clearR
  /-- Before `NIS` is cleared. -/
  | clearNis

/-- What the handler does with frames, in the order it does it. -/
inductive Action
  /-- `ETH_Rx_Packet` takes a descriptor and advances `DMARxDescToGet`. -/
  | take (descriptor : ℕ)
  /-- `pbuf_alloc` returns `NULL`. -/
  | allocFailed
  /-- `memcpy` of these bytes into a pbuf. -/
  | copy (bytes : List UInt8)
  /-- The descriptor is given back to the DMA. -/
  | release (descriptor : ℕ)
  /-- The status word of a null descriptor is written. -/
  | nullWrite
  /-- `netif->input` of a chain with these bytes. -/
  | input (bytes : List UInt8)
  /-- `pbuf_free` of a chain whose EtherType is neither IP nor ARP. -/
  | free (bytes : List UInt8)
  deriving DecidableEq

/-- The shared memory, the handler, and three history variables. -/
structure State where
  /-- `DMARxDscrTab`. -/
  desc : ℕ → DmaDesc
  mem : ByteMem
  dmaRxDescToGet : ℕ
  /-- The descriptor the DMA fills next. -/
  dmaDesc : ℕ
  dmasr : U32
  pc : Pc
  /-- The status words and bytes of all completions so far. -/
  arrived : List (U32 × List UInt8)
  /-- The number of descriptors taken so far. -/
  taken : ℕ
  log : List Action

/-- After `ETH_DMARxDescChainInit`, before the first frame. -/
def init (c : Config) (desc : ℕ → DmaDesc) (mem : ByteMem) : State where
  desc := ethDMARxDescChainInit c.rxBuff c.rxBuffCount desc
  mem := mem
  dmaRxDescToGet := 0
  dmaDesc := 0
  dmasr := 0
  pc := .idle
  arrived := []
  taken := 0
  log := []

/-- `ETH_Rx_Packet`. -/
def ethRxPacket (s : State) : FrameType × State :=
  let d := s.desc s.dmaRxDescToGet
  if bitSet d.status dmaRxDescOwn then
    (⟨ethError, 0, none⟩,
      if bitSet s.dmasr dmasrRbus then { s with dmasr := ethDMAClearITPendingBit s.dmasr dmasrRbus }
      else s)
  else
    let frame : FrameType :=
      if !bitSet d.status dmaRxDescEs && bitSet d.status dmaRxDescLs && bitSet d.status dmaRxDescFs then
        ⟨ethGetDMARxDescFrameLength d.status - 4, d.buffer1Addr, some s.dmaRxDescToGet⟩
      else ⟨ethError, 0, some s.dmaRxDescToGet⟩
    (frame, { s with dmaRxDescToGet := d.buffer2NextDescAddr
                     taken := s.taken + 1
                     log := s.log ++ [.take s.dmaRxDescToGet] })

/-- `frame.descriptor->Status = ETH_DMARxDesc_OWN`. -/
def releaseDesc (s : State) : Option ℕ → State
  | some d => { s with desc := Function.update s.desc d { s.desc d with status := dmaRxDescOwn }
                       log := s.log ++ [.release d] }
  | none => { s with log := s.log ++ [.nullWrite] }

/-- `ethernetif_input` after `low_level_input` has returned `p`. -/
def ethernetifInput (s : State) : Option (List Pbuf) → State
  | none => s
  | some p =>
      if ethType p = ethtypeIp ∨ ethType p = ethtypeArp then
        { s with log := s.log ++ [.input (chainBytes p)] }
      else { s with log := s.log ++ [.free (chainBytes p)] }

/-- `ethernetif_input` then touches neither the ring nor the registers. -/
theorem ethernetifInput_eq (s : State) (p : Option (List Pbuf)) :
    ethernetifInput s p = { s with log := (ethernetifInput s p).log } := by
  cases p with
  | none => rfl
  | some p =>
      rw [ethernetifInput]
      split <;> rfl

/-- The next step of `ETH_IRQHandler`. -/
def handlerStep (c : Config) (free : ℕ) (old : ℕ → ℕ → UInt8) (s : State) : Option State :=
  match s.pc with
  | .idle => none
  | .test =>
      if ethGetRxPktSize (s.desc s.dmaRxDescToGet).status ≠ 0 then some { s with pc := .rxPacket }
      else some { s with pc := .clearR }
  | .rxPacket => some { (ethRxPacket s).2 with pc := .alloc (ethRxPacket s).1 }
  | .alloc frame =>
      -- `len` is a `u16_t`
      match pbufAlloc c.pbufPoolBufsize free old (frame.length.toNat % 2 ^ 16) with
      | none => some { s with pc := .release frame none, log := s.log ++ [.allocFailed] }
      | some p => some { s with pc := .copy frame [] p 0 }
  | .copy frame done [] _ => some { s with pc := .release frame (some done) }
  | .copy frame done (q :: todo) i =>
      let q' := copyInto s.mem (frame.buffer + i) q
      some { s with pc := .copy frame (done ++ [q']) todo (i + q.len)
                    log := s.log ++ [.copy q'.bytes] }
  | .release frame p => some { releaseDesc s frame.descriptor with pc := .rbusTest p }
  | .rbusTest p =>
      if bitSet s.dmasr dmasrRbus then some { s with pc := .rbusClear p }
      else some { s with pc := .input p }
  | .rbusClear p =>
      some { s with pc := .input p, dmasr := ethDMAClearITPendingBit s.dmasr dmasrRbus }
  | .input p => some { ethernetifInput s p with pc := .test }
  | .clearR => some { s with pc := .clearNis, dmasr := ethDMAClearITPendingBit s.dmasr dmaItR }
  | .clearNis => some { s with pc := .idle, dmasr := ethDMAClearITPendingBit s.dmasr dmaItNis }

/-- The receive interrupt is pending while `R` and `NIS` are set. -/
def State.pending (s : State) : Bool := bitSet s.dmasr dmaItR && bitSet s.dmasr dmaItNis

/-- What can happen next. -/
inductive Event
  /-- The DMA completes the next descriptor with this status word, having received these bytes. -/
  | complete (status : U32) (bytes : List UInt8)
  /-- The DMA finds no free descriptor. -/
  | rbus
  /-- The pending interrupt is taken. -/
  | irq
  /-- The next step of the handler, with this many free pool elements of these old contents. -/
  | cpu (free : ℕ) (old : ℕ → ℕ → UInt8)

/-- The DMA completes a descriptor that it owns and clears `OWN`; it writes at most the programmed
buffer size. -/
def dmaComplete (s : State) (status : U32) (bytes : List UInt8) : Option State :=
  let d := s.desc s.dmaDesc
  if bitSet d.status dmaRxDescOwn && !bitSet status dmaRxDescOwn
      && bytes.length ≤ (d.controlBufferSize &&& dmaRxDescRbs1).toNat then
    some { s with desc := Function.update s.desc s.dmaDesc { d with status := status }
                  mem := writeBytes s.mem d.buffer1Addr bytes
                  dmaDesc := d.buffer2NextDescAddr
                  dmasr := s.dmasr ||| dmaItR ||| dmaItNis
                  arrived := s.arrived ++ [(status, bytes)] }
  else none

/-- One event of the machine. -/
def step (c : Config) (s : State) : Event → Option State
  | .complete status bytes => dmaComplete s status bytes
  | .rbus => some { s with dmasr := s.dmasr ||| dmasrRbus }
  | .irq =>
      match s.pc with
      | .idle => if s.pending then some { s with pc := .test } else none
      | _ => none
  | .cpu free old => handlerStep c free old s

end BareMetal.Eth
