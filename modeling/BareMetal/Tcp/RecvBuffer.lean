import BareMetal.Tcp.Connection
import BareMetal.Lib.Run
import Mathlib.Logic.Function.Basic

/-! # The receive buffer of the application

`app_tcp_recv` and `UDP_Receive` copy the bytes of a chain into a `struct rcev_buf` with the same nested
loop, in which `length` is at once the write index and the bound. Here the buffer is the memory from
`bytes[0]` on, which does not end at `bytes[MAX_STRING]`, so that a write behind the array would show. After
any sequence of deliveries the buffer holds the front of all bytes delivered (`recv_prefix`), which is the
view of the buffer that the model of a connection takes (`Represents.store`). -/

namespace BareMetal.RecvBuffer

open Tcp (maxString Err)

/-- `struct pbuf`, with the bytes that `payload` leads to. -/
structure Pbuf where
  payload : ℕ → UInt8
  len : UInt16

/-- The bytes of a pbuf. -/
def Pbuf.bytes (q : Pbuf) : List UInt8 := (List.range q.len.toNat).map q.payload

/-- The bytes of a chain. -/
def chainBytes (p : List Pbuf) : List UInt8 := p.flatMap Pbuf.bytes

/-- `struct rcev_buf`, with all the memory from `bytes[0]` on. -/
structure RcevBuf where
  length : UInt16
  bytes : ℕ → UInt8

/-- The body of the loops: `bytes[length++] = c[i]` while there is room. -/
def storeByte (x : UInt8) (buffer : RcevBuf) : RcevBuf :=
  if buffer.length.toNat < maxString then
    { length := buffer.length + 1, bytes := Function.update buffer.bytes buffer.length.toNat x }
  else buffer

/-- The loop over the bytes of a pbuf. -/
def storePbuf (q : Pbuf) (buffer : RcevBuf) : RcevBuf :=
  forLoop (fun i buffer => storeByte (q.payload i) buffer) q.len.toNat buffer

/-- The loop over the pbufs of a chain. -/
def storeChain : List Pbuf → RcevBuf → RcevBuf
  | [], buffer => buffer
  | q :: p, buffer => storeChain p (storePbuf q buffer)

/-- A `struct rcev_buf` that is zero, with the memory behind it as it was. -/
def zeroBuf (memory : ℕ → UInt8) : RcevBuf where
  length := 0
  bytes i := if i < maxString then 0 else memory i

/-- What the callbacks give back. -/
inductive Action
  /-- `pbuf_free(p)`. -/
  | pbufFree (p : Option (List Pbuf))
  /-- `mem_free(buffer)`. -/
  | memFree (buffer : Option RcevBuf)
  /-- `tcp_close(pcb)`. -/
  | tcpClose

/-- The buffer of a connection, which is `none` when `mem_calloc` has failed, and what was given back. -/
structure State where
  buffer : Option RcevBuf
  log : List Action

/-- `app_tcp_recv(arg, pcb, p, err)`. -/
def appTcpRecv (s : State) (p : Option (List Pbuf)) (err : Err) : Err × State :=
  match p with
  | some p =>
      match s.buffer with
      | none => (err, { s with log := s.log ++ [.pbufFree (some p)] })
      | some buffer =>
          (.ok, { buffer := some (storeChain p buffer), log := s.log ++ [.pbufFree (some p)] })
  | none =>
      if err = .ok then
        (.ok, { s with log := s.log ++ [.memFree s.buffer, .tcpClose, .pbufFree none] })
      else (.ok, { s with log := s.log ++ [.pbufFree none] })

/-- `UDP_Receive(arg, upcb, p, addr, port)`, with the memory behind its local buffer. -/
def udpReceive (memory : ℕ → UInt8) (p : Option (List Pbuf)) : RcevBuf × List Action :=
  match p with
  | some p => (storeChain p (zeroBuf memory), [.pbufFree (some p)])
  | none => (zeroBuf memory, [.pbufFree none])

/-- Chains delivered one after the other. -/
def deliver (s : State) : List (List Pbuf × Err) → State
  | [] => s
  | (p, err) :: ps => deliver (appTcpRecv s (some p) err).2 ps

/-- **The buffer holds the front of `bs`**, and the memory behind the array is as it was. -/
structure HoldsPrefix (memory : ℕ → UInt8) (bs : List UInt8) (buffer : RcevBuf) : Prop where
  length : buffer.length.toNat = min maxString bs.length
  bytes : (List.range buffer.length.toNat).map buffer.bytes = bs.take maxString
  outside : ∀ i, maxString ≤ i → buffer.bytes i = memory i

variable {memory : ℕ → UInt8} {bs : List UInt8} {buffer : RcevBuf} {x : UInt8} {q : Pbuf} {p : List Pbuf}

/-- A buffer of zeros holds the empty text. -/
theorem holdsPrefix_zeroBuf (memory : ℕ → UInt8) : HoldsPrefix memory [] (zeroBuf memory) := by
  constructor
  · rfl
  · rfl
  · intro i hi
    exact if_neg (Nat.not_lt.mpr hi)

/-- One byte more. -/
theorem HoldsPrefix.storeByte (h : HoldsPrefix memory bs buffer) (x : UInt8) :
    HoldsPrefix memory (bs ++ [x]) (storeByte x buffer) := by
  have hlength := h.length
  rw [RecvBuffer.storeByte]
  split
  · next hroom =>
      -- there is room: the byte goes behind the bytes stored so far
      have hshort : bs.length < maxString := by omega
      have hlen : buffer.length.toNat = bs.length := by omega
      have hsucc : (buffer.length + 1).toNat = bs.length + 1 := by
        have hone : (1 : UInt16).toNat = 1 := rfl
        rw [maxString] at hshort
        rw [UInt16.toNat_add, hlen, hone]
        exact Nat.mod_eq_of_lt (by omega)
      constructor
      · rw [hsucc, List.length_append, List.length_singleton]
        omega
      · have hold : (List.range bs.length).map (Function.update buffer.bytes bs.length x) = bs := by
          have hbytes := h.bytes
          rw [hlen, List.take_of_length_le (Nat.le_of_lt hshort)] at hbytes
          conv_rhs => rw [← hbytes]
          apply List.map_congr_left
          intro i hi
          exact Function.update_of_ne (Nat.ne_of_lt (List.mem_range.mp hi)) _ _
        rw [hsucc, hlen, List.range_succ, List.map_append, List.map_singleton]
        dsimp only
        rw [Function.update_self, hold,
          List.take_of_length_le (by rw [List.length_append, List.length_singleton]; omega)]
      · intro i hi
        rw [hlen]
        dsimp only
        rw [Function.update_of_ne (by omega)]
        exact h.outside i hi
  · next hfull =>
      have hlong : maxString ≤ bs.length := by omega
      constructor
      · rw [hlength, List.length_append]
        omega
      · rw [List.take_append_of_le_length hlong]
        exact h.bytes
      · exact h.outside

/-- One pbuf more. -/
theorem HoldsPrefix.storePbuf (h : HoldsPrefix memory bs buffer) (q : Pbuf) :
    HoldsPrefix memory (bs ++ q.bytes) (storePbuf q buffer) := by
  let Stored (i : ℕ) (b : RcevBuf) : Prop := HoldsPrefix memory (bs ++ (List.range i).map q.payload) b
  have hloop : Stored q.len.toNat (RecvBuffer.storePbuf q buffer) := by
    refine forLoop_invariant ?_ ?_
    · show HoldsPrefix memory (bs ++ []) buffer
      rwa [List.append_nil]
    · intro i b _ hb
      have hnext := hb.storeByte (q.payload i)
      rwa [List.append_assoc, ← List.map_singleton, ← List.map_append, ← List.range_succ] at hnext
  exact hloop

/-- One chain more. -/
theorem HoldsPrefix.storeChain (h : HoldsPrefix memory bs buffer) (p : List Pbuf) :
    HoldsPrefix memory (bs ++ chainBytes p) (storeChain p buffer) := by
  induction p generalizing bs buffer with
  | nil =>
      rw [chainBytes, List.flatMap_nil, List.append_nil]
      exact h
  | cons q p ih =>
      have hrest := ih (h.storePbuf q)
      rw [List.append_assoc] at hrest
      exact hrest

/-- The bytes of all chains delivered. -/
def delivered (ps : List (List Pbuf × Err)) : List UInt8 := ps.flatMap fun x => chainBytes x.1

/-- Each chain is given to `pbuf_free` once, in the order of delivery. -/
def freedOnce (ps : List (List Pbuf × Err)) : List Action := ps.map fun x => .pbufFree (some x.1)

/-- A sequence of deliveries into a buffer. -/
theorem HoldsPrefix.deliver {log : List Action} (h : HoldsPrefix memory bs buffer)
    (ps : List (List Pbuf × Err)) : ∃ buffer',
      deliver ⟨some buffer, log⟩ ps = ⟨some buffer', log ++ freedOnce ps⟩ ∧
        HoldsPrefix memory (bs ++ delivered ps) buffer' := by
  induction ps generalizing bs buffer log with
  | nil =>
      refine ⟨buffer, ?_, ?_⟩
      · rw [freedOnce, List.map_nil, List.append_nil]
        rfl
      · rwa [delivered, List.flatMap_nil, List.append_nil]
  | cons x ps ih =>
      obtain ⟨buffer', hdeliver, hholds⟩ := @ih _ _ (log ++ [.pbufFree (some x.1)]) (h.storeChain x.1)
      rw [List.append_assoc] at hdeliver hholds
      exact ⟨buffer', hdeliver, hholds⟩

/-- A sequence of deliveries without a buffer. -/
theorem deliver_null (log : List Action) (ps : List (List Pbuf × Err)) :
    deliver ⟨none, log⟩ ps = ⟨none, log ++ freedOnce ps⟩ := by
  induction ps generalizing log with
  | nil =>
      rw [freedOnce, List.map_nil, List.append_nil]
      rfl
  | cons x ps ih =>
      have hrest := ih (log ++ [.pbufFree (some x.1)])
      rw [List.append_assoc] at hrest
      exact hrest

/-- **The buffer holds the front of what was delivered.** After any sequence of deliveries on a connection
the buffer that `mem_calloc` returned holds the first 256 bytes of all payloads and nothing behind it is
written; without a buffer nothing is written at all; and in both cases every chain is freed once.
`UDP_Receive` does the same for each datagram. -/
theorem recv_prefix :
    (∀ (memory : ℕ → UInt8) (ps : List (List Pbuf × Err)), ∃ buffer,
      deliver ⟨some (zeroBuf memory), []⟩ ps = ⟨some buffer, freedOnce ps⟩ ∧
        HoldsPrefix memory (delivered ps) buffer) ∧
    (∀ ps : List (List Pbuf × Err), deliver ⟨none, []⟩ ps = ⟨none, freedOnce ps⟩) ∧
    ∀ (memory : ℕ → UInt8) (p : List Pbuf), ∃ buffer,
      udpReceive memory (some p) = (buffer, [.pbufFree (some p)]) ∧
        HoldsPrefix memory (chainBytes p) buffer := by
  refine ⟨fun memory ps => ?_, fun ps => deliver_null [] ps, fun memory p => ?_⟩
  · exact (holdsPrefix_zeroBuf memory).deliver ps
  · exact ⟨_, rfl, (holdsPrefix_zeroBuf memory).storeChain p⟩

/-! ## The buffer of a connection -/

/-- The buffer that the model of a connection keeps as the list of its first `length` bytes. -/
def Represents (app : Tcp.App) (buffer : RcevBuf) : Prop :=
  ∃ memory bs, HoldsPrefix memory bs buffer ∧ app.bytes = bs.take maxString

/-- The loop of `App.store` appends bytes until the list is full. -/
theorem bytes_store (app : Tcp.App) (bs : List UInt8) (p : Tcp.Chain)
    (happ : app.bytes = bs.take maxString) : (app.store p).bytes = (bs ++ p.flatten).take maxString := by
  rw [Tcp.App.store]
  generalize p.flatten = cs
  induction cs generalizing app bs with
  | nil =>
      rw [List.append_nil]
      exact happ
  | cons x cs ih =>
      have hcons : bs ++ x :: cs = bs ++ [x] ++ cs := by
        rw [List.append_assoc, List.singleton_append]
      rw [List.foldl_cons, hcons]
      apply ih
      have hlength : app.bytes.length = min maxString bs.length := by
        rw [happ, List.length_take]
      split
      · next hroom =>
          have hshort : bs.length < maxString := by omega
          rw [List.take_of_length_le (Nat.le_of_lt hshort)] at happ
          rw [List.take_of_length_le (by rw [List.length_append, List.length_singleton]; omega)]
          exact congrArg (· ++ [x]) happ
      · next hfull =>
          rw [List.take_append_of_le_length (by omega)]
          exact happ

/-- **The list of a connection is its buffer.** A delivery keeps it so. -/
theorem Represents.store {app : Tcp.App} {p' : Tcp.Chain} (h : Represents app buffer)
    (hp : chainBytes p = p'.flatten) : Represents (app.store p') (RecvBuffer.storeChain p buffer) := by
  obtain ⟨memory, bs, hholds, happ⟩ := h
  refine ⟨memory, bs ++ chainBytes p, hholds.storeChain p, ?_⟩
  rw [hp]
  exact bytes_store app bs p' happ

end BareMetal.RecvBuffer
