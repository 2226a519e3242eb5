import BareMetal.Lib.Align
import BareMetal.Lib.InDegree
import BareMetal.Lib.LinkedPath
import BareMetal.Lib.Run

/-! # Packet buffers

`pbuf.c`: allocating, referencing, freeing, joining and splitting chains of pbufs. A pbuf is known by its
address, and 0 is `NULL`. The pools and the heap behind `pbuf_alloc` and `pbuf_free` are seen through the
set of the pbufs that are allocated; that a pbuf is used or given back while it is not allocated sets `fault`,
which C does not notice. The loops over a chain take a bound on their rounds and return `none` when they
reach it. -/

namespace BareMetal.Pbufs

/-- `pbuf_layer`. -/
inductive PbufLayer
  | transport
  | ip
  | link
  | raw
  deriving DecidableEq, Repr

/-- `pbuf_type`. -/
inductive PbufType
  | ram
  | rom
  | ref
  | pool
  deriving DecidableEq, Repr

/-- `struct pbuf`. -/
structure Pbuf where
  next : ℕ
  payload : ℕ
  totLen : UInt16
  len : UInt16
  type : PbufType
  flags : UInt8
  ref : UInt16
  deriving DecidableEq, Repr

/-- The space for headers in front of the payload of each layer: `PBUF_LINK_HLEN` is 14, `PBUF_IP_HLEN` and
`PBUF_TRANSPORT_HLEN` are 20. -/
def PbufLayer.offset : PbufLayer → ℕ
  | .transport => 14 + 20 + 20
  | .ip => 14 + 20
  | .link => 14
  | .raw => 0

/-- The numbers of the configuration. -/
structure Config where
  memAlignment : ℕ
  isAlignment : IsAlignment memAlignment
  /-- `SIZEOF_STRUCT_PBUF`. -/
  sizeofStructPbuf : ℕ
  /-- `PBUF_POOL_BUFSIZE_ALIGNED`. -/
  pbufPoolBufsizeAligned : ℕ
  /-- An element of the pool has room for the headers and a byte behind them. -/
  headers_fit : alignUp memAlignment PbufLayer.transport.offset < pbufPoolBufsizeAligned
  bufsize_lt : pbufPoolBufsizeAligned < 2 ^ 16

/-- The pbufs. -/
structure Heap where
  pbuf : ℕ → Pbuf
  /-- The pbufs that were taken from their pool or from the heap. -/
  allocated : Finset ℕ
  /-- A pbuf was used or given back while it was not allocated. -/
  fault : Bool

/-- `p->next`. -/
def Heap.next (h : Heap) (p : ℕ) : ℕ := (h.pbuf p).next

/-- The number of links to `p`. -/
def Heap.links (h : Heap) (p : ℕ) : ℕ := inDegree h.allocated h.next p

/-- Change a pbuf. -/
def Heap.set (h : Heap) (p : ℕ) (f : Pbuf → Pbuf) : Heap :=
  { h with pbuf := Function.update h.pbuf p (f (h.pbuf p)) }

/-- `memp_malloc` or `mem_malloc` returned `p`, which is then filled in. -/
def Heap.take (h : Heap) (p : ℕ) (f : Pbuf → Pbuf) : Heap :=
  { h.set p f with allocated := insert p h.allocated }

/-- A pbuf is used. -/
def Heap.use (h : Heap) (p : ℕ) : Heap := { h with fault := h.fault || p ∉ h.allocated }

/-- `memp_free` or `mem_free`. -/
def Heap.giveBack (h : Heap) (p : ℕ) : Heap := { h.use p with allocated := h.allocated.erase p }

/-! ## References -/

/-- The loop of `pbuf_free`. -/
def pbufFreeLoop : ℕ → Heap → ℕ → UInt8 → Option (UInt8 × Heap)
  | fuel, h, p, count =>
      if p = 0 then some (count, h)
      else
        match fuel with
        | 0 => none
        | fuel + 1 =>
            let ref := (h.pbuf p).ref - 1
            let h := (h.use p).set p fun q => { q with ref := ref }
            if ref = 0 then pbufFreeLoop fuel (h.giveBack p) (h.next p) (count + 1)
            else some (count, h)

/-- `pbuf_free(p)`: the number of pbufs that were freed, in 8 bits. -/
def pbufFree (h : Heap) (p : ℕ) : Option (UInt8 × Heap) := pbufFreeLoop h.allocated.card h p 0

/-- `pbuf_ref(p)`. -/
def pbufRef (h : Heap) (p : ℕ) : Heap :=
  if p = 0 then h else (h.use p).set p fun q => { q with ref := q.ref + 1 }

/-! ## Chains -/

/-- The loop of `pbuf_cat`, and the link to `t` at its end. -/
def pbufCatLoop (t : ℕ) : ℕ → Heap → ℕ → Option Heap
  | 0, _, _ => none
  | fuel + 1, h, p =>
      let h := ((h.use p).use t).set p fun q => { q with totLen := q.totLen + (h.pbuf t).totLen }
      if h.next p = 0 then some (h.set p fun q => { q with next := t })
      else pbufCatLoop t fuel h (h.next p)

/-- `pbuf_cat(h, t)`. -/
def pbufCat (h : Heap) (head t : ℕ) : Option Heap := pbufCatLoop t h.allocated.card h head

/-- `pbuf_chain(h, t)`. -/
def pbufChain (h : Heap) (head t : ℕ) : Option Heap := (pbufCat h head t).map fun h => pbufRef h t

/-- `pbuf_dechain(p)`: the rest of the chain, `NULL` if it was freed. -/
def pbufDechain (h : Heap) (p : ℕ) : Option (ℕ × Heap) :=
  let h := h.use p
  let q := h.next p
  if q = 0 then some (0, h)
  else do
    let h := h.set q fun r => { r with totLen := (h.pbuf p).totLen - (h.pbuf p).len }
    let h := h.set p fun r => { r with next := 0, totLen := r.len }
    let (tailGone, h) ← pbufFree h q
    some (if 0 < tailGone then 0 else q, h)

/-! ## Allocation

`elems` are the addresses that the allocator returns, in order; it returns `NULL` when there are no more. -/

variable (c : Config)

/-- The length of the first pbuf of a chain from the pool. -/
def headLen (layer : PbufLayer) (length : UInt16) : ℕ :=
  min length.toNat (c.pbufPoolBufsizeAligned - alignUp c.memAlignment layer.offset)

/-- The first pbuf of a chain from the pool; `flags` is set later. -/
def fillHead (layer : PbufLayer) (length : UInt16) (p : ℕ) (old : Pbuf) : Pbuf :=
  { old with
    type := .pool, next := 0
    payload := alignUp c.memAlignment (p + (c.sizeofStructPbuf + layer.offset))
    totLen := length, len := UInt16.ofNat (headLen c layer length), ref := 1 }

/-- The next pbuf of a chain from the pool, with `rem` bytes to go. -/
def fillTail (q rem : ℕ) : Pbuf where
  type := .pool
  flags := 0
  next := 0
  totLen := UInt16.ofNat rem
  len := UInt16.ofNat (min rem c.pbufPoolBufsizeAligned)
  payload := q + c.sizeofStructPbuf
  ref := 1

/-- The loop of `pbuf_alloc` that allocates the tail of a chain behind `r`, with `rem` bytes to go; whether it
got all elements. -/
def allocTail : List ℕ → Heap → ℕ → ℕ → Bool × Heap
  | [], h, _, rem => (rem == 0, h)
  | q :: elems, h, r, rem =>
      if rem = 0 then (true, h)
      else
        allocTail elems ((h.take q fun _ => fillTail c q rem).set r fun p => { p with next := q }) q
          (rem - min rem c.pbufPoolBufsizeAligned)

/-- `pbuf_alloc(layer, length, type)`: the first pbuf of the chain, or `NULL`. -/
def pbufAlloc (h : Heap) (layer : PbufLayer) (length : UInt16) (type : PbufType) (elems : List ℕ) :
    Option (ℕ × Heap) :=
  match elems with
  | [] => some (0, h)
  | p :: elems =>
      match type with
      | .pool => do
          let (ok, h) := allocTail c elems (h.take p (fillHead c layer length p)) p
            (length.toNat - headLen c layer length)
          if ok then some (p, h.set p fun q => { q with ref := 1, flags := 0 })
          else
            let (_, h) ← pbufFree h p
            some (0, h)
      | .ram =>
          some (p, h.take p fun _ =>
            { payload := alignUp c.memAlignment (p + c.sizeofStructPbuf + layer.offset)
              len := length, totLen := length, next := 0, type := .ram, ref := 1, flags := 0 })
      | type =>
          some (p, h.take p fun _ =>
            { payload := 0, len := length, totLen := length, next := 0, type := type, ref := 1, flags := 0 })

/-! ## The callers -/

/-- The pbufs and the references that their owners hold. -/
structure State where
  heap : Heap
  owner : ℕ → ℕ

/-- A call. -/
inductive Event
  | alloc (layer : PbufLayer) (length : UInt16) (type : PbufType) (elems : List ℕ)
  | ref (p : ℕ)
  | free (p : ℕ)
  | cat (h t : ℕ)
  | chain (h t : ℕ)
  | dechain (p : ℕ)
  deriving DecidableEq, Repr

/-- One more reference to `p`. -/
def addRef (owner : ℕ → ℕ) (p : ℕ) : ℕ → ℕ := Function.update owner p (owner p + 1)

/-- One reference to `p` less. -/
def dropRef (owner : ℕ → ℕ) (p : ℕ) : ℕ → ℕ := Function.update owner p (owner p - 1)

/-- The calls that the callers may make: an allocator returns unused memory, an owner drops references
that it holds, and there are fewer than 2^16 references to a pbuf. -/
def Allowed (s : State) : Event → Prop
  | .alloc _ _ _ elems => elems.Nodup ∧ ∀ q ∈ elems, q ≠ 0 ∧ q ∉ s.heap.allocated
  | .ref p => p ∈ s.heap.allocated ∧ (s.heap.pbuf p).ref.toNat + 1 < 2 ^ 16
  | .free p => p ∈ s.heap.allocated ∧ 0 < s.owner p
  | .cat h t => h ∈ s.heap.allocated ∧ t ∈ s.heap.allocated ∧ 0 < s.owner t
  | .chain h t => h ∈ s.heap.allocated ∧ t ∈ s.heap.allocated ∧ (s.heap.pbuf t).ref.toNat + 1 < 2 ^ 16
  | .dechain p => p ∈ s.heap.allocated

instance (s : State) (e : Event) : Decidable (Allowed s e) := by
  cases e <;> rw [Allowed] <;> infer_instance

/-- A call that the callers may make, and that returns. -/
def step (s : State) (e : Event) : Option State :=
  if Allowed s e then
    match e with
    | .alloc layer length type elems => (pbufAlloc c s.heap layer length type elems).map fun (p, h) =>
        { heap := h, owner := if p = 0 then s.owner else addRef s.owner p }
    | .ref p => some { heap := pbufRef s.heap p, owner := addRef s.owner p }
    | .free p => (pbufFree s.heap p).map fun (_, h) => { heap := h, owner := dropRef s.owner p }
    | .cat head t => (pbufCat s.heap head t).map fun h => { heap := h, owner := dropRef s.owner t }
    | .chain head t => (pbufChain s.heap head t).map fun h => { s with heap := h }
    | .dechain p => (pbufDechain s.heap p).map fun (_, h) => { s with heap := h }
  else none

/-- No pbuf is allocated. -/
def start : State where
  heap := { pbuf := fun _ => ⟨0, 0, 0, 0, .ram, 0, 0⟩, allocated := ∅, fault := false }
  owner _ := 0

end BareMetal.Pbufs
