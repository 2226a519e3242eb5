import BareMetal.Pbuf.Calls
import BareMetal.Pbuf.Store

/-! # What `pbuf_alloc` returns

A chain whose pbufs lie inside what was taken for them, or `NULL` with everything given back: `pbufAlloc_meets_iff` says
when. Two things go wrong. The size of a pbuf in the heap is cut down to `mem_size_t`, so that the block can be smaller
than the pbuf. And when the pool runs dry, `pbuf_free` reads the flags of the first pbuf, which are set at the end only:
they are those of an earlier pbuf. -/

namespace BareMetal.Pbufs

variable (c : StoreConfig)

/-- The pools as `memp_init`, `mem_init` and the calls since then left them; `bs` are the blocks of the heap. -/
structure StoreOk (s : Store) (bs : List Blk) : Prop where
  heap : Mem.HeapInv c.mem s.pools.heap bs
  pbufPool : Unused s.pbufs s.pools.pbufPool
  mempPbuf : Unused s.pbufs s.pools.mempPbuf
  aligned : ∀ x ∈ s.pools.pbufPool, c.pbufs.memAlignment ∣ x
  apart : ∀ x ∈ s.pools.pbufPool, ∀ y ∈ s.pools.pbufPool, x ≠ y →
    x + c.pbufs.sizeofStructPbuf + c.pbufs.pbufPoolBufsizeAligned ≤ y ∨
      y + c.pbufs.sizeofStructPbuf + c.pbufs.pbufPoolBufsizeAligned ≤ x
  freeBlocks : ∀ q b, BlockAt 0 bs q b → b.used = false → c.mem.ram + q + c.mem.sizeofStructMem ∉ s.pbufs.allocated

/-- The end of the element that the pbuf at `x` lies in; a pbuf of `memp_tab[MEMP_PBUF]` has no payload in its element. -/
def elementEnd (s : Store) (x : ℕ) : ℕ :=
  match (s.pbufs.pbuf x).type with
  | .pool => x + c.pbufs.sizeofStructPbuf + c.pbufs.pbufPoolBufsizeAligned
  | .ram => x + Mem.dataLen c.mem s.pools.heap x
  | .rom => x + c.pbufs.sizeofStructPbuf
  | .ref => x + c.pbufs.sizeofStructPbuf

/-- The payload of the pbuf at `x` is behind the structure and inside the element; `NULL` when the caller sets it. -/
def InElement (s : Store) (x : ℕ) : Prop :=
  if (s.pbufs.pbuf x).type = .rom ∨ (s.pbufs.pbuf x).type = .ref then (s.pbufs.pbuf x).payload = 0
  else
    x + c.pbufs.sizeofStructPbuf ≤ (s.pbufs.pbuf x).payload ∧
      (s.pbufs.pbuf x).payload + (s.pbufs.pbuf x).len.toNat ≤ elementEnd c s x

/-- The payloads of two pbufs do not overlap. -/
def PayloadsApart (h : Heap) (x y : ℕ) : Prop :=
  (h.pbuf x).payload + (h.pbuf x).len.toNat ≤ (h.pbuf y).payload ∨
    (h.pbuf y).payload + (h.pbuf y).len.toNat ≤ (h.pbuf x).payload

/-- The pbufs `l` were taken from where pbufs of the type come from, and nothing else was. -/
def Taken (a a' : Pools) (bs : List Blk) (type : PbufType) (l : List ℕ) : Prop :=
  match type with
  | .pool => a.pbufPool = l ++ a'.pbufPool ∧ a' = { a with pbufPool := a'.pbufPool }
  | .ram => a' = { a with heap := a'.heap } ∧ ∃ bs', Mem.HeapInv c.mem a'.heap bs' ∧
      Mem.Preserves c.mem a.heap.mem a'.heap.mem bs bs' ∅ ∧ ∀ x ∈ l, ∃ q b, x = c.mem.ram + q + c.mem.sizeofStructMem ∧
        (∃ b', BlockAt 0 bs q b' ∧ b'.used = false) ∧ BlockAt 0 bs' q b ∧ b.used = true
  | .rom => a.mempPbuf = l ++ a'.mempPbuf ∧ a' = { a with mempPbuf := a'.mempPbuf }
  | .ref => a.mempPbuf = l ++ a'.mempPbuf ∧ a' = { a with mempPbuf := a'.mempPbuf }

/-- The space for headers in front of the payload of the first pbuf. -/
def headPayload (layer : PbufLayer) (type : PbufType) (p : ℕ) : ℕ :=
  match type with
  | .pool => p + c.pbufs.sizeofStructPbuf + alignUp c.pbufs.memAlignment layer.offset
  | .ram => p + alignUp c.pbufs.memAlignment (c.pbufs.sizeofStructPbuf + layer.offset)
  | .rom => 0
  | .ref => 0

/-- The new chain `l` of the pbuf `p`, for `length` bytes. -/
structure NewChain (s s' : Store) (bs : List Blk) (layer : PbufLayer) (length : UInt16) (type : PbufType) (p : ℕ)
    (l : List ℕ) : Prop where
  chain : Chain s'.pbufs p l
  fresh : ∀ x ∈ l, x ∉ s.pbufs.allocated
  allocated : s'.pbufs.allocated = s.pbufs.allocated ∪ l.toFinset
  others : ∀ x, x ∉ l → s'.pbufs.pbuf x = s.pbufs.pbuf x
  ref_one : ∀ x ∈ l, (s'.pbufs.pbuf x).ref = 1
  flags : ∀ x ∈ l, (s'.pbufs.pbuf x).flags = 0
  type_eq : ∀ x ∈ l, (s'.pbufs.pbuf x).type = type
  sum : chainSum s'.pbufs l = length.toNat
  totals : ∀ x ∈ l, TotalOk s'.pbufs x
  inside : ∀ x ∈ l, InElement c s' x
  disjoint : ∀ x ∈ l, ∀ y ∈ l, x ≠ y → PayloadsApart s'.pbufs x y
  head : (s'.pbufs.pbuf p).payload = headPayload c layer type p
  tail : ∀ x ∈ l, x ≠ p → (s'.pbufs.pbuf x).payload = x + c.pbufs.sizeofStructPbuf
  single : type ≠ .pool → l = [p]
  taken : Taken c s.pools s'.pools bs type l

/-- Everything is as before, but for the order of the pool and the contents of its elements. -/
structure Restored (s s' : Store) : Prop where
  allocated : s'.pbufs.allocated = s.pbufs.allocated
  others : ∀ x ∉ s.pools.pbufPool, x ≠ 0 → s'.pbufs.pbuf x = s.pbufs.pbuf x
  pbufPool : s'.pools.pbufPool.Perm s.pools.pbufPool
  mempPbuf : s'.pools.mempPbuf = s.pools.mempPbuf
  heap : s'.pools.heap = s.pools.heap
  customFreed : s'.pools.customFreed = s.pools.customFreed

/-- What is expected of `pbuf_alloc` when it returns `p`. -/
def AllocMeets (s : Store) (bs : List Blk) (layer : PbufLayer) (length : UInt16) (type : PbufType) (p : ℕ)
    (s' : Store) : Prop :=
  (p = 0 → Restored s s') ∧ (p ≠ 0 → ∃ l, NewChain c s s' bs layer length type p l)

/-- The condition for `pbuf_alloc` to do so: the first free element of the pool does not look like a custom pbuf or there
are enough elements, and the size of a pbuf in the heap fits into `mem_size_t` or what is left of it there is 0 or too
much for every free block. -/
def AllocFits (s : Store) (bs : List Blk) (layer : PbufLayer) (length : UInt16) (type : PbufType) : Prop :=
  match type with
  | .pool => ∀ p pool, s.pools.pbufPool = p :: pool → IsCustom c (s.pbufs.pbuf p) →
      alignUp c.pbufs.memAlignment layer.offset + length.toNat ≤
        (p :: pool).length * c.pbufs.pbufPoolBufsizeAligned
  | .ram => ramSize c layer length < 256 ^ c.mem.memSizeT ∨ ramSize c layer length % 256 ^ c.mem.memSizeT = 0 ∨
      Mem.NoneLarge c.mem bs (ramSize c layer length % 256 ^ c.mem.memSizeT)
  | .rom => True
  | .ref => True

variable {c} {s s' : Store} {bs : List Blk} {layer : PbufLayer} {length : UInt16} {type : PbufType} {p q x : ℕ}
  {l pool : List ℕ} {h k : Heap} {a : Pools} {h₀ : Mem.Heap}

/-! ## One pbuf -/

/-- A new pbuf that is a chain of its own. -/
theorem newChain_single (s : Store) {r : Pbuf} {a' : Pools} (hp0 : p ≠ 0) (hp : p ∉ s.pbufs.allocated)
    (hnext : r.next = 0) (href : r.ref = 1) (hflags : r.flags = 0) (htype : r.type = type) (hlen : r.len = length)
    (htot : r.totLen = length) (hinside : InElement c ⟨s.pbufs.take p fun _ => r, a'⟩ p)
    (hhead : r.payload = headPayload c layer type p) (htaken : Taken c s.pools a' bs type [p]) :
    NewChain c s ⟨s.pbufs.take p fun _ => r, a'⟩ bs layer length type p [p] := by
  have hself : (s.pbufs.take p fun _ => r).pbuf p = r := pbuf_take_self s.pbufs p _
  have hchain : Chain (s.pbufs.take p fun _ => r) p [p] := by
    refine ⟨path_cons.mpr ⟨rfl, ?_⟩, fun h0 => hp0 (List.mem_singleton.mp h0).symm⟩
    rw [path_nil, Heap.next, hself, hnext]
  have hsum : chainSum (s.pbufs.take p fun _ => r) [p] = length.toNat := by
    rw [chainSum_cons, chainSum_nil, hself, hlen, Nat.add_zero]
  constructor
  · exact hchain
  · exact List.forall_mem_singleton.mpr hp
  · rw [List.toFinset_cons, List.toFinset_nil, Heap.take, insert_empty_eq, Finset.union_comm]
    rfl
  · exact fun x hx => pbuf_take_of_ne _ _ fun heq => hx (heq ▸ List.mem_cons_self)
  · exact List.forall_mem_singleton.mpr ((congrArg Pbuf.ref hself).trans href)
  · exact List.forall_mem_singleton.mpr ((congrArg Pbuf.flags hself).trans hflags)
  · exact List.forall_mem_singleton.mpr ((congrArg Pbuf.type hself).trans htype)
  · exact hsum
  · exact List.forall_mem_singleton.mpr ⟨[p], hchain, by rw [hsum, hself, htot]⟩
  · exact List.forall_mem_singleton.mpr hinside
  · intro x hx y hy hxy
    exact absurd ((List.mem_singleton.mp hx).trans (List.mem_singleton.mp hy).symm) hxy
  · exact (congrArg Pbuf.payload hself).trans hhead
  · exact fun x hx hne => absurd (List.mem_singleton.mp hx) hne
  · exact fun _ => rfl
  · exact htaken

/-- Nothing was taken. -/
theorem restored_refl (s : Store) : Restored s s := ⟨rfl, fun _ _ _ => rfl, List.Perm.refl _, rfl, rfl, rfl⟩

/-! ## `PBUF_RAM` -/

/-- A multiple of the alignment with room for the headers and the data has room for the size that is asked for. -/
theorem ramSize_le {n : ℕ} (hn : c.pbufs.memAlignment ∣ n)
    (hroom : alignUp c.pbufs.memAlignment (c.pbufs.sizeofStructPbuf + layer.offset) + length.toNat ≤ n) :
    ramSize c layer length ≤ n := by
  have hA := c.pbufs.isAlignment
  rw [ramSize, ← alignUp_add_of_dvd hA (dvd_alignUp hA _)]
  exact alignUp_le_of_dvd hA hroom hn

/-- The payload of a `PBUF_RAM` begins aligned. -/
theorem dvd_ramSize (c : StoreConfig) (layer : PbufLayer) (length : UInt16) :
    c.pbufs.memAlignment ∣ ramSize c layer length :=
  Nat.dvd_add (dvd_alignUp c.pbufs.isAlignment _) (dvd_alignUp c.pbufs.isAlignment _)

/-- The data of a block are aligned. -/
theorem dvd_data (hinv : Mem.HeapInv c.mem h₀ bs) {b : Blk} (hb : BlockAt 0 bs q b) :
    c.pbufs.memAlignment ∣ c.mem.ram + q + c.mem.sizeofStructMem := by
  rw [← c.memAlignment_eq]
  exact Nat.dvd_add (Nat.dvd_add c.mem.ram_dvd (hinv.dvd_offset (s := ⟨h₀, fun _ => none⟩) hb)) c.mem.dvd_sizeofStructMem

/-- Where the payload of a `PBUF_RAM` begins. -/
theorem headPayload_ram (hp : c.pbufs.memAlignment ∣ p) :
    alignUp c.pbufs.memAlignment (p + c.pbufs.sizeofStructPbuf + layer.offset) = headPayload c layer .ram p := by
  rw [Nat.add_assoc, alignUp_add_of_dvd c.pbufs.isAlignment hp]
  rfl

/-- A pbuf in the heap lies inside its block exactly when the block has room for the size that was meant. -/
theorem inElement_ram (htype : (s.pbufs.pbuf x).type = .ram) (hlen : (s.pbufs.pbuf x).len = length)
    (hpayload : (s.pbufs.pbuf x).payload = headPayload c layer .ram x)
    (hdvd : c.pbufs.memAlignment ∣ Mem.dataLen c.mem s.pools.heap x) :
    InElement c s x ↔ ramSize c layer length ≤ Mem.dataLen c.mem s.pools.heap x := by
  have hA := c.pbufs.isAlignment
  have hhead := le_alignUp hA (c.pbufs.sizeofStructPbuf + layer.offset)
  rw [InElement, if_neg (by rw [htype]; decide), elementEnd, htype, hlen, hpayload, headPayload]
  constructor
  · rintro ⟨-, hend⟩
    exact ramSize_le hdvd (by simp only at hend; omega)
  · intro hle
    have hdata := le_alignUp hA length.toNat
    rw [ramSize] at hle
    simp only
    omega

/-- `pbuf_alloc` of a pbuf in the heap. -/
theorem pbufAlloc_ram (hok : StoreOk c s bs) (layer : PbufLayer) (length : UInt16) :
    ∃ p s', s.pbufAlloc c layer length .ram = some (p, s') ∧
      (AllocMeets c s bs layer length .ram p s' ↔ AllocFits c s bs layer length .ram) := by
  rcases Mem.memMalloc_spec hok.heap (ramSize c layer length % 256 ^ c.mem.memSizeT) with
    ⟨hnull, hwhy⟩ | ⟨q, heap, bs', hrun, halloc⟩
  · -- `mem_malloc` returns NULL: the state is as before
    refine ⟨0, s, by rw [Store.pbufAlloc, hnull]; rfl, iff_of_true ?_ (.inr hwhy)⟩
    exact ⟨fun _ => restored_refl s, fun hne => absurd rfl hne⟩
  obtain ⟨b, hb, hused, hroom⟩ := halloc.room
  obtain ⟨b₀, hb₀, hfree⟩ := halloc.free
  have hpos := c.mem.ram_pos
  have hdvd := dvd_data halloc.inv hb
  have hdata : Mem.dataLen c.mem heap (c.mem.ram + q + c.mem.sizeofStructMem) = b.len - c.mem.sizeofStructMem :=
    halloc.inv.dataLen_eq (s := ⟨heap, fun _ => none⟩) hb
  have hfresh := hok.freeBlocks q b₀ hb₀ hfree
  have htaken : Taken c s.pools { s.pools with heap } bs .ram [c.mem.ram + q + c.mem.sizeofStructMem] := by
    refine ⟨rfl, bs', halloc.inv, halloc.preserves, List.forall_mem_singleton.mpr ?_⟩
    exact ⟨q, b, rfl, ⟨b₀, hb₀, hfree⟩, hb, hused⟩
  generalize hp : c.mem.ram + q + c.mem.sizeofStructMem = p at hrun hdvd hdata hfresh htaken
  have hp0 : p ≠ 0 := by omega
  generalize hr : (⟨0, alignUp c.pbufs.memAlignment (p + c.pbufs.sizeofStructPbuf + layer.offset), length, length, .ram,
    0, 1⟩ : Pbuf) = r
  refine ⟨p, ⟨s.pbufs.take p fun _ => r, { s.pools with heap }⟩, ?_, ?_⟩
  · rw [Store.pbufAlloc, hrun, ← hr]
    simp only [Option.bind_eq_bind, Option.bind_some, if_neg hp0]
  have hself : (s.pbufs.take p fun _ => r).pbuf p = r := pbuf_take_self s.pbufs p _
  have hblock : c.pbufs.memAlignment ∣ b.len - c.mem.sizeofStructMem := by
    rw [← c.memAlignment_eq]
    exact Nat.dvd_sub (halloc.inv.good b hb.mem).2 c.mem.dvd_sizeofStructMem
  -- the payload is inside the block if and only if the length and the offset, without the wrap, fit into it
  have hinside : InElement c ⟨s.pbufs.take p fun _ => r, { s.pools with heap }⟩ p ↔
      ramSize c layer length ≤ b.len - c.mem.sizeofStructMem := by
    rw [← hdata]
    refine inElement_ram ?_ ?_ ?_ (hdata ▸ hblock)
    · rw [hself, ← hr]
    · rw [hself, ← hr]
    · rw [hself, ← hr]
      exact headPayload_ram hdvd
  constructor
  · intro hmeets
    obtain ⟨l, hnew⟩ := hmeets.2 hp0
    have hle := hinside.mp (hnew.inside p (hnew.chain.self_mem hp0))
    have hlen := halloc.inv.len_le hb
    have hrange := c.mem.memSizeAligned_lt
    exact .inl (by omega)
  · intro hfits
    refine ⟨fun h0 => absurd h0 hp0, fun _ => ⟨[p], ?_⟩⟩
    -- `mem_malloc` was called with the size modulo 2^16, and would have failed with a size of 0 or too large a one
    have hlt : ramSize c layer length < 256 ^ c.mem.memSizeT := by
      rcases hfits with hlt | hzero | hsmall
      · exact hlt
      · rw [hzero] at hrun
        exact absurd (Prod.mk.inj (Option.some.inj (hrun.symm.trans (if_pos rfl)))).1 hp0
      · exact absurd (Prod.mk.inj (Option.some.inj (hrun.symm.trans (Mem.memMalloc_of_noneLarge hok.heap hsmall)))).1 hp0
    have hsize : c.mem.memAlignSize (ramSize c layer length) = ramSize c layer length := by
      have hdvd := dvd_ramSize c layer length
      rw [← c.memAlignment_eq] at hdvd
      rw [Mem.Config.memAlignSize, alignUp_of_dvd c.mem.isAlignment hdvd, Nat.mod_eq_of_lt hlt]
    rw [Nat.mod_eq_of_lt hlt, hsize] at hroom
    refine newChain_single s hp0 hfresh ?_ ?_ ?_ ?_ ?_ ?_ (hinside.mpr (by omega)) ?_ htaken
    any_goals rw [← hr]
    exact headPayload_ram hdvd

/-! ## `PBUF_ROM` and `PBUF_REF` -/

/-- `pbuf_alloc` of a pbuf that refers to other memory. -/
theorem pbufAlloc_ref (hok : StoreOk c s bs) (layer : PbufLayer) (length : UInt16) (htype : type = .rom ∨ type = .ref) :
    ∃ p s', s.pbufAlloc c layer length type = some (p, s') ∧ AllocMeets c s bs layer length type p s' := by
  have hrefl : AllocMeets c s bs layer length type 0 s := ⟨fun _ => restored_refl s, fun hne => absurd rfl hne⟩
  cases hpool : s.pools.mempPbuf with
  | nil =>
      refine ⟨0, s, ?_, hrefl⟩
      rcases htype with rfl | rfl
      all_goals simp only [Store.pbufAlloc, hpool]
  | cons p pool =>
      obtain ⟨hp0, hp⟩ := hok.mempPbuf.2 p (hpool ▸ List.mem_cons_self)
      generalize hr : (⟨0, 0, length, length, type, 0, 1⟩ : Pbuf) = r
      refine ⟨p, ⟨s.pbufs.take p fun _ => r, { s.pools with mempPbuf := pool }⟩, ?_, ?_⟩
      · rw [← hr]
        rcases htype with rfl | rfl
        all_goals simp only [Store.pbufAlloc, hpool]
      have hself : (s.pbufs.take p fun _ => r).pbuf p = r := pbuf_take_self s.pbufs p _
      have hinside : InElement c ⟨s.pbufs.take p fun _ => r, { s.pools with mempPbuf := pool }⟩ p := by
        rw [InElement, hself, ← hr, if_pos htype]
      have htaken : Taken c s.pools { s.pools with mempPbuf := pool } bs type [p] := by
        rcases htype with rfl | rfl
        all_goals exact ⟨hpool, rfl⟩
      have hhead : r.payload = headPayload c layer type p := by
        rw [← hr]
        rcases htype with rfl | rfl
        all_goals rfl
      refine ⟨fun h0 => absurd h0 hp0, fun _ => ⟨[p], newChain_single s hp0 hp ?_ ?_ ?_ ?_ ?_ ?_ hinside hhead htaken⟩⟩
      all_goals rw [← hr]

/-! ## `PBUF_POOL` -/

/-- A pbuf of the pool lies inside its element. -/
theorem inElement_pool (htype : (s.pbufs.pbuf x).type = .pool)
    (hpayload : x + c.pbufs.sizeofStructPbuf ≤ (s.pbufs.pbuf x).payload)
    (hend : (s.pbufs.pbuf x).payload + (s.pbufs.pbuf x).len.toNat ≤
      x + c.pbufs.sizeofStructPbuf + c.pbufs.pbufPoolBufsizeAligned) : InElement c s x := by
  rw [InElement, if_neg (by rw [htype]; decide), elementEnd, htype]
  exact ⟨hpayload, hend⟩

/-- Elements that are apart have payloads that are apart. -/
theorem payloadsApart_of_inElement {y : ℕ} (hx : InElement c s x) (hy : InElement c s y)
    (hxtype : (s.pbufs.pbuf x).type = .pool) (hytype : (s.pbufs.pbuf y).type = .pool)
    (hapart : x + c.pbufs.sizeofStructPbuf + c.pbufs.pbufPoolBufsizeAligned ≤ y ∨
      y + c.pbufs.sizeofStructPbuf + c.pbufs.pbufPoolBufsizeAligned ≤ x) : PayloadsApart s.pbufs x y := by
  rw [InElement, if_neg (by rw [hxtype]; decide), elementEnd, hxtype] at hx
  rw [InElement, if_neg (by rw [hytype]; decide), elementEnd, hytype] at hy
  obtain ⟨hxlow, hxend⟩ := hx
  obtain ⟨hylow, hyend⟩ := hy
  simp only at hxend hyend
  rw [PayloadsApart]
  omega

/-- Where the payload of a `PBUF_POOL` begins. -/
theorem headPayload_pool (hp : c.pbufs.memAlignment ∣ p) :
    alignUp c.pbufs.memAlignment (p + (c.pbufs.sizeofStructPbuf + layer.offset)) = headPayload c layer .pool p := by
  have hbase := Nat.dvd_add hp c.dvd_sizeofStructPbuf
  rw [← Nat.add_assoc, alignUp_add_of_dvd c.pbufs.isAlignment hbase]
  rfl

/-- Every layer leaves room for data behind the headers. -/
theorem alignUp_offset_lt (c : Config) (layer : PbufLayer) :
    alignUp c.memAlignment layer.offset < c.pbufPoolBufsizeAligned := by
  have hle : layer.offset ≤ PbufLayer.transport.offset := by cases layer <;> decide
  exact (alignUp_mono c.isAlignment hle).trans_lt c.headers_fit

/-- When the pool has enough elements for what the first pbuf leaves. -/
theorem rem_le_iff (c : Config) (layer : PbufLayer) (length : UInt16) (n : ℕ) :
    length.toNat - headLen c layer length ≤ n * c.pbufPoolBufsizeAligned ↔
      alignUp c.memAlignment layer.offset + length.toNat ≤ (n + 1) * c.pbufPoolBufsizeAligned := by
  have hlt := alignUp_offset_lt c layer
  rw [headLen, Nat.succ_mul]
  omega

section PoolChain

variable {k' : Heap} (hext : Extended (s.pbufs.take p (fillHead c.pbufs layer length p)) p l k)
  (hfrom : ∀ x ∈ l, FromPool c.pbufs (k.pbuf x) x) (hk' : k.set p (fun q => { q with ref := 1, flags := 0 }) = k')

include hext hk'

/-- The first pbuf of a chain from the pool, after the end of `pbuf_alloc`. -/
theorem pbuf_poolHead : k'.pbuf p =
    { fillHead c.pbufs layer length p (s.pbufs.pbuf p) with next := k.next p, ref := 1, flags := 0 } := by
  rw [← hk', pbuf_set_self, hext.first, pbuf_take_self]

/-- Its length is what goes into the first element. -/
theorem len_poolHead : (k'.pbuf p).len.toNat = headLen c.pbufs layer length := by
  rw [pbuf_poolHead hext hk']
  exact UInt16.toNat_ofNat_of_lt' (lt_of_le_of_lt (headLen_le c.pbufs layer length) length.toNat_lt)

/-- Its payload leaves room for the headers. -/
theorem payload_poolHead (hp : c.pbufs.memAlignment ∣ p) : (k'.pbuf p).payload = headPayload c layer .pool p := by
  rw [pbuf_poolHead hext hk']
  exact headPayload_pool hp

/-- The pbufs behind it. -/
theorem pbuf_poolTail (hx : x ∈ l) : k'.pbuf x = k.pbuf x := by
  rw [← hk']
  exact pbuf_set_of_ne _ _ fun heq => hext.fresh p (heq ▸ hx) (Finset.mem_insert_self _ _)

include hfrom

/-- What all of them come with. -/
theorem fields_poolChain (hx : x ∈ p :: l) : (k'.pbuf x).type = .pool ∧ (k'.pbuf x).ref = 1 ∧ (k'.pbuf x).flags = 0 := by
  rcases List.mem_cons.mp hx with rfl | hx
  · rw [pbuf_poolHead hext hk', fillHead]
    exact ⟨rfl, rfl, rfl⟩
  · rw [pbuf_poolTail hext hk' hx]
    exact ⟨(hfrom x hx).1, hext.ref_one x hx, (hfrom x hx).2.1⟩

/-- Each of them has its payload in its element. -/
theorem inElement_poolChain (hp : c.pbufs.memAlignment ∣ p) (hx : x ∈ p :: l) : InElement c ⟨k', a⟩ x := by
  refine inElement_pool (fields_poolChain hext hfrom hk' hx).1 ?_ ?_
  · rcases List.mem_cons.mp hx with rfl | hx
    · rw [payload_poolHead hext hk' hp, headPayload]
      exact Nat.le_add_right _ _
    · rw [pbuf_poolTail hext hk' hx]
      exact (hfrom x hx).2.2.1.ge
  · rcases List.mem_cons.mp hx with rfl | hx
    · have hoffset := alignUp_offset_lt c.pbufs layer
      rw [payload_poolHead hext hk' hp, headPayload, len_poolHead hext hk', headLen]
      omega
    · obtain ⟨-, -, hpay, hle⟩ := hfrom x hx
      rw [pbuf_poolTail hext hk' hx, hpay]
      omega

end PoolChain

/-- A chain from the pool that is complete. -/
theorem newChain_pool {rest : List ℕ} (hok : StoreOk c s bs) (hpool : s.pools.pbufPool = p :: l ++ rest)
    (hext : Extended (s.pbufs.take p (fillHead c.pbufs layer length p)) p l k)
    (hfrom : ∀ x ∈ l, FromPool c.pbufs (k.pbuf x) x)
    (hsum : chainSum k l = length.toNat - headLen c.pbufs layer length) (htotals : ∀ x ∈ l, TotalOk k x) :
    NewChain c s ⟨k.set p fun q => { q with ref := 1, flags := 0 }, { s.pools with pbufPool := rest }⟩ bs layer length
      .pool p (p :: l) := by
  -- the elements of the chain are the first ones of the pool
  have hmem : ∀ x ∈ p :: l, x ∈ s.pools.pbufPool := fun x hx => hpool ▸ List.mem_append_left rest hx
  obtain ⟨hp0, hp⟩ := hok.pbufPool.2 p (hmem p List.mem_cons_self)
  obtain ⟨hchain, hall, htotal⟩ := hext.complete hp0 hsum
  have haligned := hok.aligned p (hmem p List.mem_cons_self)
  generalize hk' : (k.set p fun q => { q with ref := 1, flags := 0 }) = k'
  have hfields := fun x (hx : x ∈ p :: l) => fields_poolChain hext hfrom hk' hx
  have hinside := fun x (hx : x ∈ p :: l) =>
    @inElement_poolChain _ _ _ _ _ x _ _ { s.pools with pbufPool := rest } _ hext hfrom hk' haligned hx
  have hnext : k'.next = k.next := by
    rw [← hk']
    exact next_set_of_eq rfl
  have hlen : ∀ x, (k'.pbuf x).len = (k.pbuf x).len := by
    rw [← hk']
    exact len_set_of_eq rfl
  constructor
  · exact hchain.congr fun x _ => congrFun hnext x
  · exact List.forall_mem_cons.mpr ⟨hp, fun x hx hm => hext.fresh x hx (Finset.mem_insert_of_mem hm)⟩
  · have halloc : k'.allocated = k.allocated := by
      rw [← hk']
      rfl
    rw [halloc, hext.allocated, List.toFinset_cons, Finset.union_insert]
    exact Finset.insert_union p s.pbufs.allocated l.toFinset
  · intro x hx
    obtain ⟨hxp, hxl⟩ := not_or.mp (List.mem_cons.not.mp hx)
    rw [← hk', pbuf_set_of_ne _ _ hxp, hext.others x hxp hxl, pbuf_take_of_ne _ _ hxp]
  · exact fun x hx => (hfields x hx).2.1
  · exact fun x hx => (hfields x hx).2.2
  · exact fun x hx => (hfields x hx).1
  · rw [chainSum_congr fun x _ => hlen x, hall]
  · have hkeep : ∀ x, TotalOk k x → TotalOk k' x := fun x hx => by
      rw [← hk']
      exact hx.set_other rfl rfl rfl
    exact List.forall_mem_cons.mpr ⟨hkeep p htotal, fun x hx => hkeep x (htotals x hx)⟩
  · exact hinside
  · intro x hx y hy hxy
    exact payloadsApart_of_inElement (hinside x hx) (hinside y hy) (hfields x hx).1 (hfields y hy).1
      (hok.apart x (hmem x hx) y (hmem y hy) hxy)
  · exact payload_poolHead hext hk' haligned
  · intro x hx hne
    have hxl := (List.mem_cons.mp hx).resolve_left hne
    rw [pbuf_poolTail hext hk' hxl]
    exact (hfrom x hxl).2.2.1
  · exact fun hne => absurd rfl hne
  · exact ⟨hpool, rfl⟩

/-- Pbufs of the pool go back to it. -/
theorem releaseAll_pool {pbuf : ℕ → Pbuf} (htype : ∀ x ∈ l, (pbuf x).type = .pool)
    (hcustom : ∀ x ∈ l, ¬ IsCustom c (pbuf x)) :
    a.releaseAll c pbuf l = { a with pbufPool := l.reverse ++ a.pbufPool } := by
  induction l generalizing a with
  | nil => rfl
  | cons x l ih =>
      obtain ⟨hx, htype⟩ := List.forall_mem_cons.mp htype
      obtain ⟨hxc, hcustom⟩ := List.forall_mem_cons.mp hcustom
      have hrelease : a.release c (pbuf x) x = { a with pbufPool := x :: a.pbufPool } := by
        rw [Pools.release, if_neg hxc, hx]
      have hrest := ih (a := { a with pbufPool := x :: a.pbufPool }) htype hcustom
      rw [Pools.releaseAll] at hrest ⊢
      rw [List.foldl_cons, hrelease, hrest, List.reverse_cons, List.append_assoc]
      rfl

/-- The chain that the pool is too small for is freed as a whole. The first pbuf is given back to the pool unless the
flags of an earlier pbuf say that it is a custom one. -/
theorem pbufFree_partial (hok : StoreOk c s bs) (hpool : s.pools.pbufPool = p :: l)
    (hext : Extended (s.pbufs.take p (fillHead c.pbufs layer length p)) p l k)
    (hfrom : ∀ x ∈ l, FromPool c.pbufs (k.pbuf x) x) :
    ∃ count s', Store.pbufFree c ⟨k, { s.pools with pbufPool := [] }⟩ p = some (count, s') ∧
      (Restored s s' ↔ ¬ IsCustom c (s.pbufs.pbuf p)) := by
  obtain ⟨hp0, hp⟩ := hok.pbufPool.2 p (hpool ▸ List.mem_cons_self)
  have hnull : 0 ∉ p :: l := fun h0 => (List.mem_cons.mp h0).elim (fun heq => hp0 heq.symm) hext.null
  have hhead : k.pbuf p = { fillHead c.pbufs layer length p (s.pbufs.pbuf p) with next := k.next p } := by
    rw [hext.first, pbuf_take_self]
  have hone : ∀ x ∈ p :: l, (k.pbuf x).ref = 1 :=
    List.forall_mem_cons.mpr ⟨by rw [hhead, fillHead], hext.ref_one⟩
  have halloc : k.allocated = s.pbufs.allocated ∪ (p :: l).toFinset := by
    rw [hext.allocated, List.toFinset_cons, Finset.union_insert]
    exact Finset.insert_union p s.pbufs.allocated l.toFinset
  have hmem : ∀ x ∈ p :: l, x ∈ k.allocated := fun x hx => by
    rw [halloc]
    exact Finset.mem_union_right _ (List.mem_toFinset.mpr hx)
  have hfuel : (p :: l).length ≤ k.allocated.card := by
    rw [← List.toFinset_card_of_nodup (hpool ▸ hok.pbufPool.1)]
    exact Finset.card_le_card fun x hx => hmem x (List.mem_toFinset.mp hx)
  obtain ⟨h', hrun, hfreed⟩ := pbufFreeLoop_all hext.path hnull hmem hone hfuel 0
  refine ⟨0 + UInt8.ofNat (p :: l).length,
    ⟨h', Pools.releaseAll c k.pbuf (p :: l) { s.pools with pbufPool := [] }⟩, ?_, ?_⟩
  · rw [Store.pbufFree, Store.pbufFreeLoop_eq hext.path hnull hnull hone (fun hne => absurd rfl hne), hrun]
    rfl
  -- the tail goes back to the pool whatever the first pbuf looks like
  have htail : ∀ a : Pools, a.releaseAll c k.pbuf l = { a with pbufPool := l.reverse ++ a.pbufPool } := fun a =>
    releaseAll_pool (fun x hx => (hfrom x hx).1) fun x hx hc => hc.2 (by rw [(hfrom x hx).2.1]; rfl)
  have hcustom : IsCustom c (k.pbuf p) ↔ IsCustom c (s.pbufs.pbuf p) := isCustom_congr (by rw [hhead, fillHead])
  have hall : ∀ a : Pools, a.releaseAll c k.pbuf (p :: l) = (a.release c (k.pbuf p) p).releaseAll c k.pbuf l :=
    fun _ => rfl
  rw [hall, htail, ← hcustom]
  constructor
  · intro hrestored hc
    have hlen := hrestored.pbufPool.length_eq
    rw [Pools.release, if_pos hc, hpool] at hlen
    simp at hlen
  · intro hc
    have htype : (k.pbuf p).type = .pool := by rw [hhead, fillHead]
    rw [Pools.release, if_neg hc, htype]
    constructor
    · rw [hfreed.allocated, halloc]
      refine Finset.union_sdiff_cancel_right (Finset.disjoint_right.mpr fun x hx => ?_)
      exact (hok.pbufPool.2 x (hpool ▸ List.mem_toFinset.mp hx)).2
    · intro x hx hx0
      rw [hpool] at hx
      obtain ⟨hxp, hxl⟩ := not_or.mp (List.mem_cons.not.mp hx)
      rw [hfreed.others x hx hx0, hext.others x hxp hxl, pbuf_take_of_ne _ _ hxp]
    · rw [hpool, ← List.reverse_cons]
      exact List.reverse_perm (p :: l)
    · rfl
    · rfl
    · rfl

/-- `pbuf_alloc` of a chain from the pool. -/
theorem pbufAlloc_pool (hok : StoreOk c s bs) (layer : PbufLayer) (length : UInt16) :
    ∃ p s', s.pbufAlloc c layer length .pool = some (p, s') ∧
      (AllocMeets c s bs layer length .pool p s' ↔ AllocFits c s bs layer length .pool) := by
  cases hpool : s.pools.pbufPool with
  -- the pool is empty: NULL
  | nil =>
      refine ⟨0, s, by rw [Store.pbufAlloc, hpool], iff_of_true ?_ fun p pool hcons => ?_⟩
      · exact ⟨fun _ => restored_refl s, fun hne => absurd rfl hne⟩
      · exact absurd (hpool.symm.trans hcons) (List.cons_ne_nil p pool).symm
  | cons p pool =>
      obtain ⟨hp0, hp⟩ := hok.pbufPool.2 p (hpool ▸ List.mem_cons_self)
      have hun := hok.pbufPool
      rw [hpool] at hun
      have hlast : (s.pbufs.take p (fillHead c.pbufs layer length p)).next p = 0 := by
        rw [Heap.next, pbuf_take_self, fillHead]
      have hrem : length.toNat - headLen c.pbufs layer length < 2 ^ 16 :=
        lt_of_le_of_lt (Nat.sub_le _ _) length.toNat_lt
      obtain ⟨ok, l, rest, k, hrun, hsplit, hext, hfrom, hsums, hiff, hdry⟩ :=
        takeTail_spec (c := c) (Finset.mem_insert_self p s.pbufs.allocated) hp0 hlast
          (hun.tail (fillHead c.pbufs layer length p)) hrem
      have hfits : AllocFits c s bs layer length .pool ↔ (IsCustom c (s.pbufs.pbuf p) → ok = true) := by
        rw [hiff, rem_le_iff]
        constructor
        · exact fun hall => hall p pool hpool
        · intro hfit q pool' hcons
          obtain ⟨rfl, rfl⟩ := List.cons.inj (hpool.symm.trans hcons)
          exact hfit
      rw [hfits, Store.pbufAlloc, hpool]
      simp only [hrun]
      cases ok with
      -- there were enough elements: the chain has the whole length
      | true =>
          obtain ⟨hsum, htotals⟩ := hsums rfl
          refine ⟨p, _, rfl, iff_of_true ?_ fun _ => rfl⟩
          exact ⟨fun h0 => absurd h0 hp0, fun _ => ⟨p :: l, newChain_pool hok (by rw [hpool, hsplit]; rfl) hext hfrom
            hsum htotals⟩⟩
      -- the pool ran out: `pbuf_free` gives back what was taken, except where a stale flag makes it custom
      | false =>
          obtain rfl := hdry rfl
          rw [List.append_nil] at hsplit
          obtain ⟨count, s', hfree, hrestored⟩ := pbufFree_partial hok (hsplit ▸ hpool) hext hfrom
          refine ⟨0, s', ?_, ?_⟩
          · rw [if_neg Bool.false_ne_true, hfree]
            rfl
          · rw [AllocMeets, imp_iff_right rfl, hrestored]
            simp

/-- **When `pbuf_alloc` returns what was asked for, or nothing.** It returns. When it returns a pbuf, that is the first of
a chain of new pbufs with the lengths, the totals, the counts and the payloads asked for, and when it returns `NULL`,
everything that it took is given back: exactly under `AllocFits`. -/
theorem pbufAlloc_meets_iff (c : StoreConfig) (s : Store) (bs : List Blk) (layer : PbufLayer) (length : UInt16)
    (type : PbufType) (hok : StoreOk c s bs) :
    ∃ p s', s.pbufAlloc c layer length type = some (p, s') ∧
      (AllocMeets c s bs layer length type p s' ↔ AllocFits c s bs layer length type) := by
  cases type with
  | pool => exact pbufAlloc_pool hok layer length
  | ram => exact pbufAlloc_ram hok layer length
  | rom =>
      obtain ⟨p, s', hrun, hmeets⟩ := pbufAlloc_ref hok layer length (.inl rfl)
      exact ⟨p, s', hrun, iff_of_true hmeets trivial⟩
  | ref =>
      obtain ⟨p, s', hrun, hmeets⟩ := pbufAlloc_ref hok layer length (.inr rfl)
      exact ⟨p, s', hrun, iff_of_true hmeets trivial⟩

/-! ## A small store -/

/-- The small configuration with a heap of 64 bytes. -/
def smallStoreConfig : StoreConfig where
  pbufs := smallConfig
  mem := Mem.tiny
  supportCustomPbuf := true
  memAlignment_eq := rfl
  dvd_sizeofStructPbuf := by decide
  dvd_pbufPoolBufsizeAligned := by decide

/-- Two elements in the pool, nothing in `memp_tab[MEMP_PBUF]`, and an empty heap. -/
def smallStore : Store where
  pbufs := start.heap
  pools := { pbufPool := [4096, 8192], mempPbuf := [], heap := Mem.memInit Mem.tiny fun _ => 0, customFreed := [] }

/-- A store as `memp_init` and `mem_init` leave it. -/
theorem smallStore_ok : StoreOk smallStoreConfig smallStore [⟨Mem.tiny.memSizeAligned, false⟩] := by
  constructor
  · exact Mem.memInit_inv Mem.tiny fun _ => 0
  · exact ⟨by decide, by decide⟩
  · exact ⟨by decide, by decide⟩
  · decide
  · decide
  · exact fun _ _ _ _ => Finset.notMem_empty _

/-- Two pbufs from the pool. -/
theorem pbufAlloc_meets_iff_small : ∃ p s', smallStore.pbufAlloc smallStoreConfig .transport 600 .pool = some (p, s') ∧
    (AllocMeets smallStoreConfig smallStore [⟨Mem.tiny.memSizeAligned, false⟩] .transport 600 .pool p s' ↔
      AllocFits smallStoreConfig smallStore [⟨Mem.tiny.memSizeAligned, false⟩] .transport 600 .pool) :=
  pbufAlloc_meets_iff smallStoreConfig smallStore [⟨Mem.tiny.memSizeAligned, false⟩] .transport 600 .pool smallStore_ok

/-- 16 bytes for the structure and 65536 for the data are cut down to 16 for `mem_malloc`. -/
theorem not_pbufAlloc_meets : ¬ ∀ (c : StoreConfig) (s : Store) (bs : List Blk) (layer : PbufLayer) (length : UInt16)
    (type : PbufType), StoreOk c s bs →
    ∃ p s', s.pbufAlloc c layer length type = some (p, s') ∧ AllocMeets c s bs layer length type p s' := by
  intro hall
  obtain ⟨p, s', hrun, hmeets⟩ := hall smallStoreConfig smallStore _ .raw 65535 .ram smallStore_ok
  obtain ⟨p', s'', hrun', hiff⟩ := pbufAlloc_ram smallStore_ok .raw 65535
  obtain ⟨rfl, rfl⟩ := Prod.mk.inj (Option.some.inj (hrun.symm.trans hrun'))
  rcases hiff.mp hmeets with hlt | hzero | hnone
  · exact absurd hlt (by decide)
  · exact absurd hzero (by decide)
  · exact absurd (hnone _ List.mem_cons_self rfl) (by decide)

end BareMetal.Pbufs
