import BareMetal.Pbuf.Alloc

/-! # Shrinking a chain in memory

`pbuf_realloc` with the heap behind it: the block of the pbuf in which the cut is goes through `mem_trim`, and the pbufs
behind it go back to where they came from. `pbufRealloc_meets_iff` says when the chain that is left is well formed and
holds the first bytes. Two slips are in the way. The distance of the payload from the pbuf is cut down to 16 bits. And a
custom pbuf of the type `PBUF_RAM` is not from the heap, but `mem_trim` is asked to cut it: the size may be too large for
it, and then `NULL` is used as the pbuf. -/

namespace BareMetal.Pbufs

variable (c : StoreConfig)

/-- `(u16_t)((u8_t *)q->payload - (u8_t *)q) + rem_len`, as `mem_trim` gets it. -/
def trimSize (r : Pbuf) (q rem : ℕ) : ℕ := ((r.payload + 2 ^ 32 - q) % 2 ^ 16 + rem) % 256 ^ c.mem.memSizeT

/-- The end of `pbuf_realloc`: free the pbufs behind `q`, which is then the last one. -/
def Store.freeRest (s : Store) (q : ℕ) : Option Store := do
  let (_, s) ← if s.pbufs.next q = 0 then some (0, s) else s.pbufFree c (s.pbufs.next q)
  some { s with pbufs := s.pbufs.set q fun r => { r with next := 0 } }

/-- `pbuf_realloc(p, new_len)`: `none` when `NULL` is used as a pbuf. -/
def Store.pbufRealloc (s : Store) (p : ℕ) (newLen : UInt16) : Option Store :=
  let h := s.pbufs.use p
  if (h.pbuf p).totLen ≤ newLen then some { s with pbufs := h }
  else do
    let (q, rem, h) ← reallocLoop (newLen - (h.pbuf p).totLen) h.allocated.card h p newLen
    let (q, heap) := if (h.pbuf q).type = .ram ∧ rem ≠ (h.pbuf q).len then
      Mem.memTrim c.mem s.pools.heap q (trimSize c (h.pbuf q) q rem.toNat) else (q, s.pools.heap)
    if q = 0 then none
    else Store.freeRest c ⟨h.set q fun r => { r with len := rem, totLen := rem }, { s.pools with heap }⟩ q

/-! ## Well-formed chains -/

/-- The byte at an address: one of the heap, or of the other memory `ext`, which the calls leave alone. -/
def Store.byte (ext : ByteMem) (s : Store) (x : ℕ) : UInt8 :=
  if c.mem.ram ≤ x ∧ x < c.mem.ram + c.mem.memSizeAligned + c.mem.sizeofStructMem then s.pools.heap.mem (x - c.mem.ram)
  else ext x

/-- The bytes of the pbufs. -/
def Store.data (ext : ByteMem) (s : Store) : Data := fun p i => s.byte c ext ((s.pbufs.pbuf p).payload + i)

/-- The addresses from `start` to `stop` are data of the block in use at the offset `o`. -/
def InBlock (bs : List Blk) (o start stop : ℕ) : Prop :=
  ∃ b, BlockAt 0 bs o b ∧ b.used = true ∧ c.mem.ram + o + c.mem.sizeofStructMem ≤ start ∧ stop ≤ c.mem.ram + o + b.len

/-- Where the pbuf `x` of the chain `l` and its payload may be. A pbuf from the heap has its payload in its own block; a
custom pbuf is not in the heap; and a payload that the pbuf refers to is not in the heap or in a block that is none of
the chain's. -/
structure Placed (s : Store) (bs : List Blk) (l : List ℕ) (x : ℕ) : Prop where
  ram : (s.pbufs.pbuf x).type = .ram → ¬IsCustom c (s.pbufs.pbuf x) → ∃ o, x = c.mem.ram + o + c.mem.sizeofStructMem ∧
    x + c.pbufs.sizeofStructPbuf ≤ (s.pbufs.pbuf x).payload ∧
    InBlock c bs o (s.pbufs.pbuf x).payload ((s.pbufs.pbuf x).payload + (s.pbufs.pbuf x).len.toNat)
  custom : (s.pbufs.pbuf x).type = .ram → IsCustom c (s.pbufs.pbuf x) →
    x < c.mem.ram ∨ c.mem.ram + c.mem.memSizeAligned ≤ x
  other : ¬((s.pbufs.pbuf x).type = .ram ∧ ¬IsCustom c (s.pbufs.pbuf x)) →
    ((s.pbufs.pbuf x).payload + (s.pbufs.pbuf x).len.toNat ≤ c.mem.ram ∨
      c.mem.ram + c.mem.memSizeAligned + c.mem.sizeofStructMem ≤ (s.pbufs.pbuf x).payload) ∨
    ∃ o, c.mem.ram + o + c.mem.sizeofStructMem ∉ l ∧
      InBlock c bs o (s.pbufs.pbuf x).payload ((s.pbufs.pbuf x).payload + (s.pbufs.pbuf x).len.toNat)

/-- The chain `l` of `p` is well formed: the references are counted, the totals are right, and the pbufs and their
payloads are where they may be. -/
structure ChainOk (s : Store) (bs : List Blk) (owner : ℕ → ℕ) (p : ℕ) (l : List ℕ) : Prop where
  counted : Counted s.pbufs owner
  heap : Mem.HeapInv c.mem s.pools.heap bs
  chain : Chain s.pbufs p l
  allocated : p ∈ s.pbufs.allocated
  totals : ∀ x ∈ l, TotalOk s.pbufs x
  placed : ∀ x ∈ l, Placed c s bs l x

/-- The reference to the first of the pbufs `rest` behind `l'` was dropped: those in front that have no other are given
back, and the next one has a reference less. -/
structure RestReleased (s s' : Store) (l' rest : List ℕ) (lf kept : List ℕ) : Prop where
  split : rest = lf ++ kept
  one : ∀ x ∈ lf, (s.pbufs.pbuf x).ref = 1
  allocated : s'.pbufs.allocated = s.pbufs.allocated \ lf.toFinset
  next : ∀ y ∈ kept.head?, (s.pbufs.pbuf y).ref ≠ 1 ∧
    s'.pbufs.pbuf y = { s.pbufs.pbuf y with ref := (s.pbufs.pbuf y).ref - 1 }
  others : ∀ x, x ≠ 0 → x ∉ l' → x ∉ lf → x ∉ kept.head? → s'.pbufs.pbuf x = s.pbufs.pbuf x
  pools : ∃ heap, s'.pools = Pools.releaseAll c s.pbufs.pbuf lf { s.pools with heap }

/-- What is expected of `pbuf_realloc`: the pbufs `l'` are left, well formed, where they were and with the first bytes of
the chain, and the reference to the pbufs `rest` is dropped. -/
structure Shortened (ext : ByteMem) (s : Store) (owner : ℕ → ℕ) (p : ℕ) (newLen : UInt16) (s' : Store) (bs' : List Blk)
    (l' rest : List ℕ) : Prop where
  ok : ChainOk c s' bs' owner p l'
  bytes : chainBytes s'.pbufs (s'.data c ext) l' =
    (chainBytes s.pbufs (s.data c ext) (l' ++ rest)).take newLen.toNat
  same : ∀ x ∈ l', (s'.pbufs.pbuf x).payload = (s.pbufs.pbuf x).payload ∧
    (s'.pbufs.pbuf x).type = (s.pbufs.pbuf x).type ∧ (s'.pbufs.pbuf x).flags = (s.pbufs.pbuf x).flags ∧
    (s'.pbufs.pbuf x).ref = (s.pbufs.pbuf x).ref
  released : ∃ lf kept, RestReleased c s s' l' rest lf kept

/-- What is expected of `pbuf_realloc` for the chain `l`. -/
def ReallocMeets (ext : ByteMem) (s : Store) (owner : ℕ → ℕ) (p : ℕ) (l : List ℕ) (newLen : UInt16) (s' : Store) : Prop :=
  ∃ bs' l' rest, l = l' ++ rest ∧ Shortened c ext s owner p newLen s' bs' l' rest

/-- The pbuf at `q`, of the type `PBUF_RAM`, can be cut down to `rem` bytes: its payload starts within 2^16 bytes, or, for
a custom pbuf, the size that `mem_trim` gets is not too large for it. -/
def TrimOk (r : Pbuf) (q rem : ℕ) : Prop :=
  if IsCustom c r then Mem.dataSize c.mem (trimSize c r q rem) ≤ c.mem.memSizeAligned else r.payload < q + 2 ^ 16

/-- The condition: if the cut is inside a pbuf of the type `PBUF_RAM`, that can be cut. -/
def ReallocFits (s : Store) (l : List ℕ) (newLen : UInt16) : Prop :=
  ∀ l₁ q l₂, l = l₁ ++ q :: l₂ → (l₁ = [] ∨ chainSum s.pbufs l₁ < newLen.toNat) →
    newLen.toNat < chainSum s.pbufs l₁ + (s.pbufs.pbuf q).len.toNat → (s.pbufs.pbuf q).type = .ram →
    TrimOk c (s.pbufs.pbuf q) q (newLen.toNat - chainSum s.pbufs l₁)

/-- The size that `mem_trim` gets for the pbuf at `q` is not too large for a custom pbuf. It never is for another one. -/
def TrimReturns (r : Pbuf) (q rem : ℕ) : Prop :=
  IsCustom c r → Mem.dataSize c.mem (trimSize c r q rem) ≤ c.mem.memSizeAligned

/-- `pbuf_realloc` does not use `NULL` as a pbuf: if the cut is inside a pbuf of the type `PBUF_RAM`, `mem_trim` returns
this pbuf. -/
def ReallocReturns (s : Store) (l : List ℕ) (newLen : UInt16) : Prop :=
  ∀ l₁ q l₂, l = l₁ ++ q :: l₂ → (l₁ = [] ∨ chainSum s.pbufs l₁ < newLen.toNat) →
    newLen.toNat < chainSum s.pbufs l₁ + (s.pbufs.pbuf q).len.toNat → (s.pbufs.pbuf q).type = .ram →
    TrimReturns c (s.pbufs.pbuf q) q (newLen.toNat - chainSum s.pbufs l₁)

variable {c} {ext : ByteMem} {s s' s₁ : Store} {bs bs' bs₁ : List Blk} {owner : ℕ → ℕ} {p q x r o start stop : ℕ}
  {l l₁ l₂ l' lf rest : List ℕ} {newLen rem : UInt16} {h h' k : Heap} {a : Pools} {m : Mem.Heap} {exc : Set ℕ}

/-! ## The blocks of the heap -/

/-- Data of a block that an operation preserves are kept. -/
theorem InBlock.keep {m' : ByteMem} (hin : InBlock c bs o start stop)
    (hpres : Mem.Preserves c.mem m.mem m' bs bs' exc) (ho : o ∉ exc) :
    InBlock c bs' o start stop ∧ ∀ x, start ≤ x → x < stop → m' (x - c.mem.ram) = m.mem (x - c.mem.ram) := by
  obtain ⟨b, hb, hused, hlow, hhigh⟩ := hin
  obtain ⟨hb', hagree⟩ := hpres o b hb hused ho
  exact ⟨⟨b, hb', hused, hlow, hhigh⟩, fun x hx hx' => (hagree (x - c.mem.ram) (by omega) (by omega)).symm⟩

/-- Giving pbufs back to the heap preserves the other blocks. -/
theorem releaseAll_heap (pbuf : ℕ → Pbuf) (hinv : Mem.HeapInv c.mem a.heap bs) (hnd : l.Nodup)
    (hblocks : ∀ x ∈ l, (pbuf x).type = .ram → ¬IsCustom c (pbuf x) →
      ∃ o b, x = c.mem.ram + o + c.mem.sizeofStructMem ∧ BlockAt 0 bs o b ∧ b.used = true) :
    ∃ bs', Mem.HeapInv c.mem (a.releaseAll c pbuf l).heap bs' ∧
      Mem.Preserves c.mem a.heap.mem (a.releaseAll c pbuf l).heap.mem bs bs'
        {o | c.mem.ram + o + c.mem.sizeofStructMem ∈ l} := by
  induction l generalizing a bs with
  | nil => exact ⟨bs, hinv, Mem.Preserves.refl _ _ _ _⟩
  | cons x l ih =>
      obtain ⟨hxl, hnd⟩ := List.nodup_cons.mp hnd
      have hstep : ∃ bs₁, Mem.HeapInv c.mem (a.release c (pbuf x) x).heap bs₁ ∧
          Mem.Preserves c.mem a.heap.mem (a.release c (pbuf x) x).heap.mem bs bs₁
            {o | c.mem.ram + o + c.mem.sizeofStructMem = x} := by
        by_cases hram : (pbuf x).type = .ram ∧ ¬IsCustom c (pbuf x)
        · -- its block is freed, and every other used block of the heap keeps its bytes
          obtain ⟨o, ⟨n, u⟩, rfl, hb, hused⟩ := hblocks x List.mem_cons_self hram.1 hram.2
          obtain rfl : u = true := hused
          obtain ⟨l₀, r₀, rfl, rfl⟩ := hb.exists_split
          obtain ⟨bs₁, hinv₁, hpres⟩ := Mem.memFree_spec hinv
          rw [Nat.zero_add] at hram ⊢
          have hrelease : (a.release c (pbuf (c.mem.ram + total l₀ + c.mem.sizeofStructMem))
              (c.mem.ram + total l₀ + c.mem.sizeofStructMem)).heap =
              Mem.memFree c.mem a.heap (c.mem.ram + total l₀ + c.mem.sizeofStructMem) := by
            rw [Pools.release, if_neg hram.2, hram.1]
          rw [hrelease]
          refine ⟨bs₁, hinv₁, hpres.mono fun o ho => ?_⟩
          rw [Set.mem_singleton_iff.mp ho]
          rfl
        · -- no block of the heap is freed for it
          have hrelease : (a.release c (pbuf x) x).heap = a.heap := by
            rw [Pools.release]
            by_cases hcustom : IsCustom c (pbuf x)
            · rw [if_pos hcustom]
            · rw [if_neg hcustom]
              cases htype : (pbuf x).type with
              | ram => exact absurd ⟨htype, hcustom⟩ hram
              | rom => rfl
              | ref => rfl
              | pool => rfl
          rw [hrelease]
          exact ⟨bs, hinv, Mem.Preserves.refl _ _ _ _⟩
      obtain ⟨bs₁, hinv₁, hpres₁⟩ := hstep
      -- the blocks of the others are used until their turn
      obtain ⟨bs', hinv', hpres'⟩ := ih hinv₁ hnd fun y hy htype hcustom => by
        obtain ⟨o, b, hyo, hb, hused⟩ := hblocks y (List.mem_cons_of_mem x hy) htype hcustom
        have ho : c.mem.ram + o + c.mem.sizeofStructMem ≠ x := fun heq => hxl (heq ▸ hyo ▸ hy)
        exact ⟨o, b, hyo, (hpres₁ o b hb hused ho).1, hused⟩
      have hhead : {o | c.mem.ram + o + c.mem.sizeofStructMem = x} ⊆ {o | c.mem.ram + o + c.mem.sizeofStructMem ∈ x :: l} := by
        rintro o rfl
        exact List.mem_cons_self
      exact ⟨bs', hinv', (hpres₁.mono hhead).trans (hpres'.mono fun o ho => List.mem_cons_of_mem x ho)⟩

/-- The bytes that a block has for the pbuf are a multiple of the alignment, and enough for `mem_trim`. -/
theorem dataSize_le {n size : ℕ} {u : Bool} (hgood : Mem.GoodBlk c.mem ⟨n, u⟩) (hsize : c.mem.sizeofStructMem + size ≤ n) :
    c.mem.sizeofStructMem + Mem.dataSize c.mem size ≤ n := by
  obtain ⟨hmin, hdvd⟩ := hgood
  have hup : alignUp c.mem.memAlignment size ≤ n - c.mem.sizeofStructMem :=
    alignUp_le_of_dvd c.mem.isAlignment (by omega) (Nat.dvd_sub hdvd c.mem.dvd_sizeofStructMem)
  have hmod : c.mem.memAlignSize size ≤ alignUp c.mem.memAlignment size := Nat.mod_le _ _
  simp only at hmin
  rw [Mem.dataSize]
  split
  · omega
  · omega

/-- Cutting a block in use down to a size that it has room for. -/
theorem memTrim_block {b : Blk} (size : ℕ) (hinv : Mem.HeapInv c.mem m bs) (hb : BlockAt 0 bs o b) (hused : b.used = true)
    (hsize : c.mem.sizeofStructMem + size ≤ b.len) :
    ∃ m' bs' a, Mem.memTrim c.mem m (c.mem.ram + o + c.mem.sizeofStructMem) size =
        (c.mem.ram + o + c.mem.sizeofStructMem, m') ∧
      Mem.HeapInv c.mem m' bs' ∧ Mem.Preserves c.mem m.mem m'.mem bs bs' {o} ∧
      BlockAt 0 bs' o ⟨a, true⟩ ∧ c.mem.sizeofStructMem + size ≤ a ∧ Mem.CutLen c.mem b.len size a ∧
      AgreeOn m.mem m'.mem (o + c.mem.sizeofStructMem) (o + c.mem.sizeofStructMem + size) := by
  have hfits := Mem.fits_of_room hinv hb hsize
  have hle := hfits.le_memAlignSize
  obtain ⟨n, u⟩ := b
  obtain rfl : u = true := hused
  obtain ⟨l₀, r₀, rfl, rfl⟩ := hb.exists_split
  rw [Nat.zero_add]
  obtain ⟨m', a, rest, hrun, htrim, hlen⟩ := Mem.memTrim_fits hinv
    (dataSize_le (hinv.good _ hb.mem) hsize)
  have hb' : BlockAt 0 (l₀ ++ ⟨a, true⟩ :: rest) (total l₀) ⟨a, true⟩ := by
    have hmid := blockAt_mid 0 l₀ rest ⟨a, true⟩
    rwa [Nat.zero_add] at hmid
  obtain ⟨b', hb₁, -, hroom⟩ := htrim.room
  obtain rfl := hb₁.unique c.mem.sizeofStructMem_pos (Mem.minLen_of_good htrim.inv.good) hb'
  exact ⟨m', _, a, hrun, htrim.inv, htrim.preserves, hb', by simp only at hroom; omega, hlen,
    fun x hx hx' => htrim.data x hx (by omega)⟩

/-! ## The rest of the chain -/

/-- On the pbufs, the end of `pbuf_realloc` is that of the model of the chains, and it gives back the pbufs that it
frees. -/
theorem Store.freeRest_eq (hnull : 0 ∉ k.allocated) (hrun : Pbufs.freeRest k q = some h')
    (hfreed : Freed (k.set q fun b => { b with next := 0 }) (k.next q) lf r h') (hq : q ∉ lf) (hqr : q ≠ r) (a : Pools) :
    Store.freeRest c ⟨k, a⟩ q = some ⟨h', a.releaseAll c k.pbuf lf⟩ := by
  have hlf0 : 0 ∉ lf := fun h0 => hnull (hfreed.allocated_of_mem 0 h0)
  have hsame : ∀ x, x ≠ q → (k.set q fun b => { b with next := 0 }).pbuf x = k.pbuf x := fun x hx => pbuf_set_of_ne _ _ hx
  have hne : ∀ x ∈ lf, x ≠ q := fun x hx heq => hq (heq ▸ hx)
  rw [Pbufs.freeRest] at hrun
  rw [Store.freeRest]
  by_cases h0 : k.next q = 0
  · have hnil : lf = [] := by
      cases lf with
      | nil => rfl
      | cons x lf =>
          have hx : k.next q = x := (path_cons.mp hfreed.path).1
          exact absurd (hx.symm.trans h0 ▸ List.mem_cons_self) hlf0
    subst hnil
    simp only [h0, if_true, Option.bind_eq_bind, Option.bind_some, Option.some.injEq] at hrun ⊢
    rw [hrun]
    rfl
  · have hpath : Path k.next (k.next q) lf r := by
      refine (path_congr fun x hx => ?_).mp hfreed.path
      rw [Heap.next, hsame x (hne x hx), Heap.next]
    have hone : ∀ x ∈ lf, (k.pbuf x).ref = 1 := fun x hx => by
      rw [← hsame x (hne x hx)]
      exact hfreed.ref_one x hx
    have hstop : r ≠ 0 → (k.pbuf r).ref ≠ 1 := fun hr0 => by
      rw [← hsame r hqr.symm]
      exact (hfreed.ref_ne_one hr0).2
    have hr : r ∉ lf := fun hm => by
      have hr0 : r ≠ 0 := fun heq => hlf0 (heq ▸ hm)
      exact hstop hr0 (hone r hm)
    rw [if_neg h0] at hrun ⊢
    rw [Store.pbufFree, Store.pbufFreeLoop_eq hpath hlf0 hr hone hstop]
    rw [Pbufs.pbufFree] at hrun
    obtain ⟨⟨n, k'⟩, hloop, heq⟩ := Option.bind_eq_some_iff.mp hrun
    rw [hloop]
    obtain rfl := Option.some.inj heq
    rfl

/-- What is left of the references to the rest of the chain. -/
theorem CutAt.released (hcut : CutAt s.pbufs p newLen l₁ q l₂ rem k h' lf r) (hl : Chain s.pbufs p (l₁ ++ q :: l₂))
    (hpools : ∃ heap, a = Pools.releaseAll c s.pbufs.pbuf lf { s.pools with heap }) :
    ∃ kept, RestReleased c s ⟨h', a⟩ (l₁ ++ [q]) l₂ lf kept := by
  obtain ⟨kept, rfl, hkept⟩ := hcut.split
  have hnd := List.nodup_append.mp (hl.path.nodup hl.null)
  have hq₂ : q ∉ lf ++ kept := (List.nodup_cons.mp hnd.2.1).1
  have hfreed := hcut.freed
  generalize hk : ((k.set q fun b => { b with len := rem, totLen := rem }).set q fun b => { b with next := 0 }) = k₂
    at hfreed
  have hsame : ∀ x, x ∉ l₁ → x ≠ q → k₂.pbuf x = s.pbufs.pbuf x := by
    intro x hx hxq
    rw [← hk, pbuf_set_of_ne _ _ hxq, pbuf_set_of_ne _ _ hxq, hcut.outside x hx]
  have hrest : ∀ x ∈ lf ++ kept, k₂.pbuf x = s.pbufs.pbuf x := fun x hx =>
    hsame x (fun hm => hnd.2.2 x hm x (List.mem_cons_of_mem q hx) rfl) fun heq => hq₂ (heq ▸ hx)
  refine ⟨kept, rfl, ?_, ?_, ?_, ?_, hpools⟩
  · intro x hx
    rw [← hrest x (List.mem_append_left kept hx)]
    exact hfreed.ref_one x hx
  · rw [hfreed.allocated, ← hk, allocated_set, allocated_set, hcut.allocated]
  · intro y hy
    rcases hkept with ⟨rfl, -⟩ | ⟨t, rfl⟩
    · cases hy
    · obtain rfl : r = y := Option.some.inj hy
      have hr0 : r ≠ 0 := fun h0 => hl.null (List.mem_append_right l₁ (List.mem_cons_of_mem q
        (List.mem_append_right lf (h0 ▸ List.mem_cons_self))))
      rw [← hrest r (List.mem_append_right lf List.mem_cons_self)]
      exact ⟨(hfreed.ref_ne_one hr0).2, hfreed.drop hr0⟩
  · intro x hx0 hxl hxf hxr
    obtain ⟨hx₁, hxq⟩ := not_or.mp (List.mem_append.not.mp hxl)
    have hne : x ≠ r := by
      rcases hkept with ⟨-, rfl⟩ | ⟨t, rfl⟩
      · exact hx0
      · exact fun heq => hxr (heq ▸ rfl)
    rw [hfreed.others x hxf hne, hsame x hx₁ fun heq => hxq (List.mem_singleton.mpr heq)]

/-! ## What is left -/

/-- A part of the data of a block. -/
theorem InBlock.mono {stop' : ℕ} (hin : InBlock c bs o start stop) (hle : stop' ≤ stop) : InBlock c bs o start stop' := by
  obtain ⟨b, hb, hused, hlow, hhigh⟩ := hin
  exact ⟨b, hb, hused, hlow, hle.trans hhigh⟩

/-- A pbuf that stays, with no more bytes than before, is where it may be and keeps its bytes when the block that they are
in keeps them. -/
theorem Placed.keep (hplaced : Placed c s bs l x) (hpayload : (s'.pbufs.pbuf x).payload = (s.pbufs.pbuf x).payload)
    (htype : (s'.pbufs.pbuf x).type = (s.pbufs.pbuf x).type) (hflags : (s'.pbufs.pbuf x).flags = (s.pbufs.pbuf x).flags)
    (hlen : (s'.pbufs.pbuf x).len.toNat ≤ (s.pbufs.pbuf x).len.toNat) (hsub : ∀ y ∈ l', y ∈ l)
    (hkeep : ∀ o, ((s.pbufs.pbuf x).type = .ram ∧ ¬IsCustom c (s.pbufs.pbuf x)) ∧
          x = c.mem.ram + o + c.mem.sizeofStructMem ∨ c.mem.ram + o + c.mem.sizeofStructMem ∉ l →
        InBlock c bs o (s.pbufs.pbuf x).payload ((s.pbufs.pbuf x).payload + (s'.pbufs.pbuf x).len.toNat) →
        InBlock c bs' o (s.pbufs.pbuf x).payload ((s.pbufs.pbuf x).payload + (s'.pbufs.pbuf x).len.toNat) ∧
        ∀ y, (s.pbufs.pbuf x).payload ≤ y → y < (s.pbufs.pbuf x).payload + (s'.pbufs.pbuf x).len.toNat →
          s'.pools.heap.mem (y - c.mem.ram) = s.pools.heap.mem (y - c.mem.ram)) :
    Placed c s' bs' l' x ∧ ∀ i < (s'.pbufs.pbuf x).len.toNat, s'.data c ext x i = s.data c ext x i := by
  have hcustom : IsCustom c (s'.pbufs.pbuf x) ↔ IsCustom c (s.pbufs.pbuf x) := isCustom_congr hflags
  have hbytes : (∃ o, InBlock c bs' o (s.pbufs.pbuf x).payload ((s.pbufs.pbuf x).payload + (s'.pbufs.pbuf x).len.toNat) ∧
        ∀ y, (s.pbufs.pbuf x).payload ≤ y → y < (s.pbufs.pbuf x).payload + (s'.pbufs.pbuf x).len.toNat →
          s'.pools.heap.mem (y - c.mem.ram) = s.pools.heap.mem (y - c.mem.ram)) ∨
      (s.pbufs.pbuf x).payload + (s.pbufs.pbuf x).len.toNat ≤ c.mem.ram ∨
        c.mem.ram + c.mem.memSizeAligned + c.mem.sizeofStructMem ≤ (s.pbufs.pbuf x).payload →
      ∀ i < (s'.pbufs.pbuf x).len.toNat, s'.data c ext x i = s.data c ext x i := by
    intro hwhere i hi
    rw [Store.data, Store.data, hpayload, Store.byte, Store.byte]
    split
    · rcases hwhere with ⟨o, -, hsame⟩ | hout | hout
      · exact hsame _ (Nat.le_add_right _ _) (Nat.add_lt_add_left hi _)
      · omega
      · omega
    · rfl
  by_cases hram : (s.pbufs.pbuf x).type = .ram ∧ ¬IsCustom c (s.pbufs.pbuf x)
  · -- the payload lies in the block of the pbuf itself
    obtain ⟨o, hxo, hstruct, hin⟩ := hplaced.ram hram.1 hram.2
    obtain ⟨hin', hsame⟩ := hkeep o (.inl ⟨hram, hxo⟩) (hin.mono (Nat.add_le_add_left hlen _))
    refine ⟨⟨fun _ _ => ⟨o, hxo, hpayload ▸ hstruct, hpayload ▸ hin'⟩, ?_, ?_⟩, hbytes (.inl ⟨o, hin', hsame⟩)⟩
    · exact fun _ hc => absurd (hcustom.mp hc) hram.2
    · exact fun hother => absurd ⟨htype.trans hram.1, hcustom.not.mpr hram.2⟩ hother
  · have hother := hplaced.other hram
    have hram' : (s'.pbufs.pbuf x).type = .ram → ¬IsCustom c (s'.pbufs.pbuf x) → False := fun htype' hc =>
      hram ⟨htype ▸ htype', hcustom.not.mp hc⟩
    have hcustom' : (s'.pbufs.pbuf x).type = .ram → IsCustom c (s'.pbufs.pbuf x) →
        x < c.mem.ram ∨ c.mem.ram + c.mem.memSizeAligned ≤ x := fun htype' hc =>
      hplaced.custom (htype ▸ htype') (hcustom.mp hc)
    -- it lies outside the heap, as in a PBUF_ROM or PBUF_POOL pbuf
    rcases hother with hout | ⟨o, hol, hin⟩
    · refine ⟨⟨fun htype' hc => (hram' htype' hc).elim, hcustom', fun _ => .inl ?_⟩, hbytes (.inr hout)⟩
      rw [hpayload]
      omega
    · -- it lies in a block of the heap that another owner holds
      obtain ⟨hin', hsame⟩ := hkeep o (.inr hol) (hin.mono (Nat.add_le_add_left hlen _))
      refine ⟨⟨fun htype' hc => (hram' htype' hc).elim, hcustom', fun _ => .inr ⟨o, fun hm => hol (hsub _ hm), ?_⟩⟩,
        hbytes (.inl ⟨o, hin', hsame⟩)⟩
      rw [hpayload]
      exact hin'

/-- The last pbuf `q` keeps its first `rem` bytes in the heap `m` that `mem_trim` left. -/
def LastKept (c : StoreConfig) (s : Store) (m : Mem.Heap) (bs : List Blk) (q : ℕ) (rem : UInt16) : Prop :=
  (s.pbufs.pbuf q).type = .ram → ¬IsCustom c (s.pbufs.pbuf q) → ∃ o, q = c.mem.ram + o + c.mem.sizeofStructMem ∧
    InBlock c bs o (s.pbufs.pbuf q).payload ((s.pbufs.pbuf q).payload + rem.toNat) ∧
    ∀ y, (s.pbufs.pbuf q).payload ≤ y → y < (s.pbufs.pbuf q).payload + rem.toNat →
      m.mem (y - c.mem.ram) = s.pools.heap.mem (y - c.mem.ram)

/-- The pbufs behind the last one are freed and given back, whatever heap `m` there is. -/
theorem CutAt.freeRest_eq (hok : ChainOk c s bs owner p (l₁ ++ q :: l₂))
    (hcut : CutAt s.pbufs p newLen l₁ q l₂ rem k h' lf r) (m : Mem.Heap) :
    Store.freeRest c ⟨k.set q fun b => { b with len := rem, totLen := rem }, { s.pools with heap := m }⟩ q =
      some ⟨h', Pools.releaseAll c s.pbufs.pbuf lf { s.pools with heap := m }⟩ := by
  have hnd := List.nodup_append.mp (hok.chain.path.nodup hok.chain.null)
  have hq₂ : q ∉ l₂ := (List.nodup_cons.mp hnd.2.1).1
  have hq0 : q ≠ 0 := fun h0 => hok.chain.null (List.mem_append_right l₁ (h0 ▸ List.mem_cons_self))
  obtain ⟨kept, hl₂, hkept⟩ := hcut.split
  have hlf : ∀ x ∈ lf, x ∈ l₂ := fun x hx => hl₂ ▸ List.mem_append_left kept hx
  have hqr : q ≠ r := by
    rcases hkept with ⟨-, rfl⟩ | ⟨t, rfl⟩
    · exact hq0
    · exact fun heq => hq₂ (hl₂ ▸ List.mem_append_right lf (heq ▸ List.mem_cons_self))
  generalize hk : (k.set q fun b => { b with len := rem, totLen := rem }) = k₁
  have hfreed := hcut.freed
  have hrest := hcut.rest
  rw [hk] at hfreed hrest
  have hnext : k₁.next q = s.pbufs.next q := by
    rw [← hk, Heap.next, pbuf_set_self, hcut.same, Heap.next]
  have halloc : k₁.allocated = s.pbufs.allocated := by
    rw [← hk, allocated_set, hcut.allocated]
  rw [← hnext] at hfreed
  have hrun := Store.freeRest_eq (c := c) (halloc ▸ hok.counted.null) hrest hfreed (fun hm => hq₂ (hlf q hm)) hqr
    { s.pools with heap := m }
  have hpbuf : ∀ x ∈ lf, k₁.pbuf x = s.pbufs.pbuf x := by
    intro x hx
    have hxq : x ≠ q := fun heq => hq₂ (heq ▸ hlf x hx)
    have hx₁ : x ∉ l₁ := fun hm => hnd.2.2 x hm x (List.mem_cons_of_mem q (hlf x hx)) rfl
    rw [← hk, pbuf_set_of_ne _ _ hxq, hcut.outside x hx₁]
  have hrelease : Pools.releaseAll c k₁.pbuf lf { s.pools with heap := m } =
      Pools.releaseAll c s.pbufs.pbuf lf { s.pools with heap := m } :=
    releaseAll_congr fun x hx => by rw [hpbuf x hx]; exact ⟨rfl, rfl⟩
  rw [hrun, hrelease]

/-- The pbufs behind the last one are freed, with the heap that `mem_trim` left: `bs'` are the blocks then. -/
theorem CutAt.freeRest (hok : ChainOk c s bs owner p (l₁ ++ q :: l₂))
    (hcut : CutAt s.pbufs p newLen l₁ q l₂ rem k h' lf r) (hinv : Mem.HeapInv c.mem m bs₁)
    (hpres : Mem.Preserves c.mem s.pools.heap.mem m.mem bs bs₁ {o | q = c.mem.ram + o + c.mem.sizeofStructMem}) :
    ∃ a bs', Store.freeRest c ⟨k.set q fun b => { b with len := rem, totLen := rem }, { s.pools with heap := m }⟩ q =
        some ⟨h', a⟩ ∧
      a = Pools.releaseAll c s.pbufs.pbuf lf { s.pools with heap := m } ∧ Mem.HeapInv c.mem a.heap bs' ∧
      Mem.Preserves c.mem m.mem a.heap.mem bs₁ bs' {o | c.mem.ram + o + c.mem.sizeofStructMem ∈ lf} := by
  have hnd := List.nodup_append.mp (hok.chain.path.nodup hok.chain.null)
  have hq₂ : q ∉ l₂ := (List.nodup_cons.mp hnd.2.1).1
  obtain ⟨kept, hl₂, -⟩ := hcut.split
  have hlf : ∀ x ∈ lf, x ∈ l₂ := fun x hx => hl₂ ▸ List.mem_append_left kept hx
  have hl : ∀ x ∈ lf, x ∈ l₁ ++ q :: l₂ := fun x hx => List.mem_append_right l₁ (List.mem_cons_of_mem q (hlf x hx))
  obtain ⟨bs', hinv', hpres'⟩ := releaseAll_heap (a := { s.pools with heap := m }) s.pbufs.pbuf hinv
    ((List.nodup_append.mp (hl₂ ▸ (List.nodup_cons.mp hnd.2.1).2)).1) fun x hx htype hcustom => by
      obtain ⟨o, hxo, -, b, hb, hused, -⟩ := (hok.placed x (hl x hx)).ram htype hcustom
      have hoq : q ≠ c.mem.ram + o + c.mem.sizeofStructMem := fun heq => hq₂ (heq ▸ hxo ▸ hlf x hx)
      exact ⟨o, b, hxo, (hpres o b hb hused hoq).1, hused⟩
  exact ⟨_, bs', hcut.freeRest_eq hok m, rfl, hinv', hpres'⟩

/-- The pbufs that stay were in the chain. -/
theorem mem_of_mem_cut (hx : x ∈ l₁ ++ [q]) : x ∈ l₁ ++ q :: l₂ := by
  rcases List.mem_append.mp hx with hx | hx
  · exact List.mem_append_left _ hx
  · exact List.mem_append_right _ (List.mem_singleton.mp hx ▸ List.mem_cons_self)

/-- The pbufs that stay keep all but their lengths and the link of the last one. -/
theorem CutAt.keeps (hcut : CutAt s.pbufs p newLen l₁ q l₂ rem k h' lf r) (hx : x ∈ l₁ ++ [q]) :
    (h'.pbuf x).payload = (s.pbufs.pbuf x).payload ∧ (h'.pbuf x).type = (s.pbufs.pbuf x).type ∧
      (h'.pbuf x).flags = (s.pbufs.pbuf x).flags ∧ (h'.pbuf x).ref = (s.pbufs.pbuf x).ref := by
  rcases List.mem_append.mp hx with hx | hx
  · rw [hcut.inside x hx]
    exact ⟨rfl, rfl, rfl, rfl⟩
  · obtain rfl := List.mem_singleton.mp hx
    rw [hcut.last]
    exact ⟨rfl, rfl, rfl, rfl⟩

/-- No pbuf grows. -/
theorem CutAt.len_le (hcut : CutAt s.pbufs p newLen l₁ q l₂ rem k h' lf r) (hx : x ∈ l₁ ++ [q]) :
    (h'.pbuf x).len.toNat ≤ (s.pbufs.pbuf x).len.toNat := by
  rcases List.mem_append.mp hx with hx | hx
  · rw [hcut.inside x hx]
  · obtain rfl := List.mem_singleton.mp hx
    rw [hcut.last]
    exact UInt16.le_iff_toNat_le.mp hcut.le

/-- The pbufs that are freed were behind the last one. -/
theorem CutAt.mem_of_freed (hcut : CutAt s.pbufs p newLen l₁ q l₂ rem k h' lf r) (hx : x ∈ lf) : x ∈ l₂ := by
  obtain ⟨kept, hl₂, -⟩ := hcut.split
  exact hl₂ ▸ List.mem_append_left kept hx

/-- Blocks that are neither cut nor given back keep their bytes. -/
theorem InBlock.keepBoth (hin : InBlock c bs o start stop)
    (hpres : Mem.Preserves c.mem s.pools.heap.mem m.mem bs bs₁ {o | q = c.mem.ram + o + c.mem.sizeofStructMem})
    (hpres' : Mem.Preserves c.mem m.mem a.heap.mem bs₁ bs' {o | c.mem.ram + o + c.mem.sizeofStructMem ∈ lf})
    (hoq : c.mem.ram + o + c.mem.sizeofStructMem ≠ q) (hof : c.mem.ram + o + c.mem.sizeofStructMem ∉ lf) :
    InBlock c bs' o start stop ∧
      ∀ y, start ≤ y → y < stop → a.heap.mem (y - c.mem.ram) = s.pools.heap.mem (y - c.mem.ram) := by
  obtain ⟨hin₁, hsame₁⟩ := hin.keep hpres fun heq => hoq heq.symm
  obtain ⟨hin₂, hsame₂⟩ := hin₁.keep hpres' hof
  exact ⟨hin₂, fun y hy hy' => (hsame₂ y hy hy').trans (hsame₁ y hy hy')⟩

/-- The pbufs that stay are where they were, with their bytes. -/
theorem CutAt.placed (hok : ChainOk c s bs owner p (l₁ ++ q :: l₂))
    (hcut : CutAt s.pbufs p newLen l₁ q l₂ rem k h' lf r)
    (hpres : Mem.Preserves c.mem s.pools.heap.mem m.mem bs bs₁ {o | q = c.mem.ram + o + c.mem.sizeofStructMem})
    (hpres' : Mem.Preserves c.mem m.mem a.heap.mem bs₁ bs' {o | c.mem.ram + o + c.mem.sizeofStructMem ∈ lf})
    (hlast : LastKept c s m bs₁ q rem) (hx : x ∈ l₁ ++ [q]) :
    Placed c ⟨h', a⟩ bs' (l₁ ++ [q]) x ∧
      ∀ i < (h'.pbuf x).len.toNat, Store.data c ext ⟨h', a⟩ x i = s.data c ext x i := by
  have hnd := List.nodup_append.mp (hok.chain.path.nodup hok.chain.null)
  have hx₂ : x ∉ l₂ := by
    rcases List.mem_append.mp hx with hx | hx
    · exact fun hm => hnd.2.2 x hx x (List.mem_cons_of_mem q hm) rfl
    · exact List.mem_singleton.mp hx ▸ (List.nodup_cons.mp hnd.2.1).1
  obtain ⟨hpayload, htype, hflags, -⟩ := hcut.keeps hx
  refine (hok.placed x (mem_of_mem_cut hx)).keep hpayload htype hflags (hcut.len_le hx) (fun y hy => mem_of_mem_cut hy)
    fun o ho hin => ?_
  rcases ho with ⟨⟨hram, hcustom⟩, hxo⟩ | hol
  · have hof : c.mem.ram + o + c.mem.sizeofStructMem ∉ lf := fun hm => hx₂ (hxo ▸ hcut.mem_of_freed hm)
    by_cases hxq : x = q
    · -- the block that was cut
      subst hxq
      obtain ⟨o', hxo', hin₁, hsame₁⟩ := hlast hram hcustom
      obtain rfl : o = o' := by omega
      have hrem : (h'.pbuf x).len = rem := by rw [hcut.last]
      rw [← hrem] at hin₁ hsame₁
      obtain ⟨hin₂, hsame₂⟩ := hin₁.keep hpres' hof
      exact ⟨hin₂, fun y hy hy' => (hsame₂ y hy hy').trans (hsame₁ y hy hy')⟩
    · exact hin.keepBoth hpres hpres' (fun heq => hxq (hxo.trans heq)) hof
  · refine hin.keepBoth hpres hpres' (fun heq => hol (heq ▸ ?_)) fun hm => hol ?_
    · exact List.mem_append_right l₁ List.mem_cons_self
    · exact List.mem_append_right l₁ (List.mem_cons_of_mem q (hcut.mem_of_freed hm))

/-- What is left when the last pbuf keeps its bytes. -/
theorem CutAt.shortened (hok : ChainOk c s bs owner p (l₁ ++ q :: l₂))
    (hcut : CutAt s.pbufs p newLen l₁ q l₂ rem k h' lf r) (hc' : Counted h' owner)
    (hlt : newLen < (s.pbufs.pbuf p).totLen)
    (hpres : Mem.Preserves c.mem s.pools.heap.mem m.mem bs bs₁ {o | q = c.mem.ram + o + c.mem.sizeofStructMem})
    (ha : a = Pools.releaseAll c s.pbufs.pbuf lf { s.pools with heap := m }) (hinv' : Mem.HeapInv c.mem a.heap bs')
    (hpres' : Mem.Preserves c.mem m.mem a.heap.mem bs₁ bs' {o | c.mem.ram + o + c.mem.sizeofStructMem ∈ lf})
    (hlast : LastKept c s m bs₁ q rem) :
    Shortened c ext s owner p newLen ⟨h', a⟩ bs' (l₁ ++ [q]) l₂ := by
  have hall : ∀ x ∈ l₁ ++ [q], Placed c ⟨h', a⟩ bs' (l₁ ++ [q]) x ∧
      ∀ i < (h'.pbuf x).len.toNat, Store.data c ext ⟨h', a⟩ x i = s.data c ext x i :=
    fun x hx => hcut.placed hok hpres hpres' hlast hx
  have hcut' : Cut s.pbufs (s.data c ext) l₁ q (newLen - (s.pbufs.pbuf p).totLen) rem h' (Store.data c ext ⟨h', a⟩) := by
    refine ⟨hcut.inside, hcut.last, fun x hx i hi => ?_, fun i hi => ?_⟩
    · have hx' := List.mem_append_left [q] hx
      exact (hall x hx').2 i (by rw [hcut.inside x hx]; exact hi)
    · exact (hall q (List.mem_append_right l₁ List.mem_cons_self)).2 i (by rw [hcut.last]; exact hi)
  obtain ⟨lp, hlp, htotal⟩ := hok.totals p (hok.chain.self_mem (hok.counted.ne_null hok.allocated))
  obtain rfl := hlp.unique hok.chain
  obtain ⟨-, hp'⟩ := hcut.head_mem hok.chain hok.allocated
  constructor
  · constructor
    · exact hc'
    · exact hinv'
    · exact hcut'.chain (fun x hx => hx) hok.chain
    · exact hp'
    · exact hcut'.totals hok.chain hok.totals htotal hlt hcut.sum hcut.le
    · exact fun x hx => (hall x hx).1
  · rw [← hcut.sum, List.append_assoc, List.singleton_append]
    exact hcut'.bytes hcut.le
  · exact fun x hx => hcut.keeps hx
  · exact ⟨lf, hcut.released hok.chain ⟨m, ha⟩⟩

/-! ## The sizes -/

/-- The alignment is small against 2^16: an element of the pool has room for the headers and a multiple of it more. -/
theorem memAlignment_le (c : StoreConfig) : c.mem.memAlignment ≤ 2 ^ 14 := by
  have hA := c.pbufs.isAlignment
  have hlt := add_le_of_lt_of_dvd (dvd_alignUp hA _) c.dvd_pbufPoolBufsizeAligned c.pbufs.headers_fit
  have hoffset : 0 < alignUp c.pbufs.memAlignment PbufLayer.transport.offset :=
    lt_of_lt_of_le (by decide) (le_alignUp hA PbufLayer.transport.offset)
  have hle := Nat.le_of_dvd hoffset (dvd_alignUp hA _)
  have hbound := c.pbufs.bufsize_lt
  rw [c.memAlignment_eq]
  obtain ⟨e, he⟩ := hA
  have hpow : 2 ^ e < 2 ^ 15 := by
    rw [← he]
    omega
  have he15 : e < 15 := (Nat.pow_lt_pow_iff_right one_lt_two).mp hpow
  rw [he]
  exact Nat.pow_le_pow_right two_pos (Nat.le_of_lt_succ he15)

/-- The size for `mem_trim` is no more than the distance and the rest. -/
theorem trimSize_le (c : StoreConfig) (b : Pbuf) (q n : ℕ) : trimSize c b q n ≤ (b.payload + 2 ^ 32 - q) % 2 ^ 16 + n :=
  Nat.mod_le _ _

/-- Within 2^16 bytes the size for `mem_trim` is what it should be. -/
theorem trimSize_eq {b : Pbuf} {n : ℕ} (hq : q ≤ b.payload) (hnear : b.payload < q + 2 ^ 16)
    (hlt : b.payload - q + n < 256 ^ c.mem.memSizeT) : trimSize c b q n = b.payload - q + n := by
  have hmod : (b.payload + 2 ^ 32 - q) % 2 ^ 16 = b.payload - q := by omega
  rw [trimSize, hmod, Nat.mod_eq_of_lt hlt]

/-- From 2^16 bytes on the block is cut in front of the bytes that should stay. -/
theorem dataSize_trimSize_le {b : Pbuf} {n : ℕ} (hfar : ¬b.payload < q + 2 ^ 16) :
    Mem.dataSize c.mem (trimSize c b q n) + c.mem.sizeofStructMem + c.mem.minSizeAligned ≤ b.payload - q + n := by
  have hA := memAlignment_le c
  have hsize := trimSize_le c b q n
  have hup := alignUp_lt c.mem.isAlignment (trimSize c b q n)
  have hmod : c.mem.memAlignSize (trimSize c b q n) ≤ alignUp c.mem.memAlignment (trimSize c b q n) := Nat.mod_le _ _
  have hmin : c.mem.minSizeAligned < 12 + c.mem.memAlignment := alignUp_lt c.mem.isAlignment 12
  have hheader : c.mem.sizeofStructMem ≤ c.mem.minSizeAligned := by
    refine alignUp_mono c.mem.isAlignment ?_
    rcases c.mem.memSizeT_eq with h | h
    · omega
    · omega
  have hdiff : (b.payload + 2 ^ 32 - q) % 2 ^ 16 + 2 ^ 16 ≤ b.payload - q := by omega
  rw [Mem.dataSize]
  split
  · omega
  · omega

/-! ## The cut -/

/-- A chain is cut at one place only. -/
theorem cut_unique {q' n : ℕ} {l₁' l₂' : List ℕ} (hsplit : l₁ ++ q :: l₂ = l₁' ++ q' :: l₂')
    (hfirst : l₁ = [] ∨ chainSum h l₁ < n) (hlt : n < chainSum h l₁ + (h.pbuf q).len.toNat)
    (hfirst' : l₁' = [] ∨ chainSum h l₁' < n) (hle : n ≤ chainSum h l₁' + (h.pbuf q').len.toNat) :
    l₁ = l₁' ∧ q = q' := by
  rcases List.append_eq_append_iff.mp hsplit with ⟨as, rfl, hrest⟩ | ⟨as, rfl, hrest⟩
  · cases as with
    | nil => exact ⟨(List.append_nil _).symm, (List.cons.inj hrest).1⟩
    | cons y as =>
        obtain ⟨rfl, -⟩ := List.cons.inj hrest
        have hsum := hfirst'.resolve_left (by simp)
        rw [chainSum_append, chainSum_cons] at hsum
        omega
  · cases as with
    | nil => exact ⟨List.append_nil _, (List.cons.inj hrest).1.symm⟩
    | cons y as =>
        obtain ⟨rfl, -⟩ := List.cons.inj hrest
        have hsum := hfirst.resolve_left (by simp)
        rw [chainSum_append, chainSum_cons] at hsum
        omega

/-- What is said of the pbuf in which the cut is, is said of the one in which the loop stops. -/
theorem CutAt.forall_cut_iff (hcut : CutAt s.pbufs p newLen l₁ q l₂ rem k h' lf r) (P : ℕ → ℕ → Prop) :
    (∀ l₁' q' l₂', l₁ ++ q :: l₂ = l₁' ++ q' :: l₂' → (l₁' = [] ∨ chainSum s.pbufs l₁' < newLen.toNat) →
      newLen.toNat < chainSum s.pbufs l₁' + (s.pbufs.pbuf q').len.toNat → (s.pbufs.pbuf q').type = .ram →
      P q' (newLen.toNat - chainSum s.pbufs l₁')) ↔
    ((s.pbufs.pbuf q).type = .ram → rem ≠ (s.pbufs.pbuf q).len → P q rem.toNat) := by
  have hsum := hcut.sum
  have hle := UInt16.le_iff_toNat_le.mp hcut.le
  have hfirst : l₁ = [] ∨ chainSum s.pbufs l₁ < newLen.toNat := hcut.first.imp_right fun hpos => by omega
  have hrem : newLen.toNat - chainSum s.pbufs l₁ = rem.toNat := by omega
  constructor
  · intro hall htype hne
    have hne' : rem.toNat ≠ (s.pbufs.pbuf q).len.toNat := fun heq => hne (UInt16.toNat_inj.mp heq)
    have hP := hall l₁ q l₂ rfl hfirst (by omega) htype
    rwa [hrem] at hP
  · intro hP l₁' q' l₂' hsplit hfirst' hlt htype
    obtain ⟨rfl, rfl⟩ := cut_unique hsplit.symm hfirst' hlt hfirst (by omega)
    rw [hrem]
    refine hP htype fun heq => ?_
    rw [← heq] at hlt
    omega

/-- The condition, at the pbuf where the cut is. -/
theorem CutAt.fits_iff (hcut : CutAt s.pbufs p newLen l₁ q l₂ rem k h' lf r) :
    ReallocFits c s (l₁ ++ q :: l₂) newLen ↔
      ((s.pbufs.pbuf q).type = .ram → rem ≠ (s.pbufs.pbuf q).len → TrimOk c (s.pbufs.pbuf q) q rem.toNat) :=
  hcut.forall_cut_iff fun q rem => TrimOk c (s.pbufs.pbuf q) q rem

/-- The condition to return, at the pbuf where the cut is. -/
theorem CutAt.returns_iff (hcut : CutAt s.pbufs p newLen l₁ q l₂ rem k h' lf r) :
    ReallocReturns c s (l₁ ++ q :: l₂) newLen ↔
      ((s.pbufs.pbuf q).type = .ram → rem ≠ (s.pbufs.pbuf q).len → TrimReturns c (s.pbufs.pbuf q) q rem.toNat) :=
  hcut.forall_cut_iff fun q rem => TrimReturns c (s.pbufs.pbuf q) q rem

/-- The run of `pbuf_realloc`, from what becomes of the block of the last pbuf on. -/
theorem CutAt.run (hcut : CutAt s.pbufs p newLen l₁ q l₂ rem k h' lf r) (hp : p ∈ s.pbufs.allocated)
    (hlt : newLen < (s.pbufs.pbuf p).totLen) {q' : ℕ}
    (htrim : (if (s.pbufs.pbuf q).type = .ram ∧ rem ≠ (s.pbufs.pbuf q).len then
      Mem.memTrim c.mem s.pools.heap q (trimSize c (s.pbufs.pbuf q) q rem.toNat) else (q, s.pools.heap)) = (q', m)) :
    s.pbufRealloc c p newLen = if q' = 0 then none
      else Store.freeRest c ⟨k.set q' fun b => { b with len := rem, totLen := rem }, { s.pools with heap := m }⟩ q' := by
  rw [Store.pbufRealloc, use_eq hp]
  simp only [if_neg (UInt16.not_le.mpr hlt), hcut.loop, Option.bind_eq_bind, Option.bind_some, hcut.same, htrim]

/-- `mem_trim` returns the pbuf, or `NULL` when the size is too large for a custom one. -/
theorem memTrim_fst (hplaced : Placed c s bs l q) (hinv : Mem.HeapInv c.mem s.pools.heap bs)
    (htype : (s.pbufs.pbuf q).type = .ram) (hle : rem ≤ (s.pbufs.pbuf q).len) :
    (TrimReturns c (s.pbufs.pbuf q) q rem.toNat →
      (Mem.memTrim c.mem s.pools.heap q (trimSize c (s.pbufs.pbuf q) q rem.toNat)).1 = q) ∧
    (¬TrimReturns c (s.pbufs.pbuf q) q rem.toNat →
      (Mem.memTrim c.mem s.pools.heap q (trimSize c (s.pbufs.pbuf q) q rem.toNat)).1 = 0) := by
  by_cases hcustom : IsCustom c (s.pbufs.pbuf q)
  · have hrun : Mem.memTrim c.mem s.pools.heap q (trimSize c (s.pbufs.pbuf q) q rem.toNat) =
        if c.mem.memSizeAligned < Mem.dataSize c.mem (trimSize c (s.pbufs.pbuf q) q rem.toNat) then (0, s.pools.heap)
        else (q, s.pools.heap) := by
      rw [Mem.memTrim, if_pos (hplaced.custom htype hcustom)]
      rfl
    rw [hrun, TrimReturns, imp_iff_right hcustom]
    constructor
    · intro hsmall
      rw [if_neg (Nat.not_lt.mpr hsmall)]
    · intro hlarge
      rw [if_pos (Nat.not_le.mp hlarge)]
  · obtain ⟨o, hqo, hstruct, b, hb, hused, hlow, hhigh⟩ := hplaced.ram htype hcustom
    have hle' := UInt16.le_iff_toNat_le.mp hle
    have hlen := hinv.len_le hb
    have hrange := c.mem.memSizeAligned_lt_two_pow
    have hsize := trimSize_le c (s.pbufs.pbuf q) q rem.toNat
    obtain ⟨m, bs₁, n, htrim, -⟩ := memTrim_block (trimSize c (s.pbufs.pbuf q) q rem.toNat) hinv hb hused (by omega)
    rw [← hqo] at htrim
    exact ⟨fun _ => congrArg Prod.fst htrim, fun hnot => absurd (fun hc => absurd hc hcustom) hnot⟩

/-- The pbufs that `pbuf_realloc` leaves. -/
theorem CutAt.run_eq (hok : ChainOk c s bs owner p (l₁ ++ q :: l₂))
    (hcut : CutAt s.pbufs p newLen l₁ q l₂ rem k h' lf r) (hlt : newLen < (s.pbufs.pbuf p).totLen) :
    (ReallocReturns c s (l₁ ++ q :: l₂) newLen → ∃ a, s.pbufRealloc c p newLen = some ⟨h', a⟩) ∧
      (¬ReallocReturns c s (l₁ ++ q :: l₂) newLen → s.pbufRealloc c p newLen = none) := by
  have hq0 : q ≠ 0 := fun h0 => hok.chain.null (List.mem_append_right l₁ (h0 ▸ List.mem_cons_self))
  have hplaced := hok.placed q (List.mem_append_right l₁ List.mem_cons_self)
  rw [hcut.returns_iff]
  by_cases hram : (s.pbufs.pbuf q).type = .ram ∧ rem ≠ (s.pbufs.pbuf q).len
  · obtain ⟨hkept, hnull⟩ := memTrim_fst hplaced hok.heap hram.1 hcut.le
    obtain ⟨⟨q', m⟩, htrim⟩ : ∃ trimmed, Mem.memTrim c.mem s.pools.heap q (trimSize c (s.pbufs.pbuf q) q rem.toNat) =
      trimmed := ⟨_, rfl⟩
    rw [htrim] at hkept hnull
    rw [hcut.run hok.allocated hlt ((if_pos hram).trans htrim), imp_iff_right hram.1, imp_iff_right hram.2]
    constructor
    · intro hreturns
      obtain rfl : q' = q := hkept hreturns
      exact ⟨_, (if_neg hq0).trans (hcut.freeRest_eq hok m)⟩
    · exact fun hnot => if_pos (hnull hnot)
  · rw [hcut.run hok.allocated hlt (if_neg hram), if_neg hq0]
    exact ⟨fun _ => ⟨_, hcut.freeRest_eq hok _⟩, fun hnot => absurd (fun htype hne => absurd ⟨htype, hne⟩ hram) hnot⟩

/-- The last pbuf is not cut in the heap: it has all of its bytes, or is not from there. -/
theorem CutAt.meets (hok : ChainOk c s bs owner p (l₁ ++ q :: l₂))
    (hcut : CutAt s.pbufs p newLen l₁ q l₂ rem k h' lf r) (hc' : Counted h' owner)
    (hlt : newLen < (s.pbufs.pbuf p).totLen)
    (htrim : (if (s.pbufs.pbuf q).type = .ram ∧ rem ≠ (s.pbufs.pbuf q).len then
      Mem.memTrim c.mem s.pools.heap q (trimSize c (s.pbufs.pbuf q) q rem.toNat) else (q, s.pools.heap)) = (q, m))
    (hinv : Mem.HeapInv c.mem m bs₁)
    (hpres : Mem.Preserves c.mem s.pools.heap.mem m.mem bs bs₁ {o | q = c.mem.ram + o + c.mem.sizeofStructMem})
    (hlast : LastKept c s m bs₁ q rem) :
    ∃ s', s.pbufRealloc c p newLen = some s' ∧ ReallocMeets c ext s owner p (l₁ ++ q :: l₂) newLen s' := by
  have hq0 : q ≠ 0 := fun h0 => hok.chain.null (List.mem_append_right l₁ (h0 ▸ List.mem_cons_self))
  obtain ⟨a, bs', hrun, ha, hinv', hpres'⟩ := hcut.freeRest hok hinv hpres
  refine ⟨⟨h', a⟩, ?_, bs', l₁ ++ [q], l₂, ?_, hcut.shortened hok hc' hlt hpres ha hinv' hpres' hlast⟩
  · rw [hcut.run hok.allocated hlt htrim, if_neg hq0]
    exact hrun
  · rw [List.append_assoc, List.singleton_append]

/-- When the block of the last pbuf was cut too short, what is left is not well formed. -/
theorem CutAt.not_meets {n : ℕ} (hok : ChainOk c s bs owner p (l₁ ++ q :: l₂))
    (hcut : CutAt s.pbufs p newLen l₁ q l₂ rem k h' lf r)
    (hlt : newLen < (s.pbufs.pbuf p).totLen) (htype : (s.pbufs.pbuf q).type = .ram)
    (hcustom : ¬IsCustom c (s.pbufs.pbuf q)) (hq : q = c.mem.ram + o + c.mem.sizeofStructMem)
    (htrim : (if (s.pbufs.pbuf q).type = .ram ∧ rem ≠ (s.pbufs.pbuf q).len then
      Mem.memTrim c.mem s.pools.heap q (trimSize c (s.pbufs.pbuf q) q rem.toNat) else (q, s.pools.heap)) = (q, m))
    (hinv : Mem.HeapInv c.mem m bs₁)
    (hpres : Mem.Preserves c.mem s.pools.heap.mem m.mem bs bs₁ {o | q = c.mem.ram + o + c.mem.sizeofStructMem})
    (hb : BlockAt 0 bs₁ o ⟨n, true⟩) (hshort : c.mem.ram + o + n < (s.pbufs.pbuf q).payload + rem.toNat) :
    ¬∃ s', s.pbufRealloc c p newLen = some s' ∧ ReallocMeets c ext s owner p (l₁ ++ q :: l₂) newLen s' := by
  rintro ⟨s', hrun, bs', l', rest, hsplit, hshortened⟩
  have hnd := List.nodup_append.mp (hok.chain.path.nodup hok.chain.null)
  have hq0 : q ≠ 0 := fun h0 => hok.chain.null (List.mem_append_right l₁ (h0 ▸ List.mem_cons_self))
  obtain ⟨a, bs₂, hfree, -, hinv₂, hpres₂⟩ := hcut.freeRest hok hinv hpres
  rw [hcut.run hok.allocated hlt htrim, if_neg hq0, hfree] at hrun
  obtain rfl := Option.some.inj hrun
  -- `q` is the last pbuf that is left
  have hchain : Chain h' p (l₁ ++ [q]) := by
    have hcut' : Cut s.pbufs (s.data c ext) l₁ q (newLen - (s.pbufs.pbuf p).totLen) rem h' (s.data c ext) :=
      ⟨hcut.inside, hcut.last, fun _ _ _ _ => rfl, fun _ _ => rfl⟩
    exact hcut'.chain (fun x hx => hx) hok.chain
  obtain rfl := hshortened.ok.chain.unique hchain
  have hplaced := hshortened.ok.placed q (List.mem_append_right l₁ List.mem_cons_self)
  have hqf : c.mem.ram + o + c.mem.sizeofStructMem ∉ lf := fun hm => by
    obtain ⟨kept, hl₂, -⟩ := hcut.split
    exact (List.nodup_cons.mp hnd.2.1).1 (hl₂ ▸ List.mem_append_left kept (hq ▸ hm))
  obtain ⟨o', hqo', -, b, hb', -, -, hhigh⟩ := hplaced.ram (by rw [hcut.last, htype])
    ((isCustom_congr (by rw [hcut.last])).not.mpr hcustom)
  obtain rfl : o = o' := by omega
  -- the header says how long its block is
  have hlen : b.len - c.mem.sizeofStructMem = n - c.mem.sizeofStructMem := by
    have h₁ := hshortened.ok.heap.dataLen_eq (s := ⟨a.heap, fun _ => none⟩) hb'
    have h₂ := hinv₂.dataLen_eq (s := ⟨a.heap, fun _ => none⟩) (hpres₂ o _ hb rfl hqf).1
    exact h₁.symm.trans h₂
  have hmin := Mem.minLen_of_good hshortened.ok.heap.good b hb'.mem
  have hmin' := Mem.minLen_of_good hinv.good _ hb.mem
  rw [hcut.last] at hhigh
  simp only at hhigh hmin'
  omega

/-- `pbuf_realloc` of a chain that gets shorter. -/
theorem CutAt.meets_iff (hok : ChainOk c s bs owner p (l₁ ++ q :: l₂))
    (hcut : CutAt s.pbufs p newLen l₁ q l₂ rem k h' lf r) (hc' : Counted h' owner)
    (hlt : newLen < (s.pbufs.pbuf p).totLen) :
    (∃ s', s.pbufRealloc c p newLen = some s' ∧ ReallocMeets c ext s owner p (l₁ ++ q :: l₂) newLen s') ↔
      ReallocFits c s (l₁ ++ q :: l₂) newLen := by
  have hplaced := hok.placed q (List.mem_append_right l₁ List.mem_cons_self)
  have hle := UInt16.le_iff_toNat_le.mp hcut.le
  have hkeepAll := Mem.Preserves.refl c.mem s.pools.heap.mem bs {o | q = c.mem.ram + o + c.mem.sizeofStructMem}
  rw [hcut.fits_iff]
  by_cases hram : (s.pbufs.pbuf q).type = .ram ∧ rem ≠ (s.pbufs.pbuf q).len
  case neg =>
    refine iff_of_true (hcut.meets hok hc' hlt (if_neg hram) hok.heap hkeepAll fun htype hcustom => ?_)
      fun htype hne => absurd ⟨htype, hne⟩ hram
    have hrem : rem = (s.pbufs.pbuf q).len := by
      by_contra hne
      exact hram ⟨htype, hne⟩
    obtain ⟨o, hqo, -, hin⟩ := hplaced.ram htype hcustom
    exact ⟨o, hqo, hrem ▸ hin, fun _ _ _ => rfl⟩
  rw [imp_iff_right hram.1, imp_iff_right hram.2]
  by_cases hcustom : IsCustom c (s.pbufs.pbuf q)
  · -- a custom pbuf is not in the heap, and `mem_trim` looks at the size only
    have hout := hplaced.custom hram.1 hcustom
    have htrim : Mem.memTrim c.mem s.pools.heap q (trimSize c (s.pbufs.pbuf q) q rem.toNat) =
        if c.mem.memSizeAligned < Mem.dataSize c.mem (trimSize c (s.pbufs.pbuf q) q rem.toNat) then (0, s.pools.heap)
        else (q, s.pools.heap) := by
      rw [Mem.memTrim, if_pos hout]
      rfl
    rw [TrimOk, if_pos hcustom]
    by_cases hlarge : c.mem.memSizeAligned < Mem.dataSize c.mem (trimSize c (s.pbufs.pbuf q) q rem.toNat)
    · rw [if_pos hlarge] at htrim
      refine iff_of_false ?_ (Nat.not_le.mpr hlarge)
      rintro ⟨s', hrun, -⟩
      rw [hcut.run hok.allocated hlt ((if_pos hram).trans htrim), if_pos rfl] at hrun
      cases hrun
    · rw [if_neg hlarge] at htrim
      refine iff_of_true (hcut.meets hok hc' hlt ((if_pos hram).trans htrim) hok.heap hkeepAll ?_) (Nat.not_lt.mp hlarge)
      exact fun _ hnot => absurd hcustom hnot
  · obtain ⟨o, hqo, hstruct, b, hb, hused, hlow, hhigh⟩ := hplaced.ram hram.1 hcustom
    rw [TrimOk, if_neg hcustom]
    have hlen := hok.heap.len_le hb
    have hrange := c.mem.memSizeAligned_lt
    by_cases hnear : (s.pbufs.pbuf q).payload < q + 2 ^ 16
    · have hsize : trimSize c (s.pbufs.pbuf q) q rem.toNat = (s.pbufs.pbuf q).payload - q + rem.toNat :=
        trimSize_eq (by omega) hnear (by omega)
      obtain ⟨m, bs₁, n, htrim, hinv, hpres, hb₁, hroom, -, hagree⟩ := memTrim_block
        (trimSize c (s.pbufs.pbuf q) q rem.toNat) hok.heap hb hused (by rw [hsize]; omega)
      rw [← hqo] at htrim
      refine iff_of_true (hcut.meets hok hc' hlt ((if_pos hram).trans htrim) hinv (hpres.mono ?_) fun _ _ => ?_) hnear
      · rintro o' rfl
        exact hqo
      · rw [hsize] at hroom hagree
        refine ⟨o, hqo, ⟨⟨n, true⟩, hb₁, rfl, hlow, ?_⟩, fun y hy hy' => (hagree _ ?_ ?_).symm⟩
        · show _ ≤ c.mem.ram + o + n
          omega
        · omega
        · omega
    · have hcutLen := dataSize_trimSize_le (c := c) (n := rem.toNat) hnear
      have hsize := trimSize_le c (s.pbufs.pbuf q) q rem.toNat
      obtain ⟨m, bs₁, n, htrim, hinv, hpres, hb₁, -, hn, -⟩ := memTrim_block
        (trimSize c (s.pbufs.pbuf q) q rem.toNat) hok.heap hb hused (by omega)
      rw [← hqo] at htrim
      have hS := c.mem.sizeofStructMem_pos
      have hshort : c.mem.ram + o + n < (s.pbufs.pbuf q).payload + rem.toNat := by
        rcases hn with rfl | ⟨rfl, hn⟩
        · omega
        · omega
      refine iff_of_false (hcut.not_meets hok hlt hram.1 hcustom hqo ((if_pos hram).trans htrim) hinv (hpres.mono ?_) hb₁
        hshort) hnear
      rintro o' rfl
      exact hqo

/-- **When `pbuf_realloc` leaves the beginning of the chain.** It returns, and leaves a well-formed chain with the first
bytes, in the same pbufs at the same addresses, with the reference to the rest dropped, exactly when the cut is not in a
pbuf of the type `PBUF_RAM` with a payload 2^16 bytes or more behind it, or in a custom pbuf of this type for which the
size is too large. -/
theorem pbufRealloc_meets_iff (c : StoreConfig) (ext : ByteMem) (s : Store) (bs : List Blk) (owner : ℕ → ℕ) (p : ℕ)
    (l : List ℕ) (newLen : UInt16) (hok : ChainOk c s bs owner p l) :
    (∃ s', s.pbufRealloc c p newLen = some s' ∧ ReallocMeets c ext s owner p l newLen s') ↔ ReallocFits c s l newLen := by
  obtain ⟨lp, hlp, htotal⟩ := hok.totals p (hok.chain.self_mem (hok.counted.ne_null hok.allocated))
  obtain rfl := hlp.unique hok.chain
  by_cases hle : (s.pbufs.pbuf p).totLen ≤ newLen
  · have hle' := UInt16.le_iff_toNat_le.mp hle
    refine iff_of_true ⟨s, ?_, bs, lp, [], (List.append_nil lp).symm, hok, ?_, fun _ _ => ⟨rfl, rfl, rfl, rfl⟩, [], [], ?_⟩ ?_
    · rw [Store.pbufRealloc, use_eq hok.allocated, if_pos hle]
    · rw [List.append_nil, List.take_of_length_le]
      rw [length_chainBytes]
      omega
    · exact ⟨rfl, List.forall_mem_nil _, (Finset.sdiff_empty).symm, fun _ hy => absurd hy (Option.not_mem_none _),
        fun _ _ _ _ _ => rfl, s.pools.heap, rfl⟩
    · intro l₁ q l₂ hsplit _ hlt
      rw [hsplit, chainSum_append, chainSum_cons] at htotal
      omega
  · have hlt := UInt16.not_le.mp hle
    obtain ⟨l₁, q, l₂, rem, k, h', lf, r, rfl, hcut, hc'⟩ :=
      exists_cutAt hok.counted hok.chain hok.allocated htotal hlt
    exact hcut.meets_iff hok hc' hlt

/-- `pbuf_realloc` returns with the references counted, or uses `NULL` as a pbuf. -/
theorem pbufRealloc_returns (hok : ChainOk c s bs owner p l) (newLen : UInt16) :
    (ReallocReturns c s l newLen →
      ∃ s', s.pbufRealloc c p newLen = some s' ∧ Counted s'.pbufs owner ∧ p ∈ s'.pbufs.allocated) ∧
    (¬ReallocReturns c s l newLen → s.pbufRealloc c p newLen = none) := by
  obtain ⟨lp, hlp, htotal⟩ := hok.totals p (hok.chain.self_mem (hok.counted.ne_null hok.allocated))
  obtain rfl := hlp.unique hok.chain
  by_cases hle : (s.pbufs.pbuf p).totLen ≤ newLen
  · refine ⟨fun _ => ⟨s, ?_, hok.counted, hok.allocated⟩, fun hnot => absurd (fun l₁ q l₂ hsplit _ hlt => ?_) hnot⟩
    · rw [Store.pbufRealloc, use_eq hok.allocated, if_pos hle]
    · have hle' := UInt16.le_iff_toNat_le.mp hle
      rw [hsplit, chainSum_append, chainSum_cons] at htotal
      omega
  · have hlt := UInt16.not_le.mp hle
    obtain ⟨l₁, q, l₂, rem, k, h', lf, r, rfl, hcut, hc'⟩ :=
      exists_cutAt hok.counted hok.chain hok.allocated htotal hlt
    obtain ⟨hsome, hnone⟩ := hcut.run_eq hok hlt
    refine ⟨fun hreturns => ?_, hnone⟩
    obtain ⟨a, hrun⟩ := hsome hreturns
    exact ⟨_, hrun, hc', (hcut.head_mem hok.chain hok.allocated).2⟩

/-- A cut that is right returns. -/
theorem ReallocFits.returns (hfits : ReallocFits c s l newLen) : ReallocReturns c s l newLen := by
  intro l₁ q l₂ hsplit hfirst hlt htype hcustom
  have hok := hfits l₁ q l₂ hsplit hfirst hlt htype
  rwa [TrimOk, if_pos hcustom] at hok

/-- How many bytes the first pbuf has after the cut. -/
theorem pbufRealloc_len (hok : ChainOk c s bs owner p l) (hrun : s.pbufRealloc c p newLen = some s') :
    min newLen.toNat (s.pbufs.pbuf p).len.toNat ≤ (s'.pbufs.pbuf p).len.toNat := by
  obtain ⟨lp, hlp, htotal⟩ := hok.totals p (hok.chain.self_mem (hok.counted.ne_null hok.allocated))
  obtain rfl := hlp.unique hok.chain
  by_cases hle : (s.pbufs.pbuf p).totLen ≤ newLen
  · rw [Store.pbufRealloc, use_eq hok.allocated, if_pos hle] at hrun
    obtain rfl := Option.some.inj hrun
    exact Nat.min_le_right _ _
  · have hlt := UInt16.not_le.mp hle
    obtain ⟨l₁, q, l₂, rem, k, h', lf, r, rfl, hcut, -⟩ :=
      exists_cutAt hok.counted hok.chain hok.allocated htotal hlt
    obtain ⟨hsome, hnone⟩ := hcut.run_eq hok hlt
    have hreturns : ReallocReturns c s (l₁ ++ q :: l₂) newLen := by
      by_contra hnot
      rw [hnone hnot] at hrun
      cases hrun
    obtain ⟨a, hrun'⟩ := hsome hreturns
    obtain rfl := Option.some.inj (hrun.symm.trans hrun')
    cases l₁ with
    | nil =>
        obtain rfl := (path_cons.mp hok.chain.path).1
        have hsum := hcut.sum
        rw [chainSum_nil, Nat.zero_add] at hsum
        rw [hcut.last, ← hsum]
        exact Nat.min_le_left _ _
    | cons y l₁ =>
        obtain rfl := (path_cons.mp hok.chain.path).1
        rw [hcut.inside p List.mem_cons_self]
        exact Nat.min_le_right _ _

/-- The byte at `i` of a chain, when it is in the first pbuf. -/
theorem getElem?_chainBytes_head {data : Data} {i : ℕ} (hi : i < (h.pbuf p).len.toNat) (l : List ℕ) :
    (chainBytes h data (p :: l))[i]? = some (data p i) := by
  rw [chainBytes_cons, List.getElem?_append_left (by rwa [length_pbufBytes]), pbufBytes, List.getElem?_map,
    List.getElem?_range hi, Option.map_some]

/-- The bytes of the first pbuf in front of the cut are those that were there. -/
theorem pbufRealloc_head {i : ℕ} (hok : ChainOk c s bs owner p l) (hrun : s.pbufRealloc c p newLen = some s')
    (hfits : ReallocFits c s l newLen) (hi : i < newLen.toNat) (hlen : i < (s.pbufs.pbuf p).len.toNat) :
    s'.data c ext p i = s.data c ext p i := by
  obtain ⟨s'', hrun', bs', l', rest, rfl, hshort⟩ :=
    (pbufRealloc_meets_iff c ext s bs owner p l newLen hok).mpr hfits
  obtain rfl := Option.some.inj (hrun.symm.trans hrun')
  have hmem := hshort.ok.chain.self_mem (hok.counted.ne_null hok.allocated)
  cases l' with
  | nil => cases hmem
  | cons y l' =>
      obtain rfl := (path_cons.mp hshort.ok.chain.path).1
      have hlen' := pbufRealloc_len hok hrun
      have hbytes := congrArg (fun bytes => bytes[i]?) hshort.bytes
      simp only [List.cons_append, List.getElem?_take_of_lt hi] at hbytes
      rw [getElem?_chainBytes_head (by omega), getElem?_chainBytes_head hlen] at hbytes
      exact Option.some.inj hbytes

/-! ## A pbuf in the heap with one behind it -/

/-- The small heap is one block: a pbuf of 40 bytes, the first ones of them `bytes`. Behind it is a pbuf of 6 bytes from
the pool. -/
def heapThenPool (bytes : List UInt8) : Store where
  pbufs :=
    { pbuf := fun x => if x = 0x20000008 then ⟨4096, 0x20000018, 46, 40, .ram, 0, 1⟩ else ⟨0, 4112, 6, 6, .pool, 0, 1⟩
      allocated := {0x20000008, 4096}
      fault := false }
  pools :=
    { pbufPool := []
      mempPbuf := []
      heap :=
        { mem := fun x => if 24 ≤ x ∧ x < 64 then bytes.getD (x - 24) 0 else if x = 0 ∨ x = 64 then 64
            else if x = 4 ∨ x = 68 then 1 else 0
          lfree := 64 }
      customFreed := [] }

/-- The reference of the caller to the pbuf `p`. -/
def oneRef (p : ℕ) : ℕ → ℕ := fun x => if x = p then 1 else 0

/-- The caller refers to the first pbuf, and the first one to the second. -/
theorem heapThenPool_counted (bytes : List UInt8) : Counted (heapThenPool bytes).pbufs (oneRef 0x20000008) := by
  have hmem : ∀ x ∈ (heapThenPool bytes).pbufs.allocated, x = 0x20000008 ∨ x = 4096 := fun x hx => by
    rwa [heapThenPool, Finset.mem_insert, Finset.mem_singleton] at hx
  constructor
  · exact fun h0 => absurd (hmem 0 h0) (by decide)
  · intro x hx
    rcases hmem x hx with rfl | rfl
    · rfl
    · rfl
  · intro x hx0
    by_cases hhead : x = 0x20000008
    · subst hhead
      exact iff_of_true (Finset.mem_insert_self _ _) Nat.one_pos
    by_cases htail : x = 4096
    · subst htail
      exact iff_of_true (Finset.mem_insert_of_mem (Finset.mem_singleton_self _)) Nat.one_pos
    have hlinks : (heapThenPool bytes).pbufs.links x = 0 := by
      refine inDegree_eq_zero_iff.mpr fun y hy heq => ?_
      rcases hmem y hy with rfl | rfl
      · exact htail heq.symm
      · exact hx0 heq.symm
    rw [hlinks, oneRef, if_neg hhead]
    exact iff_of_false (fun hx => (hmem x hx).elim hhead htail) (Nat.lt_irrefl 0)
  · rfl

/-- The chain is well formed. -/
theorem heapThenPool_ok (bytes : List UInt8) :
    ChainOk smallStoreConfig (heapThenPool bytes) [⟨64, true⟩] (oneRef 0x20000008) 0x20000008 [0x20000008, 4096] := by
  have hhead : (heapThenPool bytes).pbufs.pbuf 0x20000008 = ⟨4096, 0x20000018, 46, 40, .ram, 0, 1⟩ := rfl
  have htail : (heapThenPool bytes).pbufs.pbuf 4096 = ⟨0, 4112, 6, 6, .pool, 0, 1⟩ := rfl
  have hchain : Chain (heapThenPool bytes).pbufs 0x20000008 [0x20000008, 4096] := ⟨⟨rfl, rfl, rfl⟩, by decide⟩
  have hlast : Chain (heapThenPool bytes).pbufs 4096 [4096] := ⟨⟨rfl, rfl⟩, by decide⟩
  constructor
  · exact heapThenPool_counted bytes
  · constructor
    · exact ⟨Mem.Header.ext rfl rfl rfl, rfl, rfl, rfl⟩
    · exact List.forall_mem_singleton.mpr ⟨by decide, by decide⟩
    · exact List.isChain_singleton _
    · rfl
  · exact hchain
  · exact Finset.mem_insert_self _ _
  · exact List.forall_mem_cons.mpr ⟨⟨_, hchain, rfl⟩, List.forall_mem_singleton.mpr ⟨_, hlast, rfl⟩⟩
  · refine List.forall_mem_cons.mpr ⟨?_, List.forall_mem_singleton.mpr ?_⟩
    · have hin : InBlock smallStoreConfig [⟨64, true⟩] 0 0x20000018 (0x20000018 + 40) :=
        ⟨⟨64, true⟩, blockAt_mid 0 [] [] _, rfl, by decide, by decide⟩
      constructor
      · exact fun _ _ => ⟨0, rfl, by rw [hhead]; decide, hin⟩
      · exact fun _ hcustom => absurd hcustom (by rw [hhead]; decide)
      · exact fun hnot => absurd ⟨rfl, by rw [hhead]; decide⟩ hnot
    · constructor
      · intro htype
        rw [htail] at htype
        cases htype
      · intro htype
        rw [htail] at htype
        cases htype
      · rw [htail]
        exact fun _ => .inl (.inl (by decide))

/-- Every cut of it is right. -/
theorem heapThenPool_fits (bytes : List UInt8) (newLen : UInt16) :
    ReallocFits smallStoreConfig (heapThenPool bytes) [0x20000008, 4096] newLen := by
  have hhead : (heapThenPool bytes).pbufs.pbuf 0x20000008 = ⟨4096, 0x20000018, 46, 40, .ram, 0, 1⟩ := rfl
  intro l₁ q l₂ hsplit _ _ htype
  have hq : q ∈ [0x20000008, 4096] := hsplit ▸ List.mem_append_right l₁ List.mem_cons_self
  rcases List.mem_cons.mp hq with rfl | hq
  · rw [hhead, TrimOk, if_neg (by decide)]
    decide
  · obtain rfl := List.mem_singleton.mp hq
    cases htype

/-- The heap pbuf is cut to 20 bytes, and the other one is freed. -/
theorem pbufRealloc_meets_iff_heapThenPool :
    ∃ s', (heapThenPool [1, 2, 3]).pbufRealloc smallStoreConfig 0x20000008 20 = some s' ∧
      ReallocMeets smallStoreConfig (fun _ => 0) (heapThenPool [1, 2, 3]) (oneRef 0x20000008) 0x20000008
        [0x20000008, 4096] 20 s' :=
  (pbufRealloc_meets_iff smallStoreConfig (fun _ => 0) (heapThenPool [1, 2, 3]) [⟨64, true⟩] (oneRef 0x20000008)
    0x20000008 [0x20000008, 4096] 20 (heapThenPool_ok [1, 2, 3])).mpr (heapThenPool_fits [1, 2, 3] 20)

/-! ## One pbuf -/

/-- A pbuf at 4096 with `len` bytes at 8192. -/
def onePbuf (len : UInt16) (type : PbufType) (flags : UInt8) : Store where
  pbufs := { pbuf := fun _ => ⟨0, 8192, len, len, type, flags, 1⟩, allocated := {4096}, fault := false }
  pools := { pbufPool := [], mempPbuf := [], heap := Mem.memInit Mem.tiny fun _ => 0, customFreed := [] }

/-- A chain of one pbuf is well formed, if it is no `PBUF_RAM` of the heap. -/
theorem onePbuf_ok {len : UInt16} {type : PbufType} {flags : UInt8}
    (hcustom : type = .ram → IsCustom smallStoreConfig ⟨0, 8192, len, len, type, flags, 1⟩) :
    ChainOk smallStoreConfig (onePbuf len type flags) [⟨Mem.tiny.memSizeAligned, false⟩] (oneRef 4096) 4096 [4096] := by
  have hchain : Chain (onePbuf len type flags).pbufs 4096 [4096] := ⟨path_cons.mpr ⟨rfl, rfl⟩, by decide⟩
  constructor
  · constructor
    · exact fun h0 => absurd (Finset.mem_singleton.mp h0) (by decide)
    · intro x hx
      obtain rfl := Finset.mem_singleton.mp hx
      rfl
    · intro x hx0
      have hlinks : (onePbuf len type flags).pbufs.links x = 0 :=
        inDegree_eq_zero_iff.mpr fun _ _ => hx0.symm
      rw [hlinks, Nat.add_zero]
      by_cases hx : x = 4096
      · subst hx
        exact iff_of_true (Finset.mem_singleton_self 4096) Nat.one_pos
      · rw [oneRef, if_neg hx]
        exact iff_of_false (fun hm => hx (Finset.mem_singleton.mp hm)) (Nat.lt_irrefl 0)
    · rfl
  · exact Mem.memInit_inv Mem.tiny fun _ => 0
  · exact hchain
  · exact Finset.mem_singleton_self 4096
  · exact List.forall_mem_singleton.mpr ⟨[4096], hchain, rfl⟩
  · refine List.forall_mem_singleton.mpr ⟨fun htype hnot => absurd (hcustom htype) hnot, fun _ _ => .inl (by decide), ?_⟩
    have hlen := len.toNat_lt
    exact fun _ => .inl (.inl (by show 8192 + len.toNat ≤ 0x20000000; omega))

/-- The payload of a custom pbuf is 4096 bytes behind it, and the heap has 64 bytes: `mem_trim` returns `NULL`. -/
theorem not_pbufRealloc_meets : ¬ ∀ (c : StoreConfig) (ext : ByteMem) (s : Store) (bs : List Blk) (owner : ℕ → ℕ) (p : ℕ)
    (l : List ℕ) (newLen : UInt16), ChainOk c s bs owner p l →
    ∃ s', s.pbufRealloc c p newLen = some s' ∧ ReallocMeets c ext s owner p l newLen s' := by
  intro hall
  obtain ⟨s', hrun, -⟩ := hall smallStoreConfig (fun _ => 0) (onePbuf 20 .ram pbufFlagIsCustom) _ _ 4096 [4096] 10
    (onePbuf_ok fun _ => by decide)
  have hnone : ((onePbuf 20 .ram pbufFlagIsCustom).pbufRealloc smallStoreConfig 4096 10).isNone = true := by decide
  rw [hrun] at hnone
  cases hnone

end BareMetal.Pbufs
