import BareMetal.Memory.MemCalloc
import BareMetal.Pbuf.Realloc

/-! # Pbufs with the memory behind them

`pbuf_alloc` and `pbuf_free` on the pools and on the heap of `mem.c` that they take pbufs from: what the model of the
chains leaves out. The free elements of a pool are a list, in the order of `memp_tab[]`. An element keeps
what was in it when it is given back, so `pbuf_alloc` finds the fields of some earlier pbuf there. On the pbufs, the
functions do what they do in the model of the chains (`Store.pbufFreeLoop_eq`). -/

namespace BareMetal.Pbufs

/-- The configuration of pbufs and of the memory behind them. -/
structure StoreConfig where
  pbufs : Config
  mem : Mem.Config
  /-- `LWIP_SUPPORT_CUSTOM_PBUF`. -/
  supportCustomPbuf : Bool
  memAlignment_eq : mem.memAlignment = pbufs.memAlignment
  dvd_sizeofStructPbuf : pbufs.memAlignment ∣ pbufs.sizeofStructPbuf
  dvd_pbufPoolBufsizeAligned : pbufs.memAlignment ∣ pbufs.pbufPoolBufsizeAligned

/-- What pbufs are taken from. -/
structure Pools where
  /-- `memp_tab[MEMP_PBUF_POOL]`. -/
  pbufPool : List ℕ
  /-- `memp_tab[MEMP_PBUF]`. -/
  mempPbuf : List ℕ
  heap : Mem.Heap
  /-- The pbufs whose `custom_free_function` was called, the last one first. -/
  customFreed : List ℕ

/-- The pbufs, and what they are taken from. -/
structure Store where
  pbufs : Heap
  pools : Pools

variable (c : StoreConfig)

/-- `PBUF_FLAG_IS_CUSTOM`. -/
def pbufFlagIsCustom : UInt8 := 0x02

/-- `pbuf_free` takes the pbuf for a custom one. -/
def IsCustom (r : Pbuf) : Prop := c.supportCustomPbuf = true ∧ r.flags &&& pbufFlagIsCustom ≠ 0

instance (r : Pbuf) : Decidable (IsCustom c r) := inferInstanceAs (Decidable (_ ∧ _))

/-- The part of `pbuf_free` that gives the pbuf `p` back. -/
def Pools.release (a : Pools) (r : Pbuf) (p : ℕ) : Pools :=
  if IsCustom c r then { a with customFreed := p :: a.customFreed }
  else
    match r.type with
    | .pool => { a with pbufPool := p :: a.pbufPool }
    | .rom => { a with mempPbuf := p :: a.mempPbuf }
    | .ref => { a with mempPbuf := p :: a.mempPbuf }
    | .ram => { a with heap := Mem.memFree c.mem a.heap p }

/-- The loop of `pbuf_free`. -/
def Store.pbufFreeLoop : ℕ → Store → ℕ → UInt8 → Option (UInt8 × Store)
  | fuel, s, p, count =>
      if p = 0 then some (count, s)
      else
        match fuel with
        | 0 => none
        | fuel + 1 =>
            let ref := (s.pbufs.pbuf p).ref - 1
            let h := (s.pbufs.use p).set p fun q => { q with ref := ref }
            if ref = 0 then
              Store.pbufFreeLoop fuel ⟨h.giveBack p, s.pools.release c (h.pbuf p) p⟩ (h.next p) (count + 1)
            else some (count, { s with pbufs := h })

/-- `pbuf_free(p)`. -/
def Store.pbufFree (s : Store) (p : ℕ) : Option (UInt8 × Store) :=
  Store.pbufFreeLoop c s.pbufs.allocated.card s p 0

/-- The loop of `pbuf_alloc` over the elements of the pool, with `rem` bytes to go behind `r`: whether it got all
elements, and those that it left. -/
def takeTail : List ℕ → Heap → ℕ → ℕ → Bool × List ℕ × Heap
  | [], h, _, rem => (rem == 0, [], h)
  | q :: pool, h, r, rem =>
      if rem = 0 then (true, q :: pool, h)
      else
        takeTail pool ((h.take q fun _ => fillTail c.pbufs q rem).set r fun p => { p with next := q }) q
          (rem - min rem c.pbufs.pbufPoolBufsizeAligned)

/-- `LWIP_MEM_ALIGN_SIZE(SIZEOF_STRUCT_PBUF + offset) + LWIP_MEM_ALIGN_SIZE(length)`. -/
def ramSize (layer : PbufLayer) (length : UInt16) : ℕ :=
  alignUp c.pbufs.memAlignment (c.pbufs.sizeofStructPbuf + layer.offset) + alignUp c.pbufs.memAlignment length.toNat

/-- `pbuf_alloc(layer, length, type)`: the first pbuf of the chain, or `NULL`. -/
def Store.pbufAlloc (s : Store) (layer : PbufLayer) (length : UInt16) (type : PbufType) : Option (ℕ × Store) :=
  match type with
  | .pool =>
      match s.pools.pbufPool with
      | [] => some (0, s)
      | p :: pool => do
          let (ok, pool, h) := takeTail c pool (s.pbufs.take p (fillHead c.pbufs layer length p)) p
            (length.toNat - headLen c.pbufs layer length)
          let s : Store := ⟨h, { s.pools with pbufPool := pool }⟩
          if ok then some (p, { s with pbufs := s.pbufs.set p fun q => { q with ref := 1, flags := 0 } })
          else
            let (_, s) ← s.pbufFree c p
            some (0, s)
  | .ram => do
      let (p, heap) ← Mem.memMalloc c.mem s.pools.heap (ramSize c layer length % 256 ^ c.mem.memSizeT)
      let s : Store := { s with pools := { s.pools with heap } }
      if p = 0 then some (0, s)
      else
        some (p,
          { s with
            pbufs := s.pbufs.take p fun _ =>
              { payload := alignUp c.pbufs.memAlignment (p + c.pbufs.sizeofStructPbuf + layer.offset)
                len := length, totLen := length, next := 0, type := .ram, ref := 1, flags := 0 } })
  | type =>
      match s.pools.mempPbuf with
      | [] => some (0, s)
      | p :: mempPbuf =>
          some (p, ⟨s.pbufs.take p fun _ =>
            { payload := 0, len := length, totLen := length, next := 0, type := type, ref := 1, flags := 0 },
            { s.pools with mempPbuf }⟩)

/-! ## Freeing -/

/-- Give the pbufs `l` back, one after the other. -/
def Pools.releaseAll (pbuf : ℕ → Pbuf) (l : List ℕ) (a : Pools) : Pools :=
  l.foldl (fun a p => a.release c (pbuf p) p) a

variable {c} {h h' : Heap} {s : Store} {p q x fuel : ℕ} {l : List ℕ} {count : UInt8} {pbuf pbuf' : ℕ → Pbuf} {a : Pools}

/-- Giving a pbuf back does not write to it. -/
theorem pbuf_giveBack (h : Heap) (p : ℕ) : (h.giveBack p).pbuf = h.pbuf := rfl

/-- The flag says which pbufs are custom. -/
theorem isCustom_congr {r r' : Pbuf} (hflags : r'.flags = r.flags) : IsCustom c r' ↔ IsCustom c r := by
  unfold IsCustom
  rw [hflags]

/-- Where a pbuf goes is read off its type and its flags. -/
theorem release_congr {r r' : Pbuf} (htype : r'.type = r.type) (hflags : r'.flags = r.flags) :
    a.release c r' p = a.release c r p := by
  have hiff : IsCustom c r' ↔ IsCustom c r := isCustom_congr hflags
  by_cases hcustom : IsCustom c r
  · rw [Pools.release, Pools.release, if_pos hcustom, if_pos (hiff.mpr hcustom)]
  · rw [Pools.release, Pools.release, if_neg hcustom, if_neg (hiff.not.mpr hcustom), htype]

/-- Giving pbufs back looks at their types and flags only. -/
theorem releaseAll_congr (hsame : ∀ x ∈ l, (pbuf' x).type = (pbuf x).type ∧ (pbuf' x).flags = (pbuf x).flags) :
    a.releaseAll c pbuf' l = a.releaseAll c pbuf l := by
  induction l generalizing a with
  | nil => rfl
  | cons x l ih =>
      obtain ⟨htype, hflags⟩ := hsame x List.mem_cons_self
      simp only [Pools.releaseAll, List.foldl_cons, release_congr htype hflags]
      exact ih fun y hy => hsame y (List.mem_cons_of_mem x hy)

/-- On the pbufs the loop is that of the model of the chains, and it gives back the pbufs that it frees. -/
theorem Store.pbufFreeLoop_eq (hpath : Path s.pbufs.next p l q) (hnull : 0 ∉ l) (hq : q ∉ l)
    (hone : ∀ x ∈ l, (s.pbufs.pbuf x).ref = 1) (hstop : q ≠ 0 → (s.pbufs.pbuf q).ref ≠ 1) (fuel : ℕ) (count : UInt8) :
    Store.pbufFreeLoop c fuel s p count =
      (Pbufs.pbufFreeLoop fuel s.pbufs p count).map fun r => (r.1, ⟨r.2, s.pools.releaseAll c s.pbufs.pbuf l⟩) := by
  induction l generalizing s p fuel count with
  -- the loop ends here: at NULL, or at a pbuf with more than one reference
  | nil =>
      obtain rfl := path_nil.mp hpath
      by_cases hp0 : p = 0
      · subst hp0
        cases fuel <;> simp [Store.pbufFreeLoop, Pbufs.pbufFreeLoop, Pools.releaseAll]
      cases fuel with
      | zero => simp [Store.pbufFreeLoop, Pbufs.pbufFreeLoop, hp0]
      | succ fuel =>
          rw [Store.pbufFreeLoop, Pbufs.pbufFreeLoop, if_neg hp0, if_neg hp0]
          have hne : (s.pbufs.pbuf p).ref - 1 ≠ 0 := fun h0 => hstop hp0 (by
            rw [← UInt16.sub_add_cancel (s.pbufs.pbuf p).ref 1, h0]
            rfl)
          simp only [if_neg hne]
          rfl
  | cons x l ih =>
      obtain ⟨rfl, hpath⟩ := path_cons.mp hpath
      obtain ⟨hp0, hnull⟩ := not_or.mp (List.mem_cons.not.mp hnull)
      obtain ⟨hqp, hql⟩ := not_or.mp (List.mem_cons.not.mp hq)
      have hpl : p ∉ l := by
        have hnd := (path_cons.mpr ⟨rfl, hpath⟩ : Path s.pbufs.next p (p :: l) q).nodup hq
        exact (List.nodup_cons.mp hnd).1
      cases fuel with
      | zero => simp [Store.pbufFreeLoop, Pbufs.pbufFreeLoop, Ne.symm hp0]
      | succ fuel =>
          rw [Store.pbufFreeLoop, Pbufs.pbufFreeLoop, if_neg (Ne.symm hp0), if_neg (Ne.symm hp0)]
          -- the only reference is dropped, the pbuf given back, and the loop goes on with the next one
          have hzero : (s.pbufs.pbuf p).ref - 1 = 0 := by
            rw [hone p List.mem_cons_self]
            rfl
          simp only [if_pos hzero]
          generalize hk : (s.pbufs.use p).set p (fun q => { q with ref := (s.pbufs.pbuf p).ref - 1 }) = k
          -- no later pbuf has changed
          have hother : ∀ y, y ≠ p → (k.giveBack p).pbuf y = s.pbufs.pbuf y := fun y hy => by
            rw [pbuf_giveBack, ← hk]
            exact pbuf_set_of_ne _ _ hy
          have hself : k.pbuf p = { s.pbufs.pbuf p with ref := (s.pbufs.pbuf p).ref - 1 } := by
            rw [← hk]
            exact pbuf_set_self _ _ _
          have hnext : k.next p = s.pbufs.next p := by rw [Heap.next, hself, Heap.next]
          have hne : ∀ y ∈ l, y ≠ p := fun y hy heq => hpl (heq ▸ hy)
          have hpath' : Path (k.giveBack p).next (k.next p) l q := by
            rw [hnext]
            refine (path_congr fun y hy => ?_).mp hpath
            rw [Heap.next, Heap.next, hother y (hne y hy)]
          rw [ih (s := ⟨k.giveBack p, s.pools.release c (k.pbuf p) p⟩) hpath' hnull hql]
          · have hrelease : s.pools.release c (k.pbuf p) p = s.pools.release c (s.pbufs.pbuf p) p := by
              rw [hself]
              exact release_congr rfl rfl
            have hrest : (s.pools.release c (s.pbufs.pbuf p) p).releaseAll c (k.giveBack p).pbuf l =
                s.pools.releaseAll c s.pbufs.pbuf (p :: l) :=
              releaseAll_congr fun y hy => by rw [hother y (hne y hy)]; exact ⟨rfl, rfl⟩
            simp only [hrelease, hrest]
          · intro y hy
            rw [hother y (hne y hy)]
            exact hone y (List.mem_cons_of_mem p hy)
          · intro hq0
            rw [hother q hqp]
            exact hstop hq0

/-- `pbuf_free` on the pbufs is that of the model of the chains, and gives back what it frees. -/
theorem Store.pbufFree_eq (hnull : 0 ∉ s.pbufs.allocated) (hrun : Pbufs.pbufFree s.pbufs p = some (count, h'))
    (hfreed : Freed s.pbufs p l q h') :
    s.pbufFree c p = some (count, ⟨h', s.pools.releaseAll c s.pbufs.pbuf l⟩) := by
  have hl0 : 0 ∉ l := fun h0 => hnull (hfreed.allocated_of_mem 0 h0)
  have hstop : q ≠ 0 → (s.pbufs.pbuf q).ref ≠ 1 := fun hq0 => (hfreed.ref_ne_one hq0).2
  have hq : q ∉ l := fun hm => hstop (fun h0 => hl0 (h0 ▸ hm)) (hfreed.ref_one q hm)
  rw [Pbufs.pbufFree] at hrun
  rw [Store.pbufFree, Store.pbufFreeLoop_eq hfreed.path hl0 hq hfreed.ref_one hstop, hrun]
  rfl

/-- `pbuf_free` returns, and drops one reference of the caller. -/
theorem Store.pbufFree_spec {owner : ℕ → ℕ} (hc : Counted s.pbufs owner) (hp : p ≠ 0 → 0 < owner p) :
    ∃ count s', s.pbufFree c p = some (count, s') ∧ Counted s'.pbufs (dropped owner p) := by
  obtain ⟨l, q, h', hrun, hfreed, hc'⟩ := Pbufs.pbufFree_spec hc hp
  exact ⟨_, _, Store.pbufFree_eq hc.null hrun hfreed, hc'⟩

/-- `pbuf_free` of a chain of pbufs with one reference each frees all of them. -/
theorem pbufFreeLoop_all (hpath : Path h.next p l 0) (hnull : 0 ∉ l) (hmem : ∀ x ∈ l, x ∈ h.allocated)
    (hone : ∀ x ∈ l, (h.pbuf x).ref = 1) (hfuel : l.length ≤ fuel) (count : UInt8) :
    ∃ h', pbufFreeLoop fuel h p count = some (count + UInt8.ofNat l.length, h') ∧ Freed h p l 0 h' := by
  induction l generalizing h p fuel count with
  | nil =>
      obtain rfl := path_nil.mp hpath
      exact ⟨h, by cases fuel <;> simp [pbufFreeLoop], freed_null h⟩
  | cons x l ih =>
      obtain ⟨rfl, hrest⟩ := path_cons.mp hpath
      obtain ⟨hp0, hnull'⟩ := not_or.mp (List.mem_cons.not.mp hnull)
      have hpl : p ∉ l := (List.nodup_cons.mp (hpath.nodup hnull)).1
      obtain ⟨fuel, rfl⟩ : ∃ n, fuel = n + 1 := Nat.exists_eq_succ_of_ne_zero (by simp at hfuel; omega)
      have hp := hmem p List.mem_cons_self
      have hzero : (h.pbuf p).ref - 1 = 0 := by
        rw [hone p List.mem_cons_self]
        rfl
      rw [pbufFreeLoop, if_neg (Ne.symm hp0), use_eq hp]
      simp only [if_pos hzero]
      generalize hk : h.set p (fun q => { q with ref := (h.pbuf p).ref - 1 }) = k
      have hknext : k.next = h.next := by
        rw [← hk]
        exact next_set_of_eq rfl
      have hkalloc : (k.giveBack p).allocated = h.allocated.erase p := by
        rw [← hk]
        rfl
      have hne : ∀ y ∈ l, y ≠ p := fun y hy heq => hpl (heq ▸ hy)
      obtain ⟨h', hrun, hfreed⟩ := ih (h := k.giveBack p) (p := h.next p) (by rw [← hknext] at hrest; rwa [← hknext])
        hnull' (fun y hy => hkalloc ▸ Finset.mem_erase.mpr ⟨hne y hy, hmem y (List.mem_cons_of_mem p hy)⟩)
        (fun y hy => by
          rw [← hone y (List.mem_cons_of_mem p hy), pbuf_giveBack, ← hk]
          exact congrArg Pbuf.ref (pbuf_set_of_ne _ _ (hne y hy)))
        (Nat.le_of_succ_le_succ hfuel) (count + 1)
      refine ⟨h', ?_, Freed.cons (f := fun q => { q with ref := (h.pbuf p).ref - 1 }) hp (hone p List.mem_cons_self) rfl ?_⟩
      · rw [congrFun hknext p, hrun, List.length_cons, UInt8.ofNat_add, UInt8.add_assoc,
          UInt8.add_comm (UInt8.ofNat l.length)]
        rfl
      · rwa [hk]

/-! ## The loop of `pbuf_alloc` -/

variable {r rem : ℕ} {pool : List ℕ}

/-- The loop of `pbuf_alloc` with the pool as its list. -/
theorem takeTail_eq (pool : List ℕ) (h : Heap) (r rem : ℕ) :
    (takeTail c pool h r rem).1 = (allocTail c.pbufs pool h r rem).1 ∧
      (takeTail c pool h r rem).2.2 = (allocTail c.pbufs pool h r rem).2 := by
  induction pool generalizing h r rem with
  | nil => exact ⟨rfl, rfl⟩
  | cons q pool ih =>
      rw [takeTail, allocTail]
      split
      · exact ⟨rfl, rfl⟩
      · exact ih _ _ _

/-- The loop takes elements from the front of the pool, and every element that it takes is allocated then. -/
theorem takeTail_taken (hun : Unused h pool) (r rem : ℕ) :
    (∃ l, pool = l ++ (takeTail c pool h r rem).2.1) ∧
      (takeTail c pool h r rem).2.1.length + (takeTail c pool h r rem).2.2.allocated.card =
        pool.length + h.allocated.card := by
  induction pool generalizing h r rem with
  | nil => exact ⟨⟨[], rfl⟩, rfl⟩
  | cons q pool ih =>
      rw [takeTail]
      split
      · exact ⟨⟨[], rfl⟩, rfl⟩
      · generalize hk : ((h.take q fun _ => fillTail c.pbufs q rem).set r fun p => { p with next := q }) = k
        have hkalloc : k.allocated = insert q h.allocated := by
          rw [← hk]
          rfl
        have hunk : Unused k pool := by
          rw [← hk]
          exact hun.tail fun _ => fillTail c.pbufs q rem
        obtain ⟨⟨l, hl⟩, hcard⟩ := ih hunk q (rem - min rem c.pbufs.pbufPoolBufsizeAligned)
        refine ⟨⟨q :: l, ?_⟩, hcard.trans ?_⟩
        · rw [List.cons_append, ← hl]
        · have hq : q ∉ h.allocated := (hun.2 q List.mem_cons_self).2
          rw [hkalloc, Finset.card_insert_of_notMem hq, List.length_cons]
          omega

/-- What the loop of `pbuf_alloc` takes from the pool, and what it makes of it. -/
theorem takeTail_spec (hr : r ∈ h.allocated) (hr0 : r ≠ 0) (hlast : h.next r = 0) (hun : Unused h pool)
    (hrem : rem < 2 ^ 16) :
    ∃ ok l rest k, takeTail c pool h r rem = (ok, rest, k) ∧ pool = l ++ rest ∧ Extended h r l k ∧
      (∀ x ∈ l, FromPool c.pbufs (k.pbuf x) x) ∧
      (ok = true → chainSum k l = rem ∧ ∀ x ∈ l, TotalOk k x) ∧
      (ok = true ↔ rem ≤ pool.length * c.pbufs.pbufPoolBufsizeAligned) ∧ (ok = false → rest = []) := by
  obtain ⟨hok, hk⟩ := takeTail_eq (c := c) pool h r rem
  obtain ⟨l, rest, hsplit, hext, hpool, hsums, hiff, hdry⟩ := allocTail_spec (c := c.pbufs) hr hr0 hlast hun hrem
  obtain ⟨⟨l', hl'⟩, hcard⟩ := takeTail_taken (c := c) hun r rem
  rw [hk, hext.allocated] at hcard
  have hnd : l.Nodup := (List.nodup_append.mp (hsplit ▸ hun.1)).1
  have hdisj : Disjoint h.allocated l.toFinset :=
    Finset.disjoint_right.mpr fun x hx => hext.fresh x (List.mem_toFinset.mp hx)
  rw [Finset.card_union_of_disjoint hdisj, List.toFinset_card_of_nodup hnd] at hcard
  have hlen : rest.length = (takeTail c pool h r rem).2.1.length := by
    have := congrArg List.length hsplit
    rw [List.length_append] at this
    omega
  obtain ⟨-, hrest⟩ := List.append_inj' (hsplit.symm.trans hl') hlen
  refine ⟨_, l, _, _, rfl, ?_, hk ▸ hext, hk ▸ hpool, ?_, hok ▸ hiff, fun hf => ?_⟩
  · rw [← hrest, hsplit]
  · rw [hok, hk]
    exact hsums
  · rw [← hrest]
    exact hdry (hok ▸ hf)

end BareMetal.Pbufs
