import Mathlib.Data.List.Flatten
import BareMetal.Pbuf.TotLen

/-! # Shrinking a chain

`pbuf_realloc` cuts a chain to a number of bytes: it steps over the pbufs that stay and corrects their totals,
shortens the pbuf in which the cut is, and frees the rest of the chain. Here is what becomes of the pbufs
(`exists_cutAt`): the loop, the cut, and the rest. `mem_trim`, which shortens the block of a pbuf in the heap, comes
with the memory behind the pbufs. -/

namespace BareMetal.Pbufs

/-- The bytes of the pbufs, from their payload pointers on. -/
abbrev Data := ℕ → ℕ → UInt8

/-- The loop of `pbuf_realloc`: the new last pbuf and the bytes that it keeps. -/
def reallocLoop (grow : UInt16) : ℕ → Heap → ℕ → UInt16 → Option (ℕ × UInt16 × Heap)
  | 0, _, _, _ => none
  | fuel + 1, h, q, rem =>
      let h := h.use q
      if (h.pbuf q).len < rem then
        reallocLoop grow fuel (h.set q fun r => { r with totLen := r.totLen + grow }) (h.next q)
          (rem - (h.pbuf q).len)
      else some (q, rem, h)

/-- The end of `pbuf_realloc`: free the pbufs behind `q`, which is then the last one. -/
def freeRest (h : Heap) (q : ℕ) : Option Heap := do
  let (_, h) ← if h.next q = 0 then some (0, h) else pbufFree h (h.next q)
  some (h.set q fun r => { r with next := 0 })

variable {h h' k : Heap} {owner : ℕ → ℕ} {data data' : Data} {p q x r fuel : ℕ} {l l' l₁ l₂ : List ℕ}
  {grow newLen rem : UInt16} {f : Pbuf → Pbuf} {count : UInt8}

/-- The bytes of one pbuf. -/
def pbufBytes (h : Heap) (data : Data) (p : ℕ) : List UInt8 := (List.range (h.pbuf p).len.toNat).map (data p)

/-- The bytes of the pbufs `l`. -/
def chainBytes (h : Heap) (data : Data) (l : List ℕ) : List UInt8 := l.flatMap (pbufBytes h data)

/-- A pbuf has as many bytes as `len` says. -/
@[simp] theorem length_pbufBytes (h : Heap) (data : Data) (p : ℕ) :
    (pbufBytes h data p).length = (h.pbuf p).len.toNat := by
  rw [pbufBytes, List.length_map, List.length_range]

/-- The bytes of the first pbuf and of the others. -/
@[simp] theorem chainBytes_cons (h : Heap) (data : Data) (x : ℕ) (l : List ℕ) :
    chainBytes h data (x :: l) = pbufBytes h data x ++ chainBytes h data l := List.flatMap_cons

/-- A chain has as many bytes as the sum of the `len`. -/
theorem length_chainBytes (h : Heap) (data : Data) (l : List ℕ) : (chainBytes h data l).length = chainSum h l := by
  induction l with
  | nil => rfl
  | cons x l ih => rw [chainBytes_cons, List.length_append, length_pbufBytes, chainSum_cons, ih]

/-- The bytes of a chain in two parts. -/
theorem chainBytes_append (h : Heap) (data : Data) (l l' : List ℕ) :
    chainBytes h data (l ++ l') = chainBytes h data l ++ chainBytes h data l' := List.flatMap_append

/-- The bytes of a chain are those of its pbufs. -/
theorem chainBytes_congr (hsame : ∀ x ∈ l, pbufBytes h' data' x = pbufBytes h data x) :
    chainBytes h' data' l = chainBytes h data l := by
  induction l with
  | nil => rfl
  | cons x l ih =>
      rw [chainBytes_cons, chainBytes_cons, hsame x List.mem_cons_self,
        ih fun y hy => hsame y (List.mem_cons_of_mem x hy)]

/-- Cutting inside a pbuf. -/
theorem take_chainBytes {n : ℕ} (hn : n ≤ (h.pbuf q).len.toNat) :
    (chainBytes h data (l₁ ++ q :: l₂)).take (chainSum h l₁ + n) =
      chainBytes h data l₁ ++ (pbufBytes h data q).take n := by
  rw [chainBytes_append, ← length_chainBytes h data l₁, List.take_length_add_append, chainBytes_cons,
    List.take_append_of_le_length (by rw [length_pbufBytes]; exact hn)]

/-! ## The steps over the pbufs that stay -/

/-- The totals of the pbufs `l` were changed by `grow`. -/
structure Grown (h : Heap) (l : List ℕ) (grow : UInt16) (k : Heap) : Prop where
  allocated : k.allocated = h.allocated
  fault : k.fault = h.fault
  inside : ∀ x ∈ l, k.pbuf x = { h.pbuf x with totLen := (h.pbuf x).totLen + grow }
  outside : ∀ x, x ∉ l → k.pbuf x = h.pbuf x

/-- Only `tot_len` has changed, so the links are the same. -/
theorem Grown.next (hg : Grown h l grow k) : k.next = h.next := by
  funext x
  by_cases hx : x ∈ l
  · rw [Heap.next, hg.inside x hx, Heap.next]
  · rw [Heap.next, hg.outside x hx, Heap.next]

/-- And the reference counts. -/
theorem Grown.ref (hg : Grown h l grow k) (x : ℕ) : (k.pbuf x).ref = (h.pbuf x).ref := by
  by_cases hx : x ∈ l
  · rw [hg.inside x hx]
  · rw [hg.outside x hx]

/-- And the lengths. -/
theorem Grown.len (hg : Grown h l grow k) (x : ℕ) : (k.pbuf x).len = (h.pbuf x).len := by
  by_cases hx : x ∈ l
  · rw [hg.inside x hx]
  · rw [hg.outside x hx]

/-- The totals are not counted. -/
theorem Counted.grown (hc : Counted h owner) (hg : Grown h l grow k) : Counted k owner := by
  have hlinks : ∀ x, k.links x = h.links x := fun x => by rw [Heap.links, hg.next, hg.allocated, Heap.links]
  constructor
  · exact hg.allocated ▸ hc.null
  · intro x hx
    rw [hg.ref, hlinks]
    exact hc.ref_eq x (hg.allocated ▸ hx)
  · intro x hx
    rw [hg.allocated, hlinks]
    exact hc.allocated_iff x hx
  · rw [hg.fault, hc.fault]

/-- The loop of `pbuf_realloc` stops at the pbuf in which the cut is. -/
theorem reallocLoop_spec (grow : UInt16) (hl : Chain h p l) (hmem : ∀ x ∈ l, x ∈ h.allocated) (hlt : newLen.toNat < chainSum h l)
    (hfuel : l.length ≤ fuel) :
    ∃ l₁ q l₂ rem k, reallocLoop grow fuel h p newLen = some (q, rem, k) ∧ l = l₁ ++ q :: l₂ ∧
      Grown h l₁ grow k ∧ chainSum h l₁ + rem.toNat = newLen.toNat ∧ rem ≤ (h.pbuf q).len ∧
      (l₁ = [] ∨ 0 < rem.toNat) := by
  induction l generalizing h p newLen fuel with
  | nil => exact absurd hlt (Nat.not_lt_zero _)
  | cons y l ih =>
      obtain ⟨rfl, hpath⟩ := path_cons.mp hl.path
      obtain ⟨-, hnull⟩ := not_or.mp (List.mem_cons.not.mp hl.null)
      obtain ⟨hpl, -⟩ := List.nodup_cons.mp (hl.path.nodup hl.null)
      have hp := hmem p List.mem_cons_self
      obtain ⟨fuel, rfl⟩ : ∃ n, fuel = n + 1 := Nat.exists_eq_succ_of_ne_zero (by simp at hfuel; omega)
      rw [chainSum_cons] at hlt
      rw [reallocLoop, use_eq hp]
      by_cases hkeep : (h.pbuf p).len < newLen
      · -- `p` stays as it is
        simp only [if_pos hkeep]
        generalize hk : (h.set p fun r => { r with totLen := r.totLen + grow }) = k
        have hknext : k.next = h.next := by rw [← hk]; exact next_set_of_eq rfl
        have hkx : ∀ x, x ≠ p → k.pbuf x = h.pbuf x := fun x hx => by rw [← hk]; exact pbuf_set_of_ne h _ hx
        have hkp : k.pbuf p = { h.pbuf p with totLen := (h.pbuf p).totLen + grow } := by rw [← hk, pbuf_set_self]
        have hkalloc : k.allocated = h.allocated := by rw [← hk]; rfl
        have hsum : chainSum k l = chainSum h l :=
          chainSum_congr fun x hx => by rw [hkx x fun heq => hpl (heq ▸ hx)]
        have hsub : (newLen - (h.pbuf p).len).toNat = newLen.toNat - (h.pbuf p).len.toNat :=
          UInt16.toNat_sub_of_le _ _ (UInt16.le_of_lt hkeep)
        have hkeep' := UInt16.lt_iff_toNat_lt.mp hkeep
        have hlt' : (newLen - (h.pbuf p).len).toNat < chainSum k l := by
          rw [hsum, hsub]
          omega
        obtain ⟨l₁, q, l₂, rem, k', hrun, hsplit, hgrown, hrem, hle, hpos⟩ :=
          ih (Chain.congr ⟨hpath, hnull⟩ fun x _ => congrFun hknext x)
            (fun x hx => hkalloc ▸ hmem x (List.mem_cons_of_mem p hx)) hlt' (Nat.le_of_succ_le_succ hfuel)
        have hl₁ : ∀ x ∈ l₁, x ≠ p := fun x hx heq => hpl (heq ▸ hsplit ▸ List.mem_append_left _ hx)
        have hq : q ≠ p := fun heq => hpl (heq ▸ hsplit ▸ List.mem_append_right _ List.mem_cons_self)
        have hsum₁ : chainSum k l₁ = chainSum h l₁ := chainSum_congr fun x hx => by rw [hkx x (hl₁ x hx)]
        refine ⟨p :: l₁, q, l₂, rem, k', hrun, by rw [hsplit, List.cons_append], ⟨?_, ?_, ?_, ?_⟩, ?_, ?_, .inr ?_⟩
        · exact hgrown.allocated.trans hkalloc
        · rw [hgrown.fault, ← hk]
          rfl
        · intro x hx
          rcases List.mem_cons.mp hx with rfl | hx
          · rw [hgrown.outside x fun hm => hl₁ x hm rfl, hkp]
          · rw [hgrown.inside x hx, hkx x (hl₁ x hx)]
        · intro x hx
          obtain ⟨hxp, hxl⟩ := not_or.mp (List.mem_cons.not.mp hx)
          rw [hgrown.outside x hxl, hkx x hxp]
        · rw [chainSum_cons, Nat.add_assoc, ← hsum₁, hrem, hsub]
          omega
        · rwa [hkx q hq] at hle
        · rcases hpos with rfl | hpos
          · rw [chainSum_nil] at hrem
            omega
          · exact hpos
      · -- the cut is in `p`
        refine ⟨[], p, l, newLen, h, ?_, rfl, ⟨rfl, rfl, by simp, fun _ _ => rfl⟩, ?_, ?_, .inl rfl⟩
        · simp only [if_neg hkeep]
        · rw [chainSum_nil, Nat.zero_add]
        · exact UInt16.not_lt.mp hkeep

/-! ## The rest of the chain -/

/-- `pbuf_free` neither reads nor writes a pbuf that is not on the chain. -/
theorem pbufFreeLoop_set (fuel : ℕ) (count : UInt8) (hl : Chain h p l) (hq : q ∉ l)
    (hf : ∀ (b : Pbuf) (n : UInt16), f { b with ref := n } = { f b with ref := n }) :
    pbufFreeLoop fuel (h.set q f) p count = (pbufFreeLoop fuel h p count).map fun (n, h) => (n, h.set q f) := by
  induction fuel generalizing h p l count with
  | zero =>
      rw [pbufFreeLoop, pbufFreeLoop]
      split <;> rfl
  | succ fuel ih =>
      rw [pbufFreeLoop, pbufFreeLoop]
      by_cases hp0 : p = 0
      · rw [if_pos hp0, if_pos hp0]
        rfl
      rw [if_neg hp0, if_neg hp0]
      have hpq : p ≠ q := fun heq => hq (heq ▸ hl.self_mem hp0)
      generalize hg : (fun b : Pbuf => { b with ref := (h.pbuf p).ref - 1 }) = g
      have hcomm : ((h.set q f).use p).set p g = ((h.use p).set p g).set q f := by
        refine set_comm (h.use p) f g (fun b => ?_) q p
        rw [← hg, hf]
      have hnext : (((h.use p).set p g).giveBack p).next = h.next := by
        have hset : ((h.use p).set p g).next = h.next := next_set_of_eq (by rw [← hg])
        exact hset
      have hnextSet : (((h.use p).set p g).set q f).next p = ((h.use p).set p g).next p := by
        rw [Heap.next, pbuf_set_of_ne _ _ hpq, Heap.next]
      simp only [pbuf_set_of_ne h f hpq, hg, hcomm, hnextSet]
      split
      · have hrest : ∃ l', Chain (((h.use p).set p g).giveBack p) (h.next p) l' ∧ q ∉ l' := by
          cases l with
          | nil => exact absurd hl.path hp0
          | cons y l =>
              obtain ⟨rfl, hpath⟩ := path_cons.mp hl.path
              refine ⟨l, Chain.congr ⟨hpath, fun h0 => hl.null (List.mem_cons_of_mem p h0)⟩ fun x _ => congrFun hnext x, ?_⟩
              exact fun hm => hq (List.mem_cons_of_mem p hm)
        obtain ⟨l', hl', hq'⟩ := hrest
        have hstart : ((h.use p).set p g).next p = h.next p := congrFun hnext p
        rw [hstart]
        exact ih _ hl' hq'
      · rfl

/-- The reference to the rest of the chain that the link of `q` was is dropped. -/
theorem freeRest_spec (hc : Counted h owner) (hq : q ∈ h.allocated) (hl : Chain h q (q :: l)) :
    ∃ lf r h', freeRest h q = some h' ∧ Freed (h.set q fun b => { b with next := 0 }) (h.next q) lf r h' ∧
      Counted h' owner := by
  by_cases hlast : h.next q = 0
  · refine ⟨[], 0, h.set q fun b => { b with next := 0 }, ?_, ?_, ?_⟩
    · rw [freeRest, if_pos hlast]
      rfl
    · rw [hlast]
      exact freed_null _
    · exact hc.set_other hq hlast.symm rfl
  · have hc' := hc.unlink (f := fun b => { b with next := 0 }) hq rfl rfl
    obtain ⟨lf, r, h', hrun, hfreed, hcounted⟩ := pbufFree_spec (p := h.next q) hc'
      fun _ => by rw [addRef_self]; omega
    rw [dropped, if_neg hlast, dropRef_addRef] at hcounted
    refine ⟨lf, r, h', ?_, hfreed, hcounted⟩
    have hnull : 0 ∉ l := fun h0 => hl.null (List.mem_cons_of_mem q h0)
    have hql : q ∉ l := (List.nodup_cons.mp (hl.path.nodup hl.null)).1
    have hset := pbufFreeLoop_set (f := fun b => { b with next := 0 }) h.allocated.card 0
      ⟨(path_cons.mp hl.path).2, hnull⟩ hql fun _ _ => rfl
    rw [pbufFree, allocated_set, hset] at hrun
    obtain ⟨⟨n, k⟩, hk, heq⟩ := Option.map_eq_some_iff.mp hrun
    obtain ⟨-, rfl⟩ := Prod.mk.inj heq
    rw [freeRest, if_neg hlast, pbufFree, hk]
    rfl

/-- The pbufs that are freed are the first ones of the rest, and the next one loses a reference. -/
theorem Freed.split (hfreed : Freed h p l r h') (hl : Chain h p l') (hnull : 0 ∉ h.allocated) :
    ∃ kept, l' = l ++ kept ∧ (kept = [] ∧ r = 0 ∨ ∃ t, kept = r :: t) := by
  obtain ⟨kept, rfl, hrest⟩ := hfreed.path.prefix hl.path fun h0 => hnull (hfreed.allocated_of_mem 0 h0)
  refine ⟨kept, rfl, ?_⟩
  cases kept with
  | nil => exact .inl ⟨rfl, hrest⟩
  | cons y t => exact .inr ⟨t, by rw [(path_cons.mp hrest).1]⟩

/-! ## The cut -/

/-- The chain was cut in `q`, of which `rem` bytes stay, behind the pbufs `l₁`. -/
structure Cut (h : Heap) (data : Data) (l₁ : List ℕ) (q : ℕ) (grow rem : UInt16) (h' : Heap) (data' : Data) :
    Prop where
  inside : ∀ x ∈ l₁, h'.pbuf x = { h.pbuf x with totLen := (h.pbuf x).totLen + grow }
  last : h'.pbuf q = { h.pbuf q with len := rem, totLen := rem, next := 0 }
  data_inside : ∀ x ∈ l₁, ∀ i < (h.pbuf x).len.toNat, data' x i = data x i
  data_last : ∀ i < rem.toNat, data' q i = data q i

/-- A part of the chain that ends with `q`. -/
theorem Cut.chain (hcut : Cut h data l₁ q grow rem h' data') (hsub : ∀ x ∈ l, x ∈ l₁)
    (hl : Chain h p (l ++ q :: l₂)) : Chain h' p (l ++ [q]) := by
  obtain ⟨c, hpath, rfl, -⟩ := path_append.mp hl.path
  have hkeep : ∀ x ∈ l, h'.next x = h.next x := fun x hx => by rw [Heap.next, hcut.inside x (hsub x hx), Heap.next]
  refine ⟨path_append.mpr ⟨c, (path_congr hkeep).mpr hpath, rfl, ?_⟩, fun h0 => hl.null ?_⟩
  · rw [path_nil, Heap.next, hcut.last]
  · rcases List.mem_append.mp h0 with h0 | h0
    · exact List.mem_append_left _ h0
    · exact List.mem_append_right _ (List.mem_singleton.mp h0 ▸ List.mem_cons_self)

/-- The sum of what is left. -/
theorem Cut.chainSum (hcut : Cut h data l₁ q grow rem h' data') (hsub : ∀ x ∈ l, x ∈ l₁) :
    chainSum h' (l ++ [q]) = chainSum h l + rem.toNat := by
  have hlen : ∀ x ∈ l, (h'.pbuf x).len = (h.pbuf x).len := fun x hx => by rw [hcut.inside x (hsub x hx)]
  rw [chainSum_append, chainSum_congr hlen, chainSum_cons, hcut.last, chainSum_nil, Nat.add_zero]

/-- The bytes of what is left are the first ones of the chain. -/
theorem Cut.bytes (hcut : Cut h data l₁ q grow rem h' data') (hrem : rem ≤ (h.pbuf q).len) :
    chainBytes h' data' (l₁ ++ [q]) = (chainBytes h data (l₁ ++ q :: l₂)).take (Pbufs.chainSum h l₁ + rem.toNat) := by
  have hrem' := UInt16.le_iff_toNat_le.mp hrem
  have hinside : chainBytes h' data' l₁ = chainBytes h data l₁ := by
    refine chainBytes_congr fun x hx => ?_
    rw [pbufBytes, hcut.inside x hx, pbufBytes]
    exact List.map_congr_left fun i hi => hcut.data_inside x hx i (List.mem_range.mp hi)
  have hlast : pbufBytes h' data' q = (pbufBytes h data q).take rem.toNat := by
    rw [pbufBytes, pbufBytes, hcut.last, ← List.map_take, List.take_range, Nat.min_eq_left hrem']
    exact List.map_congr_left fun i hi => hcut.data_last i (List.mem_range.mp hi)
  rw [take_chainBytes hrem', chainBytes_append, hinside, ← hlast, chainBytes_cons]
  exact congrArg _ (List.append_nil _)

/-- The totals of what is left. -/
theorem Cut.totals (hcut : Cut h data l₁ q (newLen - (h.pbuf p).totLen) rem h' data') (hl : Chain h p (l₁ ++ q :: l₂))
    (hok : ∀ x ∈ l₁ ++ q :: l₂, TotalOk h x) (htotal : (h.pbuf p).totLen.toNat = Pbufs.chainSum h (l₁ ++ q :: l₂))
    (hlt : newLen < (h.pbuf p).totLen) (hsum : Pbufs.chainSum h l₁ + rem.toNat = newLen.toNat)
    (hrem : rem ≤ (h.pbuf q).len) : ∀ x ∈ l₁ ++ [q], TotalOk h' x := by
  intro x hx
  rcases List.mem_append.mp hx with hx | hx
  · obtain ⟨l₀, l, rfl⟩ := List.append_of_mem hx
    have hsub : ∀ y ∈ x :: l, y ∈ l₀ ++ x :: l := fun y hy => List.mem_append_right l₀ hy
    -- the chain from `x` on
    have hlx : Chain h x ((x :: l) ++ q :: l₂) := by
      have hpath := hl.path
      rw [List.append_assoc] at hpath
      obtain ⟨c, -, hc⟩ := path_append.mp hpath
      obtain rfl := (path_cons.mp hc).1
      refine ⟨hc, fun h0 => hl.null ?_⟩
      rw [List.append_assoc]
      exact List.mem_append_right l₀ h0
    obtain ⟨lx, hlx', htotx⟩ := hok x (List.mem_append_left _ hx)
    obtain rfl := hlx'.unique hlx
    refine ⟨_, hcut.chain hsub hlx, ?_⟩
    have hgrow : (newLen - (h.pbuf p).totLen).toNat = 2 ^ 16 - (h.pbuf p).totLen.toNat + newLen.toNat := by
      rw [UInt16.toNat_sub]
      exact Nat.mod_eq_of_lt (by have := UInt16.lt_iff_toNat_lt.mp hlt; have := (h.pbuf p).totLen.toNat_lt; omega)
    rw [hcut.chainSum hsub, hcut.inside x hx, UInt16.toNat_add, hgrow]
    rw [List.append_assoc, chainSum_append] at htotal
    rw [chainSum_append] at hsum htotx
    rw [chainSum_append] at htotal
    have := (h.pbuf p).totLen.toNat_lt
    have := newLen.toNat_lt
    have := UInt16.le_iff_toNat_le.mp hrem
    rw [chainSum_cons (x := q)] at htotx htotal
    omega
  · obtain rfl := List.mem_singleton.mp hx
    have hnull : (0 : ℕ) ∉ [x] := fun h0 => hl.null (by
      rw [List.mem_singleton.mp h0]
      exact List.mem_append_right l₁ List.mem_cons_self)
    refine ⟨[x], ⟨path_cons.mpr ⟨rfl, ?_⟩, hnull⟩, ?_⟩
    · rw [path_nil, Heap.next, hcut.last]
    · rw [chainSum_cons, chainSum_nil, hcut.last, Nat.add_zero]

/-- Where `pbuf_realloc` cuts the chain `l₁ ++ q :: l₂` of `p`, and what it leaves of the pbufs: `k` behind the loop and
`h'` in the end, with `lf` freed and a reference to `r` dropped. -/
structure CutAt (h : Heap) (p : ℕ) (newLen : UInt16) (l₁ : List ℕ) (q : ℕ) (l₂ : List ℕ) (rem : UInt16) (k h' : Heap)
    (lf : List ℕ) (r : ℕ) : Prop where
  loop : reallocLoop (newLen - (h.pbuf p).totLen) h.allocated.card h p newLen = some (q, rem, k)
  sum : chainSum h l₁ + rem.toNat = newLen.toNat
  le : rem ≤ (h.pbuf q).len
  first : l₁ = [] ∨ 0 < rem.toNat
  same : k.pbuf q = h.pbuf q
  rest : freeRest (k.set q fun b => { b with len := rem, totLen := rem }) q = some h'
  freed : Freed ((k.set q fun b => { b with len := rem, totLen := rem }).set q fun b => { b with next := 0 })
    (h.next q) lf r h'
  split : ∃ kept, l₂ = lf ++ kept ∧ (kept = [] ∧ r = 0 ∨ ∃ t, kept = r :: t)
  outside : ∀ x, x ∉ l₁ → k.pbuf x = h.pbuf x
  allocated : k.allocated = h.allocated
  inside : ∀ x ∈ l₁, h'.pbuf x = { h.pbuf x with totLen := (h.pbuf x).totLen + (newLen - (h.pbuf p).totLen) }
  last : h'.pbuf q = { h.pbuf q with len := rem, totLen := rem, next := 0 }

/-- The cut of a chain whose total is right. -/
theorem exists_cutAt (hc : Counted h owner) (hl : Chain h p l) (hp : p ∈ h.allocated)
    (htotal : (h.pbuf p).totLen.toNat = chainSum h l) (hlt : newLen < (h.pbuf p).totLen) :
    ∃ l₁ q l₂ rem k h' lf r, l = l₁ ++ q :: l₂ ∧ CutAt h p newLen l₁ q l₂ rem k h' lf r ∧ Counted h' owner := by
  have hmem := hl.subset hc hp
  have hcard : l.length ≤ h.allocated.card := by
    rw [← List.toFinset_card_of_nodup (hl.path.nodup hl.null)]
    exact Finset.card_le_card fun x hx => hmem x (List.mem_toFinset.mp hx)
  have hshort : newLen.toNat < chainSum h l := htotal ▸ UInt16.lt_iff_toNat_lt.mp hlt
  obtain ⟨l₁, q, l₂, rem, k, hrun, hsplit, hgrown, hsum, hrem, hfirst⟩ :=
    reallocLoop_spec (newLen - (h.pbuf p).totLen) hl hmem hshort hcard
  obtain rfl := hsplit
  have hnd := List.nodup_append.mp (hl.path.nodup hl.null)
  have hq₁ : q ∉ l₁ := fun hm => hnd.2.2 q hm q List.mem_cons_self rfl
  have hq₂ : q ∉ l₂ := (List.nodup_cons.mp hnd.2.1).1
  have hqmem : q ∈ h.allocated := hmem q (List.mem_append_right _ List.mem_cons_self)
  have hkq : k.pbuf q = h.pbuf q := hgrown.outside q hq₁
  -- `q` gets its new length
  generalize hk₁ : (k.set q fun b => { b with len := rem, totLen := rem }) = k₁
  have hc₁ : Counted k₁ owner := by
    rw [← hk₁]
    exact (hc.grown hgrown).set_other (hgrown.allocated ▸ hqmem) rfl rfl
  have hnext₁ : k₁.next = h.next := by
    rw [← hk₁, ← hgrown.next]
    exact next_set_of_eq rfl
  have halloc₁ : k₁.allocated = h.allocated := by
    rw [← hk₁]
    exact hgrown.allocated
  have hrest : Chain h q (q :: l₂) := by
    obtain ⟨c, -, hpath⟩ := path_append.mp hl.path
    obtain rfl := (path_cons.mp hpath).1
    exact ⟨hpath, fun h0 => hl.null (List.mem_append_right _ h0)⟩
  obtain ⟨lf, r, h', hfree, hfreed, hc'⟩ := freeRest_spec hc₁ (halloc₁ ▸ hqmem)
    (hrest.congr fun x _ => congrFun hnext₁ x)
  rw [hnext₁] at hfreed
  -- the rest of the chain is apart from what stays
  have hl₂ : Chain (k₁.set q fun b => { b with next := 0 }) (h.next q) l₂ := by
    refine Chain.congr (h := h) ⟨(path_cons.mp hrest.path).2, fun h0 => hrest.null (List.mem_cons_of_mem q h0)⟩ fun x hx => ?_
    rw [Heap.next, pbuf_set_of_ne _ _ fun heq : x = q => hq₂ (heq ▸ hx), ← hnext₁, Heap.next]
  have hsplit := hfreed.split hl₂ hc₁.null
  have hlf : ∀ x ∈ lf, x ∈ l₂ := fun x hx => by
    obtain ⟨kept, hl₂', -⟩ := hsplit
    exact hl₂' ▸ List.mem_append_left kept hx
  have hr : r = 0 ∨ r ∈ l₂ := by
    obtain ⟨kept, hl₂', ⟨-, h0⟩ | ⟨t, rfl⟩⟩ := hsplit
    · exact .inl h0
    · exact .inr (hl₂' ▸ List.mem_append_right lf List.mem_cons_self)
  have hkeep : ∀ x, x ∈ l₁ ++ [q] → x ∉ lf ∧ x ≠ r := by
    intro x hx
    have hx₂ : x ∉ l₂ := by
      rcases List.mem_append.mp hx with hx | hx
      · exact fun hm => hnd.2.2 x hx x (List.mem_cons_of_mem q hm) rfl
      · exact List.mem_singleton.mp hx ▸ hq₂
    have hx0 : x ≠ 0 := by
      rintro rfl
      refine hl.null (List.mem_append.mpr ?_)
      refine (List.mem_append.mp hx).imp_right fun hm => ?_
      rw [List.mem_singleton.mp hm]
      exact List.mem_cons_self
    exact ⟨fun hm => hx₂ (hlf x hm), fun heq => hr.elim (fun h0 => hx0 (heq.trans h0)) fun hm => hx₂ (heq ▸ hm)⟩
  have hq' : q ∈ l₁ ++ [q] := List.mem_append_right l₁ List.mem_cons_self
  refine ⟨l₁, q, l₂, rem, k, h', lf, r, rfl, ?_, hc'⟩
  refine ⟨hrun, hsum, hrem, hfirst, hkq, hk₁ ▸ hfree, hk₁ ▸ hfreed, hsplit, hgrown.outside, hgrown.allocated,
    ?_, ?_⟩
  · intro x hx
    have hxq : x ≠ q := fun heq => hq₁ (heq ▸ hx)
    obtain ⟨hxf, hxr⟩ := hkeep x (List.mem_append_left _ hx)
    rw [hfreed.others x hxf hxr, pbuf_set_of_ne _ _ hxq, ← hk₁, pbuf_set_of_ne _ _ hxq, hgrown.inside x hx]
  · obtain ⟨hqf, hqr⟩ := hkeep q hq'
    rw [hfreed.others q hqf hqr, pbuf_set_self, ← hk₁, pbuf_set_self, hkq]

/-- The first pbuf stays. -/
theorem CutAt.head_mem {k h' : Heap} {l₂ lf : List ℕ} (hcut : CutAt h p newLen l₁ q l₂ rem k h' lf r)
    (hl : Chain h p (l₁ ++ q :: l₂)) (hp : p ∈ h.allocated) : p ∈ l₁ ++ [q] ∧ p ∈ h'.allocated := by
  have hp' : p ∈ l₁ ++ [q] := by
    cases l₁ with
    | nil => exact (path_cons.mp hl.path).1 ▸ List.mem_cons_self
    | cons y l₁ => exact (path_cons.mp hl.path).1 ▸ List.mem_cons_self
  refine ⟨hp', ?_⟩
  rw [hcut.freed.allocated, allocated_set, allocated_set, hcut.allocated]
  refine Finset.mem_sdiff.mpr ⟨hp, fun hm => ?_⟩
  have hp₂ : p ∈ l₂ := by
    obtain ⟨kept, hl₂, -⟩ := hcut.split
    exact hl₂ ▸ List.mem_append_left kept (List.mem_toFinset.mp hm)
  have hnd := List.nodup_append.mp (hl.path.nodup hl.null)
  rcases List.mem_append.mp hp' with hx | hx
  · exact hnd.2.2 p hx p (List.mem_cons_of_mem q hp₂) rfl
  · exact (List.nodup_cons.mp hnd.2.1).1 (List.mem_singleton.mp hx ▸ hp₂)

end BareMetal.Pbufs
