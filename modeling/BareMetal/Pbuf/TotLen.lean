import Mathlib.Algebra.BigOperators.Group.List.Basic
import BareMetal.Pbuf.RefCount

/-! # The total lengths

`Totalled h`: every chain ends, and the `tot_len` of each pbuf is the sum of the lengths from it to the
end. `pbuf_cat` and `pbuf_dechain` correct the totals of the chain they are given only, so this is kept as
long as no other pbuf links into that chain (`Unshared`). -/

namespace BareMetal.Pbufs

variable {h h' k : Heap} {owner : ℕ → ℕ} {p q x t fuel rem r head : ℕ} {l l' elems : List ℕ} {c : Config}

/-- The sum of the lengths of the pbufs `l`. -/
def chainSum (h : Heap) (l : List ℕ) : ℕ := (l.map fun x => (h.pbuf x).len.toNat).sum

/-- The sum over no pbuf. -/
@[simp] theorem chainSum_nil (h : Heap) : chainSum h [] = 0 := rfl

/-- The first pbuf and the others. -/
@[simp] theorem chainSum_cons (h : Heap) (x : ℕ) (l : List ℕ) :
    chainSum h (x :: l) = (h.pbuf x).len.toNat + chainSum h l := by
  rw [chainSum, List.map_cons, List.sum_cons]
  rfl

/-- The sum over two parts. -/
theorem chainSum_append (h : Heap) (l l' : List ℕ) : chainSum h (l ++ l') = chainSum h l + chainSum h l' := by
  rw [chainSum, List.map_append, List.sum_append]
  rfl

/-- The sum is of the `len` of the pbufs. -/
theorem chainSum_congr (hlen : ∀ x ∈ l, (h'.pbuf x).len = (h.pbuf x).len) : chainSum h' l = chainSum h l := by
  refine congrArg List.sum (List.map_congr_left fun x hx => ?_)
  rw [hlen x hx]

/-- The pbufs `l` are the chain of `p`. -/
structure Chain (h : Heap) (p : ℕ) (l : List ℕ) : Prop where
  path : Path h.next p l 0
  null : 0 ∉ l

/-- The chain of `p` ends, and its total is right. -/
def TotalOk (h : Heap) (p : ℕ) : Prop := ∃ l, Chain h p l ∧ (h.pbuf p).totLen.toNat = chainSum h l

/-- The totals of all chains are right. -/
def Totalled (h : Heap) : Prop := ∀ p ∈ h.allocated, TotalOk h p

/-- A pbuf is the head of one chain. -/
theorem Chain.unique (hl : Chain h p l) (hl' : Chain h p l') : l = l' := hl.path.unique hl'.path hl.null hl'.null

/-- The chain of a pbuf that is allocated is allocated. -/
theorem Chain.subset (hc : Counted h owner) (hl : Chain h p l) (hp : p ∈ h.allocated) :
    ∀ x ∈ l, x ∈ h.allocated :=
  hl.path.subset (S := {x | x ∈ h.allocated}) hl.null
    (fun x hx => (em (h.next x = 0)).imp_right fun hne => hc.next_mem hx hne) hp

/-- A chain depends on its own pbufs only. -/
theorem Chain.congr (hl : Chain h p l) (hnext : ∀ x ∈ l, h'.next x = h.next x) : Chain h' p l :=
  ⟨(path_congr hnext).mpr hl.path, hl.null⟩

/-- A total is about the links and the lengths of one chain. -/
theorem TotalOk.congr (hl : Chain h p l) (hok : TotalOk h p)
    (hnext : ∀ x ∈ l, h'.next x = h.next x) (hlen : ∀ x ∈ l, (h'.pbuf x).len = (h.pbuf x).len)
    (htot : (h'.pbuf p).totLen = (h.pbuf p).totLen) : TotalOk h' p := by
  obtain ⟨l', hl', hsum⟩ := hok
  obtain rfl := hl.unique hl'
  refine ⟨l, hl.congr hnext, ?_⟩
  rw [htot, hsum, chainSum_congr hlen]

/-- The pbuf itself is the first one of its chain. -/
theorem Chain.self_mem (hl : Chain h p l) (hp0 : p ≠ 0) : p ∈ l := by
  cases l with
  | nil => exact absurd hl.path hp0
  | cons x l => exact (path_cons.mp hl.path).1 ▸ List.mem_cons_self

/-- What is kept of the pbufs that stay allocated keeps their totals. -/
theorem Totalled.mono (htot : Totalled h) (hc' : Counted h' owner) (hsub : h'.allocated ⊆ h.allocated)
    (hnext : ∀ x ∈ h'.allocated, h'.next x = h.next x)
    (hlen : ∀ x ∈ h'.allocated, (h'.pbuf x).len = (h.pbuf x).len)
    (htotLen : ∀ x ∈ h'.allocated, (h'.pbuf x).totLen = (h.pbuf x).totLen) : Totalled h' := by
  intro p hp
  obtain ⟨l, hl, hsum⟩ := htot p (hsub hp)
  have hmem : ∀ x ∈ l, x ∈ h'.allocated := by
    refine hl.path.subset (S := {x | x ∈ h'.allocated}) hl.null (fun x hx => ?_) hp
    rw [← hnext x hx]
    exact (em (h'.next x = 0)).imp_right fun hne => hc'.next_mem hx hne
  exact TotalOk.congr hl ⟨l, hl, hsum⟩ (fun x hx => hnext x (hmem x hx))
    (fun x hx => hlen x (hmem x hx)) (htotLen p hp)

/-- A write that keeps `len`. -/
theorem len_set_of_eq {f : Pbuf → Pbuf} (hlen : (f (h.pbuf p)).len = (h.pbuf p).len) (x : ℕ) :
    ((h.set p f).pbuf x).len = (h.pbuf x).len := by
  by_cases hx : x = p
  · subst hx
    rw [pbuf_set_self, hlen]
  · rw [pbuf_set_of_ne h f hx]

/-- A change that is neither to the link nor to the lengths. -/
theorem TotalOk.set_other {f : Pbuf → Pbuf} (hok : TotalOk h x) (hnext : (f (h.pbuf p)).next = (h.pbuf p).next)
    (hlen : (f (h.pbuf p)).len = (h.pbuf p).len) (htotLen : (f (h.pbuf p)).totLen = (h.pbuf p).totLen) :
    TotalOk (h.set p f) x := by
  obtain ⟨l, hl, hsum⟩ := hok
  refine TotalOk.congr hl ⟨l, hl, hsum⟩ (fun y _ => congrFun (next_set_of_eq hnext) y)
    (fun y _ => len_set_of_eq hlen y) ?_
  by_cases hx : x = p
  · subst hx
    rw [pbuf_set_self, htotLen]
  · rw [pbuf_set_of_ne h f hx]

/-- A write that keeps what the totals are about. -/
theorem Totalled.set_other {f : Pbuf → Pbuf} (htot : Totalled h) (hnext : (f (h.pbuf p)).next = (h.pbuf p).next)
    (hlen : (f (h.pbuf p)).len = (h.pbuf p).len) (htotLen : (f (h.pbuf p)).totLen = (h.pbuf p).totLen) :
    Totalled (h.set p f) :=
  fun x hx => (htot x hx).set_other hnext hlen htotLen

/-- `pbuf_ref` changes no total. -/
theorem Totalled.pbufRef (hc : Counted h owner) (htot : Totalled h) (hp : p ∈ h.allocated) :
    Totalled (pbufRef h p) := by
  rw [Pbufs.pbufRef, if_neg (hc.ne_null hp), use_eq hp]
  exact htot.set_other rfl rfl rfl

/-- `pbuf_free` keeps the totals of what is left. -/
theorem Totalled.freed (htot : Totalled h) (hc' : Counted h' owner) (hfreed : Freed h p l q h') : Totalled h' := by
  have hpbuf : ∀ x ∈ h'.allocated, h'.pbuf x = h.pbuf x ∨ h'.pbuf x = { h.pbuf x with ref := (h.pbuf x).ref - 1 } := by
    intro x hx
    rw [hfreed.allocated] at hx
    obtain ⟨-, hxl⟩ := Finset.mem_sdiff.mp hx
    by_cases hxq : x = q
    · subst hxq
      by_cases hx0 : x = 0
      · exact absurd (hx0 ▸ hx) fun h0 => hc'.null (hfreed.allocated ▸ h0)
      · exact .inr (hfreed.drop hx0)
    · exact .inl (hfreed.others x (fun hm => hxl (List.mem_toFinset.mpr hm)) hxq)
  refine htot.mono hc' (hfreed.allocated ▸ Finset.sdiff_subset) ?_ ?_ ?_
  all_goals
    intro x hx
    rcases hpbuf x hx with heq | heq
    · simp only [Heap.next, heq]
    · simp only [Heap.next, heq]

/-! ## Joining -/

/-- What `pbuf_cat` writes to a pbuf of the head chain. -/
def joined (h : Heap) (t : ℕ) (q : Pbuf) : Pbuf :=
  { q with totLen := q.totLen + (h.pbuf t).totLen, next := if q.next = 0 then t else q.next }

/-- `pbuf_cat` added the total of `t` to the pbufs `l` and linked the last one to `t`. -/
structure Joined (h : Heap) (t : ℕ) (l : List ℕ) (h' : Heap) : Prop where
  allocated : h'.allocated = h.allocated
  inside : ∀ x ∈ l, h'.pbuf x = joined h t (h.pbuf x)
  outside : ∀ x, x ∉ l → h'.pbuf x = h.pbuf x

/-- The loop of `pbuf_cat` goes along the head chain. -/
theorem pbufCatLoop_spec (hl : Chain h p l) (hmem : ∀ x ∈ l, x ∈ h.allocated) (hp0 : p ≠ 0) (ht : t ∈ h.allocated)
    (htl : t ∉ l) (hfuel : l.length ≤ fuel) : ∃ h', pbufCatLoop t fuel h p = some h' ∧ Joined h t l h' := by
  induction l generalizing h p fuel with
  | nil => exact absurd hl.path hp0
  | cons y l ih =>
      obtain ⟨rfl, hpath⟩ := path_cons.mp hl.path
      obtain ⟨-, hnull⟩ := not_or.mp (List.mem_cons.not.mp hl.null)
      obtain ⟨htp, htl'⟩ := not_or.mp (List.mem_cons.not.mp htl)
      obtain ⟨hpl, -⟩ := List.nodup_cons.mp (hl.path.nodup hl.null)
      have hp := hmem p List.mem_cons_self
      obtain ⟨fuel, rfl⟩ : ∃ n, fuel = n + 1 := Nat.exists_eq_succ_of_ne_zero (by simp at hfuel; omega)
      rw [pbufCatLoop, use_eq hp, use_eq ht]
      generalize hk : (h.set p fun q => { q with totLen := q.totLen + (h.pbuf t).totLen }) = k
      have hknext : k.next = h.next := by rw [← hk]; exact next_set_of_eq rfl
      have hkpbuf : ∀ x, x ≠ p → k.pbuf x = h.pbuf x := fun x hx => by rw [← hk]; exact pbuf_set_of_ne h _ hx
      have hkp : k.pbuf p = { h.pbuf p with totLen := (h.pbuf p).totLen + (h.pbuf t).totLen } := by
        rw [← hk, pbuf_set_self]
      have hkalloc : k.allocated = h.allocated := by rw [← hk]; rfl
      simp only [hknext]
      by_cases hlast : h.next p = 0
      · -- `p` is the last pbuf of the chain
        have hnil : l = [] := by
          cases l with
          | nil => rfl
          | cons z l => exact absurd (hlast ▸ (path_cons.mp hpath).1 ▸ List.mem_cons_self) hnull
        subst hnil
        refine ⟨_, if_pos hlast, hkalloc, fun x hx => ?_, fun x hx => ?_⟩
        · obtain rfl := List.mem_singleton.mp hx
          rw [pbuf_set_self, hkp, joined, if_pos (show (h.pbuf x).next = 0 from hlast)]
        · have hxp : x ≠ p := fun heq => hx (heq ▸ List.mem_cons_self)
          rw [pbuf_set_of_ne _ _ hxp, hkpbuf x hxp]
      · have hrest : Chain k (h.next p) l := Chain.congr ⟨hpath, hnull⟩ fun x _ => congrFun hknext x
        obtain ⟨h', hrun, hjoined⟩ := ih hrest (fun x hx => hkalloc ▸ hmem x (List.mem_cons_of_mem p hx)) hlast
          (hkalloc ▸ ht) htl' (Nat.le_of_succ_le_succ hfuel)
        refine ⟨h', (if_neg hlast).trans hrun, hjoined.allocated.trans hkalloc, fun x hx => ?_, fun x hx => ?_⟩
        · rcases List.mem_cons.mp hx with rfl | hx
          · rw [hjoined.outside x hpl, hkp, joined, if_neg (show (h.pbuf x).next ≠ 0 from hlast)]
          · have hxp : x ≠ p := fun heq => hpl (heq ▸ hx)
            rw [hjoined.inside x hx, hkpbuf x hxp, joined, joined, hkpbuf t htp]
        · obtain ⟨hxp, hxl⟩ := not_or.mp (List.mem_cons.not.mp hx)
          rw [hjoined.outside x hxl, hkpbuf x hxp]

/-- No pbuf outside the chain `l` links into it. -/
def Closed (h : Heap) (l : List ℕ) : Prop := ∀ x ∈ h.allocated, h.next x ∈ l → x ∈ l

/-- A chain that starts outside of a closed one does not meet it. -/
theorem Chain.disjoint (hc : Counted h owner) (hl : Chain h p l) (hp : p ∈ h.allocated)
    (hclosed : Closed h l') (hpl' : p ∉ l') : ∀ x ∈ l, x ∉ l' := by
  have hsub := hl.path.subset (S := {x | x ∈ h.allocated ∧ x ∉ l'}) hl.null (fun x hx => ?_) ⟨hp, hpl'⟩
  · exact fun x hx => (hsub x hx).2
  · by_cases hnext : h.next x = 0
    · exact .inl hnext
    · exact .inr ⟨hc.next_mem hx.1 hnext, fun hm => hx.2 (hclosed x hx.1 hm)⟩

/-- The total of a pbuf is at most that of the head of its chain. -/
theorem chainSum_le_of_suffix {l₁ l₂ : List ℕ} : chainSum h l₂ ≤ chainSum h (l₁ ++ l₂) := by
  rw [chainSum_append]
  exact Nat.le_add_left _ _

/-- `pbuf_cat` keeps the totals when nothing else links into the head chain. -/
theorem Totalled.joined (hc : Counted h owner) (htot : Totalled h) (hl : Chain h head l) (hhead : head ∈ h.allocated)
    (ht : t ∈ h.allocated) (htl : t ∉ l) (hclosed : Closed h l)
    (hlt : (h.pbuf head).totLen.toNat + (h.pbuf t).totLen.toNat < 2 ^ 16) (hjoined : Joined h t l h') :
    Totalled h' := by
  have hnextOut : ∀ x, x ∉ l → h'.next x = h.next x := fun x hx => congrArg Pbuf.next (hjoined.outside x hx)
  have hlen : ∀ x, (h'.pbuf x).len = (h.pbuf x).len := by
    intro x
    by_cases hx : x ∈ l
    · rw [hjoined.inside x hx, Pbufs.joined]
    · rw [hjoined.outside x hx]
  -- the chains outside are as before
  have hout : ∀ p ∈ h.allocated, p ∉ l → TotalOk h' p := by
    intro p hp hpl
    obtain ⟨lp, hlp, hsum⟩ := htot p hp
    have hdisj := hlp.disjoint hc hp hclosed hpl
    exact TotalOk.congr hlp ⟨lp, hlp, hsum⟩ (fun x hx => hnextOut x (hdisj x hx)) (fun x _ => hlen x)
      (by rw [hjoined.outside p hpl])
  intro p hp
  rw [hjoined.allocated] at hp
  by_cases hpl : p ∈ l
  · -- the tail of the head chain from `p` on, and then the chain of `t`
    obtain ⟨lt, hlt', htsum⟩ := hout t ht htl
    obtain ⟨l₁, l₂, rfl⟩ := List.append_of_mem hpl
    obtain ⟨lh, hlh, hsumh⟩ := htot head hhead
    obtain rfl := hlh.unique hl
    obtain ⟨m, -, hsuffix⟩ := path_append.mp hl.path
    obtain rfl := (path_cons.mp hsuffix).1
    have hnull₂ : 0 ∉ m :: l₂ := fun h0 => hl.null (List.mem_append_right l₁ h0)
    obtain ⟨lp, hlp, hsum⟩ := htot m hp
    obtain rfl := hlp.unique ⟨hsuffix, hnull₂⟩
    have hpath : Path h'.next m (m :: l₂) t := by
      refine hsuffix.redirect hnull₂ (List.cons_ne_nil m l₂) fun x hx => ?_
      rw [Heap.next, hjoined.inside x (List.mem_append_right l₁ hx)]
      rfl
    have hbound : chainSum h (m :: l₂) ≤ chainSum h (l₁ ++ m :: l₂) := chainSum_le_of_suffix
    refine ⟨m :: l₂ ++ lt, ⟨path_append.mpr ⟨t, hpath, hlt'.path⟩, ?_⟩, ?_⟩
    · exact fun h0 => (List.mem_append.mp h0).elim hnull₂ hlt'.null
    · have htt : (h'.pbuf t).totLen = (h.pbuf t).totLen := by rw [hjoined.outside t htl]
      rw [chainSum_append, ← htsum, htt, chainSum_congr fun x _ => hlen x, ← hsum, hjoined.inside m hpl,
        Pbufs.joined]
      exact (UInt16.toNat_add _ _).trans (Nat.mod_eq_of_lt (by omega))
  · exact hout p hp hpl

/-! ## Splitting -/

/-- A change of `p` that does not concern the chains of the others, when no pbuf links to `p`. -/
theorem Totalled.set_head {f : Pbuf → Pbuf} (hc : Counted h owner) (htot : Totalled h)
    (hhead : ∀ x ∈ h.allocated, h.next x ≠ p) (hp : TotalOk (h.set p f) p) : Totalled (h.set p f) := by
  intro x hx
  by_cases hxp : x = p
  · rwa [hxp]
  · obtain ⟨l, hl, hsum⟩ := htot x hx
    have hpl : ∀ y ∈ l, y ≠ p := by
      have hclosed : Closed h [p] := fun y hy hm => absurd (List.mem_singleton.mp hm) (hhead y hy)
      have hdisj := hl.disjoint hc hx hclosed fun hm => hxp (List.mem_singleton.mp hm)
      exact fun y hy heq => hdisj y hy (heq ▸ List.mem_cons_self)
    refine TotalOk.congr hl ⟨l, hl, hsum⟩ (fun y hy => ?_) (fun y hy => ?_) ?_
    · rw [Heap.next, pbuf_set_of_ne h f (hpl y hy)]
      rfl
    · rw [pbuf_set_of_ne h f (hpl y hy)]
    · rw [pbuf_set_of_ne h f hxp]

/-- The total of a pbuf is its length and the total of the next one. -/
theorem Totalled.next (hc : Counted h owner) (htot : Totalled h) (hp : p ∈ h.allocated) (hnext : h.next p ≠ 0) :
    (h.pbuf (h.next p)).totLen = (h.pbuf p).totLen - (h.pbuf p).len := by
  obtain ⟨l, hl, hsum⟩ := htot p hp
  obtain ⟨l', hl', hsum'⟩ := htot (h.next p) (hc.next_mem hp hnext)
  have hp0 := hc.ne_null hp
  obtain rfl : l = p :: l' := by
    refine hl.unique ⟨path_cons.mpr ⟨rfl, hl'.path⟩, fun h0 => ?_⟩
    exact (List.mem_cons.mp h0).elim (fun heq => hp0 heq.symm) hl'.null
  rw [chainSum_cons, ← hsum'] at hsum
  have hle : (h.pbuf p).len ≤ (h.pbuf p).totLen := by
    rw [UInt16.le_iff_toNat_le, hsum]
    exact Nat.le_add_right _ _
  rw [← UInt16.toNat_inj, UInt16.toNat_sub_of_le _ _ hle, hsum]
  omega

/-- `pbuf_dechain` keeps the totals when `p` is the first pbuf of its chain. -/
theorem Totalled.pbufDechain {rest : ℕ} (hc : Counted h owner) (htot : Totalled h) (hp : p ∈ h.allocated)
    (hhead : ∀ x ∈ h.allocated, h.next x ≠ p) (hrun : pbufDechain h p = some (rest, h')) : Totalled h' := by
  rw [Pbufs.pbufDechain, use_eq hp] at hrun
  by_cases hq : h.next p = 0
  · rw [if_pos hq] at hrun
    obtain ⟨-, rfl⟩ := Prod.mk.inj (Option.some.inj hrun)
    exact htot
  · have hmem := hc.next_mem hp hq
    simp only [if_neg hq] at hrun
    rw [← htot.next hc hp hq] at hrun
    -- the total of the rest is what it was
    have hc₁ := hc.set_other (f := fun r => { r with totLen := (h.pbuf (h.next p)).totLen }) hmem rfl rfl
    have htot₁ : Totalled (h.set (h.next p) fun r => { r with totLen := (h.pbuf (h.next p)).totLen }) :=
      htot.set_other rfl rfl rfl
    have hnext₁ : (h.set (h.next p) fun r => { r with totLen := (h.pbuf (h.next p)).totLen }).next = h.next :=
      next_set_of_eq rfl
    have htot₂ := htot₁.set_head (p := p) (f := fun r => { r with next := 0, totLen := r.len }) hc₁
      (by rw [hnext₁]; exact hhead) ⟨[p], ?_, ?_⟩
    · have hc₂ := hc₁.unlink (f := fun r => { r with next := 0, totLen := r.len }) hp rfl rfl
      rw [hnext₁] at hc₂
      obtain ⟨l, q, k, hfree, hfreed, hcounted⟩ := pbufFree_spec (p := h.next p) hc₂
        fun _ => by rw [addRef_self]; omega
      rw [hfree] at hrun
      obtain ⟨-, rfl⟩ := Prod.mk.inj (Option.some.inj hrun)
      exact htot₂.freed hcounted hfreed
    · refine ⟨path_cons.mpr ⟨rfl, ?_⟩, fun h0 => hc.ne_null hp (List.mem_singleton.mp h0).symm⟩
      rw [path_nil, next_set, Function.update_self]
    · simp only [pbuf_set_self, chainSum_cons, chainSum_nil, Nat.add_zero]

/-! ## Allocating -/

/-- The tail that `pbuf_alloc` put behind `r`: the new pbufs `l`, each with a count of one. -/
structure Extended (h : Heap) (r : ℕ) (l : List ℕ) (k : Heap) : Prop where
  path : Path k.next r (r :: l) 0
  null : 0 ∉ l
  fresh : ∀ x ∈ l, x ∉ h.allocated
  allocated : k.allocated = h.allocated ∪ l.toFinset
  ref_one : ∀ x ∈ l, (k.pbuf x).ref = 1
  first : k.pbuf r = { h.pbuf r with next := k.next r }
  others : ∀ x, x ≠ r → x ∉ l → k.pbuf x = h.pbuf x

/-- The pbuf at `x` is an element of the pool with its payload right behind the structure. -/
def FromPool (c : Config) (r : Pbuf) (x : ℕ) : Prop :=
  r.type = .pool ∧ r.flags = 0 ∧ r.payload = x + c.sizeofStructPbuf ∧ r.len.toNat ≤ c.pbufPoolBufsizeAligned

/-- The loop of `pbuf_alloc` extends the chain by the first elements, and when it got all that it needs the totals of the
new pbufs are right. -/
theorem allocTail_spec (hr : r ∈ h.allocated) (hr0 : r ≠ 0) (hlast : h.next r = 0) (hun : Unused h elems)
    (hrem : rem < 2 ^ 16) :
    ∃ l rest, elems = l ++ rest ∧ Extended h r l (allocTail c elems h r rem).2 ∧
      (∀ x ∈ l, FromPool c ((allocTail c elems h r rem).2.pbuf x) x) ∧
      ((allocTail c elems h r rem).1 = true →
        chainSum (allocTail c elems h r rem).2 l = rem ∧ ∀ x ∈ l, TotalOk (allocTail c elems h r rem).2 x) ∧
      ((allocTail c elems h r rem).1 = true ↔ rem ≤ elems.length * c.pbufPoolBufsizeAligned) ∧
      ((allocTail c elems h r rem).1 = false → rest = []) := by
  induction elems generalizing h r rem with
  | nil =>
      refine ⟨[], [], rfl, ⟨path_cons.mpr ⟨rfl, hlast⟩, List.not_mem_nil, by simp, by simp [allocTail], by simp, rfl,
        fun _ _ _ => rfl⟩, by simp, fun hok => ?_, by simp [allocTail], fun _ => rfl⟩
      have h0 : rem = 0 := by simpa [allocTail] using hok
      exact ⟨h0.symm, by simp⟩
  | cons q elems ih =>
      rw [allocTail]
      by_cases hrem0 : rem = 0
      · rw [if_pos hrem0]
        exact ⟨[], q :: elems, rfl, ⟨path_cons.mpr ⟨rfl, hlast⟩, List.not_mem_nil, by simp, by simp, by simp, rfl,
          fun _ _ _ => rfl⟩, by simp, fun _ => ⟨hrem0.symm, by simp⟩, by simp [hrem0], by simp⟩
      rw [if_neg hrem0]
      -- the next element becomes the end of the chain, and the loop goes on from it
      obtain ⟨hq0, hq⟩ := hun.2 q List.mem_cons_self
      have hrq : r ≠ q := fun heq => hq (heq ▸ hr)
      generalize hk : ((h.take q fun _ => fillTail c q rem).set r fun p => { p with next := q }) = k
      have hkq : k.pbuf q = fillTail c q rem := by rw [← hk, pbuf_set_of_ne _ _ hrq.symm, pbuf_take_self]
      have hkr : k.pbuf r = { h.pbuf r with next := q } := by rw [← hk, pbuf_set_self, pbuf_take_of_ne _ _ hrq]
      have hkx : ∀ x, x ≠ r → x ≠ q → k.pbuf x = h.pbuf x := fun x hxr hxq => by
        rw [← hk, pbuf_set_of_ne _ _ hxr, pbuf_take_of_ne _ _ hxq]
      have hkalloc : k.allocated = insert q h.allocated := by rw [← hk]; rfl
      have hunk : Unused k elems := by
        rw [← hk]
        exact hun.tail fun _ => fillTail c q rem
      have hlastk : k.next q = 0 := by rw [Heap.next, hkq, fillTail]
      have hrem' : rem - min rem c.pbufPoolBufsizeAligned < 2 ^ 16 := lt_of_le_of_lt (Nat.sub_le _ _) hrem
      obtain ⟨l, rest, hsplit, hext, hpool, hok, hiff, hdry⟩ :=
        ih (hkalloc ▸ Finset.mem_insert_self q _) hq0 hlastk hunk hrem'
      generalize allocTail c elems k q (rem - min rem c.pbufPoolBufsizeAligned) = res at hext hpool hok hiff hdry ⊢
      have hrl : r ∉ l := fun hm => hext.fresh r hm (hkalloc ▸ Finset.mem_insert_of_mem hr)
      have hql : q ∉ l := fun hm => hext.fresh q hm (hkalloc ▸ Finset.mem_insert_self q _)
      have hresr : res.2.pbuf r = { h.pbuf r with next := q } := (hext.others r hrq hrl).trans hkr
      have hlen : (res.2.pbuf q).len.toNat = min rem c.pbufPoolBufsizeAligned := by
        rw [hext.first, hkq, fillTail]
        exact UInt16.toNat_ofNat_of_lt' (lt_of_le_of_lt (Nat.min_le_left _ _) hrem)
      refine ⟨q :: l, rest, by rw [hsplit, List.cons_append], ⟨?_, ?_, ?_, ?_, ?_, ?_, ?_⟩, ?_, ?_, ?_, hdry⟩
      · rw [path_cons, Heap.next, hresr]
        exact ⟨rfl, hext.path⟩
      · exact fun h0 => (List.mem_cons.mp h0).elim (fun heq => hq0 heq.symm) hext.null
      · intro x hx
        rcases List.mem_cons.mp hx with rfl | hx
        · exact hq
        · exact fun hm => hext.fresh x hx (hkalloc ▸ Finset.mem_insert_of_mem hm)
      · rw [hext.allocated, hkalloc, List.toFinset_cons, Finset.insert_union, Finset.union_insert]
      · intro x hx
        rcases List.mem_cons.mp hx with rfl | hx
        · rw [hext.first, hkq, fillTail]
        · exact hext.ref_one x hx
      · rw [Heap.next, hresr]
      · intro x hxr hx
        obtain ⟨hxq, hxl⟩ := not_or.mp (List.mem_cons.not.mp hx)
        rw [hext.others x hxq hxl, hkx x hxr hxq]
      · intro x hx
        rcases List.mem_cons.mp hx with rfl | hx
        · refine ⟨?_, ?_, ?_, hlen ▸ Nat.min_le_right _ _⟩
          all_goals rw [hext.first, hkq, fillTail]
        · exact hpool x hx
      · -- its `tot_len` is what was left to be placed when it was taken
        intro htrue
        obtain ⟨hsum, htotal⟩ := hok htrue
        have hqsum : chainSum res.2 (q :: l) = rem := by
          rw [chainSum_cons, hlen, hsum]
          omega
        refine ⟨hqsum, fun x hx => ?_⟩
        rcases List.mem_cons.mp hx with rfl | hx
        · refine ⟨x :: l, ⟨hext.path, fun h0 => ?_⟩, ?_⟩
          · exact (List.mem_cons.mp h0).elim (fun heq => hq0 heq.symm) hext.null
          · rw [hqsum, hext.first, hkq, fillTail]
            exact UInt16.toNat_ofNat_of_lt' hrem
        · exact htotal x hx
      · rw [hiff, List.length_cons, Nat.succ_mul]
        omega

/-- A new chain `p :: l` leaves the others alone. -/
theorem Totalled.extend (hc : Counted h owner) (htot : Totalled h) (hp : p ∉ h.allocated)
    (hfresh : ∀ x ∈ l, x ∉ h.allocated) (halloc : k.allocated ⊆ insert p (h.allocated ∪ l.toFinset))
    (hothers : ∀ x, x ≠ p → x ∉ l → k.pbuf x = h.pbuf x) (hnew : ∀ x ∈ p :: l, TotalOk k x) : Totalled k := by
  intro x hx
  have hold : x ∈ h.allocated ∨ x ∈ p :: l := by
    rcases Finset.mem_insert.mp (halloc hx) with rfl | hx
    · exact .inr List.mem_cons_self
    · exact (Finset.mem_union.mp hx).imp_right fun hm => List.mem_cons_of_mem p (List.mem_toFinset.mp hm)
  rcases hold with hx | hx
  · obtain ⟨l', hl', hsum⟩ := htot x hx
    have hsame : ∀ y ∈ l', k.pbuf y = h.pbuf y := by
      intro y hy
      have hmem := hl'.subset hc hx y hy
      exact hothers y (fun heq => hp (heq ▸ hmem)) fun hm => hfresh y hm hmem
    have hxsame := hsame x (hl'.self_mem (hc.ne_null hx))
    refine TotalOk.congr hl' ⟨l', hl', hsum⟩ (fun y hy => ?_) (fun y hy => by rw [hsame y hy]) (by rw [hxsame])
    rw [Heap.next, hsame y hy]
    rfl
  · exact hnew x hx

/-- The first pbuf takes no more than what was asked for. -/
theorem headLen_le (c : Config) (layer : PbufLayer) (length : UInt16) : headLen c layer length ≤ length.toNat :=
  Nat.min_le_left _ _

/-- The chain from the pool is complete: its lengths sum up to the length asked for. -/
theorem Extended.complete {layer : PbufLayer} {length : UInt16} (hq0 : q ≠ 0)
    (hext : Extended (h.take q (fillHead c layer length q)) q l k)
    (hsum : chainSum k l = length.toNat - headLen c layer length) :
    Chain k q (q :: l) ∧ chainSum k (q :: l) = length.toNat ∧ TotalOk k q := by
  have hhead : k.pbuf q = { fillHead c layer length q (h.pbuf q) with next := k.next q } := by
    rw [hext.first, pbuf_take_self]
  have hnull : 0 ∉ q :: l := fun h0 => (List.mem_cons.mp h0).elim (fun heq => hq0 heq.symm) hext.null
  have hle := headLen_le c layer length
  have hlen : (UInt16.ofNat (headLen c layer length)).toNat = headLen c layer length :=
    UInt16.toNat_ofNat_of_lt' (lt_of_le_of_lt hle length.toNat_lt)
  have hall : chainSum k (q :: l) = length.toNat := by
    rw [chainSum_cons, hsum, hhead, fillHead]
    simp only [hlen]
    omega
  refine ⟨⟨hext.path, hnull⟩, hall, q :: l, ⟨hext.path, hnull⟩, ?_⟩
  rw [hall, hhead, fillHead]

/-- The totals after a complete allocation. -/
theorem Totalled.complete (hc : Counted h owner) (htot : Totalled h) (hq0 : q ≠ 0) (hq : q ∉ h.allocated)
    {layer : PbufLayer} {length : UInt16} (hext : Extended (h.take q (fillHead c layer length q)) q l k)
    (hsum : chainSum k l = length.toNat - headLen c layer length) (htail : ∀ x ∈ l, TotalOk k x) : Totalled k := by
  refine htot.extend hc (l := l) hq (fun x hx hm => hext.fresh x hx (Finset.mem_insert_of_mem hm)) ?_ ?_ ?_
  · rw [hext.allocated]
    exact (Finset.insert_union q h.allocated l.toFinset).le
  · exact fun x hxq hx => (hext.others x hxq hx).trans (pbuf_take_of_ne h _ hxq)
  · intro x hx
    rcases List.mem_cons.mp hx with rfl | hx
    · obtain ⟨-, -, hok⟩ := hext.complete hq0 hsum
      exact hok
    · exact htail x hx

/-- A chain that could not be completed is freed as a whole. -/
theorem Totalled.rollback {f : Pbuf → Pbuf} (htot : Totalled h) (hc' : Counted h' owner) (hnull : 0 ∉ k.allocated)
    (hq : q ∉ h.allocated) (hone : (f (h.pbuf q)).ref = 1) (hext : Extended (h.take q f) q l k)
    (hfreed : Freed k q l' r h') : Totalled h' := by
  have hall : ∀ x ∈ q :: l, (k.pbuf x).ref = 1 := by
    intro x hx
    rcases List.mem_cons.mp hx with rfl | hx
    · rw [hext.first, pbuf_take_self, hone]
    · exact hext.ref_one x hx
  have hmemk : ∀ x, x ∈ k.allocated ↔ x ∈ h.allocated ∨ x ∈ q :: l := by
    intro x
    rw [hext.allocated, Heap.take]
    simp only [Finset.mem_union, Finset.mem_insert, List.mem_toFinset, List.mem_cons]
    tauto
  have hnew : ∀ x ∈ q :: l, x ∉ h.allocated := by
    intro x hx
    rcases List.mem_cons.mp hx with rfl | hx
    · exact hq
    · exact fun hm => hext.fresh x hx (Finset.mem_insert_of_mem hm)
  -- all counts are one, so the walk went to the end of the chain
  obtain ⟨l₂, hl₂, hrest⟩ := hfreed.path.prefix hext.path fun h0 => hnull (hfreed.allocated_of_mem 0 h0)
  have hend : l₂ = [] := by
    cases l₂ with
    | nil => rfl
    | cons y l₂ =>
        obtain rfl := (path_cons.mp hrest).1
        have hmem : r ∈ q :: l := hl₂ ▸ List.mem_append_right l' List.mem_cons_self
        have hr0 : r ≠ 0 := fun h0 => hnull (h0 ▸ (hmemk r).mpr (.inr hmem))
        exact absurd (hall r hmem) (hfreed.ref_ne_one hr0).2
  rw [hend, List.append_nil] at hl₂
  have halloc : ∀ x, x ∈ h'.allocated ↔ x ∈ h.allocated := by
    intro x
    rw [hfreed.allocated, Finset.mem_sdiff, List.mem_toFinset, hmemk, ← hl₂]
    exact ⟨fun hx => hx.1.resolve_right hx.2, fun hx => ⟨.inl hx, fun hm => hnew x hm hx⟩⟩
  have hr : r = 0 := by rwa [hend, path_nil] at hrest
  have hsame : ∀ x ∈ h'.allocated, h'.pbuf x = h.pbuf x := by
    intro x hx
    have hxh := (halloc x).mp hx
    obtain ⟨hxq, hxl⟩ := not_or.mp (List.mem_cons.not.mp fun hm => hnew x hm hxh)
    have hx0 : x ≠ r := fun heq => hnull ((hmemk 0).mpr (.inl (hr ▸ heq ▸ hxh)))
    rw [hfreed.others x (fun hm => hnew x (hl₂ ▸ hm) hxh) hx0, hext.others x hxq hxl, pbuf_take_of_ne h _ hxq]
  refine htot.mono hc' (fun x hx => (halloc x).mp hx) ?_ ?_ ?_
  all_goals
    intro x hx
    simp only [Heap.next, hsame x hx]

/-- `pbuf_alloc` makes a chain with right totals, and leaves nothing behind when it fails. -/
theorem Totalled.pbufAlloc (hc : Counted h owner) (htot : Totalled h) (hun : Unused h elems) {layer : PbufLayer}
    {length : UInt16} {type : PbufType} (hrun : pbufAlloc c h layer length type elems = some (p, h')) :
    Totalled h' := by
  cases elems with
  | nil =>
      obtain ⟨-, rfl⟩ := Prod.mk.inj (Option.some.inj hrun)
      exact htot
  | cons q elems =>
      obtain ⟨hq0, hq⟩ := hun.2 q List.mem_cons_self
      -- the types other than `PBUF_POOL` take one pbuf, whose `tot_len` is its `len`
      have hsimple : ∀ b : Pbuf, b.next = 0 → b.totLen = b.len → Totalled (h.take q fun _ => b) := by
        intro b hnext htotLen
        refine htot.extend hc (l := []) hq (by simp) (by simp [Heap.take]) (fun x hx _ => pbuf_take_of_ne h _ hx) ?_
        intro x hx
        obtain rfl := List.mem_singleton.mp hx
        refine ⟨[x], ⟨path_cons.mpr ⟨rfl, ?_⟩, fun h0 => hq0 (List.mem_singleton.mp h0).symm⟩, ?_⟩
        · rw [path_nil, Heap.next, pbuf_take_self, hnext]
        · simp only [pbuf_take_self, htotLen, chainSum_cons, chainSum_nil, Nat.add_zero]
      cases type with
      | ram =>
          obtain ⟨-, rfl⟩ := Prod.mk.inj (Option.some.inj hrun)
          exact hsimple _ rfl rfl
      | rom =>
          obtain ⟨-, rfl⟩ := Prod.mk.inj (Option.some.inj hrun)
          exact hsimple _ rfl rfl
      | ref =>
          obtain ⟨-, rfl⟩ := Prod.mk.inj (Option.some.inj hrun)
          exact hsimple _ rfl rfl
      | pool =>
          have hself : q ∈ (h.take q (fillHead c layer length q)).allocated := Finset.mem_insert_self _ _
          have htaken := hc.take (f := fillHead c layer length q) hq0 hq rfl rfl
          have hlast : (h.take q (fillHead c layer length q)).next q = 0 := by
            rw [Heap.next, pbuf_take_self, fillHead]
          have hrem : length.toNat - headLen c layer length < 2 ^ 16 := lt_of_le_of_lt (Nat.sub_le _ _) length.toNat_lt
          have hunt := hun.tail (fillHead c layer length q)
          obtain ⟨l, -, -, hext, -, hok, -, -⟩ := allocTail_spec (c := c) hself hq0 hlast hunt hrem
          have hcounted := htaken.allocTail (c := c) hself hlast hunt (length.toNat - headLen c layer length)
          rw [Pbufs.pbufAlloc] at hrun
          generalize allocTail c elems (h.take q (fillHead c layer length q)) q
            (length.toNat - headLen c layer length) = res at hext hok hcounted hrun
          cases hres : res.1 with
          -- a chain of the whole length
          | true =>
              obtain ⟨hsum, htail⟩ := hok hres
              simp only [hres, if_true] at hrun
              obtain ⟨-, rfl⟩ := Prod.mk.inj (Option.some.inj hrun)
              exact (htot.complete hc hq0 hq hext hsum htail).set_other rfl rfl rfl
          -- the part that was built goes back, and the rest is as it was
          | false =>
              obtain ⟨l', r, k, hfree, hfreed, hfinal⟩ := pbufFree_spec (p := q) hcounted
                fun _ => by rw [addRef_self]; omega
              simp only [hres, hfree] at hrun
              obtain ⟨-, rfl⟩ := Prod.mk.inj (Option.some.inj hrun)
              exact htot.rollback hfinal hcounted.null hq rfl hext hfreed

end BareMetal.Pbufs
