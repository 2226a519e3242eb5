import BareMetal.Pbuf.Heap

/-! # The reference counts

`Counted h owner`: the count of every pbuf is the number of references that its owners hold and of the links
to it, and a pbuf is allocated as long as there is one of them. The functions of `pbuf.c` keep it; `pbuf_free`
drops one reference, and while a count gets to zero it frees the pbuf and goes on with the reference
that its link was (`pbufFreeLoop_spec`). -/

namespace BareMetal.Pbufs

variable {h h' : Heap} {owner : ℕ → ℕ} {p q x t fuel : ℕ} {count : UInt8} {f : Pbuf → Pbuf}

/-- The counts are right, exactly the referenced pbufs are allocated, and none was used after it was freed. -/
structure Counted (h : Heap) (owner : ℕ → ℕ) : Prop where
  null : 0 ∉ h.allocated
  ref_eq : ∀ p ∈ h.allocated, (h.pbuf p).ref.toNat = owner p + h.links p
  allocated_iff : ∀ p, p ≠ 0 → (p ∈ h.allocated ↔ 0 < owner p + h.links p)
  fault : h.fault = false

/-- Writing a pbuf allocates nothing. -/
@[simp] theorem allocated_set (h : Heap) (p : ℕ) (f : Pbuf → Pbuf) : (h.set p f).allocated = h.allocated := rfl

/-- And is no fault. -/
@[simp] theorem fault_set (h : Heap) (p : ℕ) (f : Pbuf → Pbuf) : (h.set p f).fault = h.fault := rfl

/-- The pbuf that was written. -/
@[simp] theorem pbuf_set_self (h : Heap) (p : ℕ) (f : Pbuf → Pbuf) : (h.set p f).pbuf p = f (h.pbuf p) :=
  Function.update_self _ _ _

/-- The other pbufs. -/
@[simp] theorem pbuf_set_of_ne (h : Heap) (f : Pbuf → Pbuf) (hne : x ≠ p) : (h.set p f).pbuf x = h.pbuf x :=
  Function.update_of_ne hne _ _

/-- The links after a write. -/
theorem next_set (h : Heap) (p : ℕ) (f : Pbuf → Pbuf) :
    (h.set p f).next = Function.update h.next p (f (h.pbuf p)).next := by
  funext x
  by_cases hx : x = p
  · subst hx
    rw [Heap.next, pbuf_set_self, Function.update_self]
  · rw [Heap.next, pbuf_set_of_ne h f hx, Function.update_of_ne hx]
    rfl

/-- A change that is not to the link. -/
theorem next_set_of_eq (hnext : (f (h.pbuf p)).next = (h.pbuf p).next) : (h.set p f).next = h.next := by
  rw [next_set, hnext]
  exact Function.update_eq_self p h.next

/-- Using an allocated pbuf is no fault. -/
theorem use_eq (hp : p ∈ h.allocated) : h.use p = h := by
  have hfault : (h.fault || decide (p ∉ h.allocated)) = h.fault := by simp [hp]
  rw [Heap.use, hfault]

/-- `NULL` is not allocated. -/
theorem Counted.ne_null (hc : Counted h owner) (hp : p ∈ h.allocated) : p ≠ 0 := fun h0 => hc.null (h0 ▸ hp)

/-- What a link leads to is allocated. -/
theorem Counted.next_mem (hc : Counted h owner) (hp : p ∈ h.allocated) (hnext : h.next p ≠ 0) :
    h.next p ∈ h.allocated := by
  have hlinks : h.links (h.next p) ≠ 0 := fun h0 => inDegree_eq_zero_iff.mp h0 p hp rfl
  exact (hc.allocated_iff _ hnext).mpr (by omega)

/-- What an owner refers to is allocated. -/
theorem Counted.mem_of_owner (hc : Counted h owner) (hp : p ≠ 0) (howner : 0 < owner p) : p ∈ h.allocated :=
  (hc.allocated_iff p hp).mpr (by omega)

/-- What is not allocated, nobody refers to. -/
theorem Counted.unreferenced (hc : Counted h owner) (hp : p ≠ 0) (hnot : p ∉ h.allocated) :
    owner p = 0 ∧ h.links p = 0 := by
  have := (hc.allocated_iff p hp).not.mp hnot
  omega

/-- One reference less to the pbuf. -/
@[simp] theorem dropRef_self (owner : ℕ → ℕ) (p : ℕ) : dropRef owner p p = owner p - 1 :=
  Function.update_self _ _ _

/-- One reference more to the pbuf. -/
@[simp] theorem addRef_self (owner : ℕ → ℕ) (p : ℕ) : addRef owner p p = owner p + 1 :=
  Function.update_self _ _ _

/-- The others have theirs. -/
theorem dropRef_of_ne (owner : ℕ → ℕ) (hne : x ≠ p) : dropRef owner p x = owner x :=
  Function.update_of_ne hne _ _

/-- The others have theirs. -/
theorem addRef_of_ne (owner : ℕ → ℕ) (hne : x ≠ p) : addRef owner p x = owner x :=
  Function.update_of_ne hne _ _

/-- A reference that is given up again. -/
theorem dropRef_addRef (owner : ℕ → ℕ) (p : ℕ) : dropRef (addRef owner p) p = owner := by
  funext x
  by_cases hx : x = p
  · subst hx
    simp
  · rw [dropRef_of_ne _ hx, addRef_of_ne _ hx]

/-- Counting references, as a sum. -/
theorem addRef_apply (owner : ℕ → ℕ) (p x : ℕ) : addRef owner p x = owner x + if p = x then 1 else 0 := by
  by_cases hx : p = x
  · subst hx
    simp
  · rw [addRef_of_ne _ (Ne.symm hx), if_neg hx, Nat.add_zero]

/-- Changes of the counted data that fit each other keep the counts right. -/
theorem Counted.set_ref {owner' : ℕ → ℕ} (hc : Counted h owner) (hp : p ∈ h.allocated)
    (hnext : (f (h.pbuf p)).next = (h.pbuf p).next)
    (hself : (f (h.pbuf p)).ref.toNat = owner' p + h.links p) (hpos : 0 < owner' p + h.links p)
    (hother : ∀ x, x ≠ p → owner' x = owner x) : Counted (h.set p f) owner' := by
  have hlinks : ∀ x, (h.set p f).links x = h.links x := fun x => by
    rw [Heap.links, next_set_of_eq hnext, allocated_set, Heap.links]
  constructor
  · exact hc.null
  · intro x hx
    rw [hlinks]
    by_cases hxp : x = p
    · subst hxp
      rwa [pbuf_set_self]
    · rw [pbuf_set_of_ne h f hxp, hother x hxp]
      exact hc.ref_eq x hx
  · intro x hx
    rw [hlinks, allocated_set]
    by_cases hxp : x = p
    · subst hxp
      exact iff_of_true hp hpos
    · rw [hother x hxp]
      exact hc.allocated_iff x hx
  · exact hc.fault

/-- A change that is neither to the link nor to the count. -/
theorem Counted.set_other (hc : Counted h owner) (hp : p ∈ h.allocated)
    (hnext : (f (h.pbuf p)).next = (h.pbuf p).next) (href : (f (h.pbuf p)).ref = (h.pbuf p).ref) :
    Counted (h.set p f) owner := by
  refine hc.set_ref hp hnext ?_ ?_ fun _ _ => rfl
  · rw [href]
    exact hc.ref_eq p hp
  · exact (hc.allocated_iff p (hc.ne_null hp)).mp hp

/-- `pbuf_ref` adds a reference. -/
theorem Counted.pbufRef (hc : Counted h owner) (hp : p ∈ h.allocated) (hlt : (h.pbuf p).ref.toNat + 1 < 2 ^ 16) :
    Counted (pbufRef h p) (addRef owner p) := by
  rw [Pbufs.pbufRef, if_neg (hc.ne_null hp), use_eq hp]
  refine hc.set_ref hp rfl ?_ (by rw [addRef_self]; omega) fun x hx => addRef_of_ne owner hx
  have href := hc.ref_eq p hp
  rw [addRef_self, UInt16.toNat_add, Nat.mod_eq_of_lt (by simpa using hlt)]
  simp only [UInt16.reduceToNat]
  omega

/-- Redirecting the link of a pbuf keeps the counts right when the owners take over the reference that the old
link was and give up the one that the new link is. -/
theorem Counted.set_next {owner' : ℕ → ℕ} (hc : Counted h owner) (hp : p ∈ h.allocated)
    (href : (f (h.pbuf p)).ref = (h.pbuf p).ref)
    (howner : ∀ x, x ≠ 0 → owner' x + (if (f (h.pbuf p)).next = x then 1 else 0) =
      owner x + if h.next p = x then 1 else 0) : Counted (h.set p f) owner' := by
  have htotal : ∀ x, x ≠ 0 → owner' x + (h.set p f).links x = owner x + h.links x := by
    intro x hx
    have hupdate := inDegree_update hp h.next (f (h.pbuf p)).next x
    have hx' := howner x hx
    rw [Heap.links, next_set, allocated_set, Heap.links]
    omega
  constructor
  · exact hc.null
  · intro x hx
    rw [htotal x (hc.ne_null hx), ← hc.ref_eq x hx]
    by_cases hxp : x = p
    · subst hxp
      rw [pbuf_set_self, href]
    · rw [pbuf_set_of_ne h f hxp]
  · intro x hx
    rw [htotal x hx]
    exact hc.allocated_iff x hx
  · exact hc.fault

/-- The last pbuf of a chain is linked to `q`, which takes over a reference of an owner. -/
theorem Counted.link (hc : Counted h owner) (hp : p ∈ h.allocated) (hlast : h.next p = 0)
    (hown : 0 < owner q) (hnext : (f (h.pbuf p)).next = q) (href : (f (h.pbuf p)).ref = (h.pbuf p).ref) :
    Counted (h.set p f) (dropRef owner q) := by
  refine hc.set_next hp href fun x hx => ?_
  rw [hnext, hlast, if_neg (Ne.symm hx)]
  by_cases hxq : q = x
  · subst hxq
    rw [dropRef_self, if_pos rfl]
    omega
  · rw [dropRef_of_ne _ (Ne.symm hxq), if_neg hxq]

/-- A chain is cut behind `p`, and the reference that the link was is held by an owner. -/
theorem Counted.unlink (hc : Counted h owner) (hp : p ∈ h.allocated)
    (hnext : (f (h.pbuf p)).next = 0) (href : (f (h.pbuf p)).ref = (h.pbuf p).ref) :
    Counted (h.set p f) (addRef owner (h.next p)) := by
  refine hc.set_next hp href fun x hx => ?_
  rw [hnext, if_neg (Ne.symm hx), addRef_apply, Nat.add_zero]

/-- A new pbuf, with a reference of its owner. -/
theorem Counted.take (hc : Counted h owner) (hp0 : p ≠ 0) (hnew : p ∉ h.allocated)
    (hnext : (f (h.pbuf p)).next = 0) (href : (f (h.pbuf p)).ref = 1) :
    Counted (h.take p f) (addRef owner p) := by
  obtain ⟨howner, hlinks⟩ := hc.unreferenced hp0 hnew
  have hlinks' : ∀ x, x ≠ 0 → (h.take p f).links x = h.links x := by
    intro x hx
    have hcongr : inDegree h.allocated (h.set p f).next x = inDegree h.allocated h.next x := by
      refine inDegree_congr (fun y hy => ?_) x
      have hyp : y ≠ p := fun heq => hnew (heq ▸ hy)
      rw [Heap.next, pbuf_set_of_ne h f hyp]
      rfl
    have hself : (h.set p f).next p ≠ x := by
      rw [Heap.next, pbuf_set_self, hnext]
      exact Ne.symm hx
    exact (inDegree_insert hnew (h.set p f).next x).trans (by rw [hcongr, if_neg hself]; rfl)
  constructor
  · exact fun h0 => (Finset.mem_insert.mp h0).elim (fun heq => hp0 heq.symm) hc.null
  · intro x hx
    by_cases hxp : x = p
    · subst hxp
      have hpbuf : (h.take x f).pbuf x = f (h.pbuf x) := pbuf_set_self h x f
      rw [hpbuf, href, hlinks' x hp0, hlinks, addRef_self, howner]
      rfl
    · have hx' : x ∈ h.allocated := (Finset.mem_insert.mp hx).resolve_left hxp
      rw [hlinks' x (hc.ne_null hx'), addRef_of_ne _ hxp, ← hc.ref_eq x hx']
      exact congrArg (fun q : Pbuf => q.ref.toNat) (pbuf_set_of_ne h f hxp)
  · intro x hx
    rw [hlinks' x hx]
    by_cases hxp : x = p
    · subst hxp
      exact iff_of_true (Finset.mem_insert_self _ _) (by rw [addRef_self]; omega)
    · rw [addRef_of_ne _ hxp, ← hc.allocated_iff x hx]
      exact ⟨fun hm => (Finset.mem_insert.mp hm).resolve_left hxp, fun hm => Finset.mem_insert_of_mem hm⟩
  · exact hc.fault

/-! ## Freeing -/

/-- What `pbuf_free` did: it freed the pbufs `l` from the head of the chain, all with a count of one, and
dropped one reference to the next pbuf `q` of the chain, if there is one. -/
structure Freed (h : Heap) (p : ℕ) (l : List ℕ) (q : ℕ) (h' : Heap) : Prop where
  path : Path h.next p l q
  allocated_of_mem : ∀ x ∈ l, x ∈ h.allocated
  ref_one : ∀ x ∈ l, (h.pbuf x).ref = 1
  ref_ne_one : q ≠ 0 → q ∈ h.allocated ∧ (h.pbuf q).ref ≠ 1
  allocated : h'.allocated = h.allocated \ l.toFinset
  drop : q ≠ 0 → h'.pbuf q = { h.pbuf q with ref := (h.pbuf q).ref - 1 }
  others : ∀ x, x ∉ l → x ≠ q → h'.pbuf x = h.pbuf x

/-- Dropping the reference to the pbuf, if it is not `NULL`. -/
def dropped (owner : ℕ → ℕ) (p : ℕ) : ℕ → ℕ := if p = 0 then owner else dropRef owner p

/-- Freeing a pbuf with one reference makes its link a reference to drop. -/
theorem Counted.release (hc : Counted h owner) (hp : p ∈ h.allocated) (hown : 0 < owner p)
    (hone : (h.pbuf p).ref.toNat = 1) (hnext : (f (h.pbuf p)).next = (h.pbuf p).next) :
    Counted ((h.set p f).giveBack p) (if h.next p = 0 then dropRef owner p else addRef (dropRef owner p) (h.next p)) := by
  have href := hc.ref_eq p hp
  have hnextSet : (h.set p f).next = h.next := next_set_of_eq hnext
  have huse : (h.set p f).giveBack p = { h.set p f with allocated := h.allocated.erase p } := by
    rw [Heap.giveBack, use_eq (h := h.set p f) hp]
    rfl
  have hself : h.next p ≠ p := fun heq => by
    have hlinks : h.links p ≠ 0 := fun h0 => inDegree_eq_zero_iff.mp h0 p hp heq
    omega
  -- the reference of the holder moves on to the pbuf behind, which had one from the link
  have howner' : ∀ x, x ≠ 0 → (if h.next p = 0 then dropRef owner p else addRef (dropRef owner p) (h.next p)) x =
      dropRef owner p x + if h.next p = x then 1 else 0 := by
    intro x hx
    split
    · rename_i h0
      rw [h0, if_neg (Ne.symm hx), Nat.add_zero]
    · exact addRef_apply _ _ _
  -- one link less to that pbuf, and no link more to any other
  have hlinks : ∀ x, ((h.set p f).giveBack p).links x + (if h.next p = x then 1 else 0) = h.links x := by
    intro x
    rw [huse]
    change inDegree (h.allocated.erase p) (h.set p f).next x + _ = _
    rw [hnextSet]
    exact (inDegree_erase hp h.next x).symm
  constructor
  · rw [huse]
    exact fun h0 => hc.null (Finset.mem_of_mem_erase h0)
  · intro x hx
    rw [huse] at hx
    have hxp : x ≠ p := Finset.ne_of_mem_erase hx
    have hx' : x ∈ h.allocated := Finset.mem_of_mem_erase hx
    have hpbuf : ((h.set p f).giveBack p).pbuf x = h.pbuf x := by
      rw [huse]
      exact pbuf_set_of_ne h f hxp
    have := hlinks x
    rw [hpbuf, hc.ref_eq x hx', howner' x (hc.ne_null hx'), dropRef_of_ne _ hxp]
    omega
  · intro x hx
    have hl := hlinks x
    rw [howner' x hx, huse]
    by_cases hxp : x = p
    · -- nothing refers to the pbuf that was given back
      subst hxp
      rw [huse] at hl
      refine iff_of_false (fun hm => Finset.notMem_erase x _ hm) ?_
      rw [if_neg hself] at hl ⊢
      rw [dropRef_self]
      omega
    · rw [huse] at hl
      rw [dropRef_of_ne _ hxp]
      have hiff := hc.allocated_iff x hx
      refine ⟨fun hm => ?_, fun hpos => Finset.mem_erase.mpr ⟨hxp, hiff.mpr (by omega)⟩⟩
      have := hiff.mp (Finset.mem_of_mem_erase hm)
      omega
  · rw [huse]
    exact hc.fault

/-- Giving up a reference to what may be `NULL`. -/
theorem dropped_of_addRef (owner : ℕ → ℕ) (q : ℕ) :
    dropped (if q = 0 then owner else addRef owner q) q = owner := by
  rw [dropped]
  split
  · rfl
  · exact dropRef_addRef owner q

/-- Freeing `NULL` frees nothing. -/
theorem freed_null (h : Heap) : Freed h 0 [] 0 h := by
  constructor
  · rfl
  · simp
  · simp
  · exact fun hne => absurd rfl hne
  · simp
  · exact fun hne => absurd rfl hne
  · exact fun _ _ _ => rfl

/-- `p` is freed, and then the rest of the chain. -/
theorem Freed.cons {l : List ℕ} (hp : p ∈ h.allocated) (hone : (h.pbuf p).ref = 1)
    (hnext : (f (h.pbuf p)).next = (h.pbuf p).next)
    (hrest : Freed ((h.set p f).giveBack p) (h.next p) l q h') : Freed h p (p :: l) q h' := by
  have huse : (h.set p f).giveBack p = { h.set p f with allocated := h.allocated.erase p } := by
    rw [Heap.giveBack, use_eq (h := h.set p f) hp]
    rfl
  have hpbuf : ∀ x, x ≠ p → ((h.set p f).giveBack p).pbuf x = h.pbuf x := fun x hx => by
    rw [huse]
    exact pbuf_set_of_ne h f hx
  have hnext' : ((h.set p f).giveBack p).next = h.next := by
    rw [huse]
    exact next_set_of_eq hnext
  have halloc : ((h.set p f).giveBack p).allocated = h.allocated.erase p := by
    rw [huse]
  constructor
  · exact path_cons.mpr ⟨rfl, hnext' ▸ hrest.path⟩
  · intro x hx
    rcases List.mem_cons.mp hx with rfl | hx
    · exact hp
    · exact Finset.mem_of_mem_erase (halloc ▸ hrest.allocated_of_mem x hx)
  · intro x hx
    rcases List.mem_cons.mp hx with rfl | hx
    · exact hone
    · have hxp := Finset.ne_of_mem_erase (halloc ▸ hrest.allocated_of_mem x hx)
      rw [← hpbuf x hxp]
      exact hrest.ref_one x hx
  · intro hq
    obtain ⟨hmem, hne⟩ := hrest.ref_ne_one hq
    rw [halloc] at hmem
    rw [hpbuf q (Finset.ne_of_mem_erase hmem)] at hne
    exact ⟨Finset.mem_of_mem_erase hmem, hne⟩
  · rw [hrest.allocated, halloc, List.toFinset_cons, Finset.sdiff_insert, Finset.erase_sdiff_comm]
  · intro hq
    have hmem := (hrest.ref_ne_one hq).1
    rw [halloc] at hmem
    rw [hrest.drop hq, hpbuf q (Finset.ne_of_mem_erase hmem)]
  · intro x hx hxq
    obtain ⟨hxp, hxl⟩ := not_or.mp (List.mem_cons.not.mp hx)
    rw [hrest.others x hxl hxq, hpbuf x hxp]

/-- The count of `p` stays above zero, and the walk stops. -/
theorem freed_stop (hp : p ∈ h.allocated) (hone : (h.pbuf p).ref ≠ 1) :
    Freed h p [] p (h.set p fun q => { q with ref := q.ref - 1 }) := by
  constructor
  · rfl
  · simp
  · simp
  · exact fun _ => ⟨hp, hone⟩
  · simp
  · exact fun _ => pbuf_set_self h p _
  · exact fun x _ hx => pbuf_set_of_ne h _ hx

/-- **What `pbuf_free` does.** It ends, frees the pbufs with a count of one from the head of the chain on,
drops one reference to the next one, and returns how many it freed. -/
theorem pbufFreeLoop_spec (hc : Counted h owner) (hp : p ≠ 0 → 0 < owner p)
    (hfuel : h.allocated.card ≤ fuel) (count : UInt8) :
    ∃ l q h', pbufFreeLoop fuel h p count = some (count + UInt8.ofNat l.length, h') ∧
      Freed h p l q h' ∧ Counted h' (dropped owner p) := by
  induction fuel generalizing h owner p count with
  | zero =>
      -- there is no pbuf, so there is no reference to one
      have hp0 : p = 0 := by
        by_contra hne
        have hmem := hc.mem_of_owner hne (hp hne)
        exact absurd (Finset.card_pos.mpr ⟨p, hmem⟩) (by omega)
      subst hp0
      exact ⟨[], 0, h, by simp [pbufFreeLoop], freed_null h, by rwa [dropped, if_pos rfl]⟩
  | succ fuel ih =>
      by_cases hp0 : p = 0
      · subst hp0
        exact ⟨[], 0, h, by simp [pbufFreeLoop], freed_null h, by rwa [dropped, if_pos rfl]⟩
      have hown := hp hp0
      have hmem := hc.mem_of_owner hp0 hown
      have href := hc.ref_eq p hmem
      have hdrop : dropped owner p = dropRef owner p := if_neg hp0
      rw [pbufFreeLoop, if_neg hp0, use_eq hmem, hdrop]
      have hnextSet : (h.set p fun q => { q with ref := (h.pbuf p).ref - 1 }).next p = h.next p :=
        congrFun (next_set_of_eq rfl) p
      by_cases hone : (h.pbuf p).ref = 1
      · -- the last reference: the link becomes the reference to drop
        have hzero : (h.pbuf p).ref - 1 = 0 := by rw [hone]; rfl
        have hc' := hc.release (f := fun q => { q with ref := (h.pbuf p).ref - 1 }) hmem hown
          (by rw [hone]; rfl) rfl
        have hcard : ((h.set p fun q => { q with ref := (h.pbuf p).ref - 1 }).giveBack p).allocated.card ≤ fuel := by
          have : (h.allocated.erase p).card = h.allocated.card - 1 := Finset.card_erase_of_mem hmem
          exact this.le.trans (by omega)
        obtain ⟨l, q, h', hrun, hfreed, hcounted⟩ := ih hc' (p := h.next p)
          (fun hne => by rw [if_neg hne, addRef_self]; omega) hcard (count + 1)
        refine ⟨p :: l, q, h', ?_, hfreed.cons hmem hone rfl, ?_⟩
        · simp only [hnextSet]
          rw [if_pos hzero, hrun, List.length_cons, UInt8.ofNat_add, UInt8.add_assoc,
            UInt8.add_comm (UInt8.ofNat l.length)]
          rfl
        · rwa [dropped_of_addRef] at hcounted
      · have hne : (h.pbuf p).ref - 1 ≠ 0 := fun h0 => hone (by
          rw [← UInt16.sub_add_cancel (h.pbuf p).ref 1, h0]
          rfl)
        refine ⟨[], p, _, ?_, freed_stop hmem hone, ?_⟩
        · simp only [if_neg hne]
          simp
          rfl
        · have hone' : (h.pbuf p).ref.toNat ≠ 1 := fun heq => hone (UInt16.toNat_inj.mp heq)
          have hle : (1 : UInt16) ≤ (h.pbuf p).ref := by
            rw [UInt16.le_iff_toNat_le]
            simp only [UInt16.reduceToNat]
            omega
          refine hc.set_ref hmem rfl ?_ ?_ fun x hx => dropRef_of_ne owner hx
          · rw [dropRef_self, UInt16.toNat_sub_of_le _ _ hle]
            simp only [UInt16.reduceToNat]
            omega
          · rw [dropRef_self]
            omega

/-- `pbuf_free` drops the reference of an owner. -/
theorem pbufFree_spec (hc : Counted h owner) (hp : p ≠ 0 → 0 < owner p) :
    ∃ l q h', pbufFree h p = some (UInt8.ofNat l.length, h') ∧ Freed h p l q h' ∧
      Counted h' (dropped owner p) := by
  obtain ⟨l, q, h', hrun, hrest⟩ := pbufFreeLoop_spec hc hp le_rfl 0
  rw [UInt8.zero_add] at hrun
  exact ⟨l, q, h', hrun, hrest⟩

/-! ## Joining and splitting -/

/-- `pbuf_cat` turns the reference of the caller into a link. -/
theorem Counted.pbufCatLoop (hc : Counted h owner) (hp : p ∈ h.allocated) (ht : t ∈ h.allocated)
    (hown : 0 < owner t) (hrun : pbufCatLoop t fuel h p = some h') : Counted h' (dropRef owner t) := by
  induction fuel generalizing h p with
  | zero => cases hrun
  | succ fuel ih =>
      rw [Pbufs.pbufCatLoop, use_eq hp, use_eq ht] at hrun
      have hnextSet : (h.set p fun q => { q with totLen := q.totLen + (h.pbuf t).totLen }).next p = h.next p :=
        congrFun (next_set_of_eq rfl) p
      have hc' := hc.set_other (f := fun q => { q with totLen := q.totLen + (h.pbuf t).totLen }) hp rfl rfl
      simp only [hnextSet] at hrun
      split at hrun
      · -- the last pbuf of the chain
        rename_i hlast
        obtain rfl := Option.some.inj hrun
        exact hc'.link hp (hnextSet.trans hlast) hown rfl rfl
      · rename_i hnext
        exact ih hc' (hc.next_mem hp hnext) ht hrun

/-- Changes of different fields, or of different pbufs, commute. -/
theorem set_comm (h : Heap) (f g : Pbuf → Pbuf) (hfg : ∀ b, f (g b) = g (f b)) (p q : ℕ) :
    (h.set p f).set q g = (h.set q g).set p f := by
  have hpbuf : ((h.set p f).set q g).pbuf = ((h.set q g).set p f).pbuf := by
    funext x
    by_cases hpq : p = q
    · subst hpq
      by_cases hx : x = p
      · subst hx
        simp only [pbuf_set_self, hfg]
      · simp only [pbuf_set_of_ne _ _ hx]
    · by_cases hx : x = q
      · subst hx
        rw [pbuf_set_self, pbuf_set_of_ne _ _ (Ne.symm hpq), pbuf_set_of_ne _ _ (Ne.symm hpq), pbuf_set_self]
      · by_cases hxp : x = p
        · subst hxp
          rw [pbuf_set_of_ne _ _ hx, pbuf_set_self, pbuf_set_self, pbuf_set_of_ne _ _ hx]
        · simp only [pbuf_set_of_ne _ _ hx, pbuf_set_of_ne _ _ hxp]
  exact congrArg (fun b => Heap.mk b h.allocated h.fault) hpbuf

/-- `pbuf_cat` neither reads nor writes a count. -/
theorem pbufCatLoop_set_ref (g : Pbuf → Pbuf)
    (hg : ∀ (b : Pbuf) (n : UInt16), g { b with totLen := n } = { g b with totLen := n })
    (hg' : ∀ (b : Pbuf) (n : ℕ), g { b with next := n } = { g b with next := n })
    (htot : ∀ b, (g b).totLen = b.totLen) (hnext : ∀ b, (g b).next = b.next) (fuel t p q : ℕ) (h : Heap) :
    pbufCatLoop t fuel (h.set q g) p = (pbufCatLoop t fuel h p).map fun h => h.set q g := by
  induction fuel generalizing h p with
  | zero => rfl
  | succ fuel ih =>
      have htotal : ((h.set q g).pbuf t).totLen = (h.pbuf t).totLen := by
        by_cases ht : t = q
        · subst ht
          rw [pbuf_set_self, htot]
        · rw [pbuf_set_of_ne _ _ ht]
      have huse : ((h.set q g).use p).use t = ((h.use p).use t).set q g := rfl
      have hcomm : (((h.use p).use t).set q g).set p (fun r => { r with totLen := r.totLen + (h.pbuf t).totLen }) =
          (((h.use p).use t).set p fun r => { r with totLen := r.totLen + (h.pbuf t).totLen }).set q g := by
        refine set_comm _ _ _ (fun b => ?_) q p
        rw [hg, htot]
      have hnextSet : ∀ (k : Heap) (x : ℕ), (k.set q g).next x = k.next x :=
        fun k x => congrFun (next_set_of_eq (hnext _)) x
      rw [pbufCatLoop, pbufCatLoop]
      simp only [htotal, huse, hcomm, hnextSet]
      split
      · rw [Option.map_some, set_comm _ _ _ (fun b => hg' b t) q p]
      · exact ih _ _

/-- Joining chains allocates nothing. -/
theorem allocated_pbufCatLoop (hrun : pbufCatLoop t fuel h p = some h') : h'.allocated = h.allocated := by
  induction fuel generalizing h p with
  | zero => cases hrun
  | succ fuel ih =>
      rw [pbufCatLoop] at hrun
      split at hrun
      · obtain rfl := Option.some.inj hrun
        rfl
      · have hrest := ih hrun
        exact hrest

/-- `pbuf_chain` adds a reference for its link. -/
theorem Counted.pbufChain (hc : Counted h owner) (hp : p ∈ h.allocated) (ht : t ∈ h.allocated)
    (hlt : (h.pbuf t).ref.toNat + 1 < 2 ^ 16) (hrun : pbufChain h p t = some h') : Counted h' owner := by
  have hbump : ∀ k : Heap, t ∈ k.allocated → Pbufs.pbufRef k t = k.set t fun q => { q with ref := q.ref + 1 } :=
    fun k hk => by rw [Pbufs.pbufRef, if_neg (hc.ne_null ht), use_eq hk]
  have hcref := hc.pbufRef ht hlt
  rw [hbump h ht] at hcref
  -- the count may just as well be raised first
  have hswap := pbufCatLoop_set_ref (fun q => { q with ref := q.ref + 1 }) (fun _ _ => rfl) (fun _ _ => rfl)
    (fun _ => rfl) (fun _ => rfl) h.allocated.card t p t h
  rw [Pbufs.pbufChain, pbufCat] at hrun
  obtain ⟨k, hk, rfl⟩ := Option.map_eq_some_iff.mp hrun
  rw [hk, Option.map_some] at hswap
  have hcat := hcref.pbufCatLoop hp ht (by rw [addRef_self]; omega) hswap
  rw [dropRef_addRef] at hcat
  rw [hbump k (allocated_pbufCatLoop hk ▸ ht)]
  exact hcat

/-- `pbuf_dechain` drops the reference that the link was. -/
theorem Counted.pbufDechain (hc : Counted h owner) (hp : p ∈ h.allocated) :
    ∃ rest h', pbufDechain h p = some (rest, h') ∧ Counted h' owner := by
  rw [Pbufs.pbufDechain, use_eq hp]
  by_cases hq : h.next p = 0
  · exact ⟨0, h, if_pos hq, hc⟩
  · have hmem := hc.next_mem hp hq
    simp only [if_neg hq]
    generalize htot : (h.pbuf p).totLen - (h.pbuf p).len = tot
    have hc₁ := hc.set_other (f := fun r => { r with totLen := tot }) hmem rfl rfl
    have hnext₁ : (h.set (h.next p) fun r => { r with totLen := tot }).next = h.next := next_set_of_eq rfl
    have hc₂ := hc₁.unlink (f := fun r => { r with next := 0, totLen := r.len }) hp rfl rfl
    rw [hnext₁] at hc₂
    obtain ⟨l, q, h', hrun, -, hcounted⟩ := pbufFree_spec (p := h.next p) hc₂
      fun _ => by rw [addRef_self]; omega
    rw [dropped, if_neg hq, dropRef_addRef] at hcounted
    refine ⟨if 0 < UInt8.ofNat l.length then 0 else h.next p, h', ?_, hcounted⟩
    rw [hrun]
    rfl

/-! ## Allocating -/

variable {c : Config} {elems : List ℕ} {r rem : ℕ}

/-- The addresses that an allocator may return. -/
def Unused (h : Heap) (elems : List ℕ) : Prop := elems.Nodup ∧ ∀ q ∈ elems, q ≠ 0 ∧ q ∉ h.allocated

/-- An element that was taken is no longer there for the others. -/
theorem Unused.tail (hun : Unused h (q :: elems)) (f : Pbuf → Pbuf) : Unused (h.take q f) elems := by
  obtain ⟨hq, hnd⟩ := List.nodup_cons.mp hun.1
  refine ⟨hnd, fun x hx => ?_⟩
  obtain ⟨hx0, hxh⟩ := hun.2 x (List.mem_cons_of_mem q hx)
  refine ⟨hx0, fun hm => ?_⟩
  exact (Finset.mem_insert.mp hm).elim (fun heq => hq (heq ▸ hx)) hxh

/-- The pbuf that was taken. -/
theorem pbuf_take_self (h : Heap) (p : ℕ) (f : Pbuf → Pbuf) : (h.take p f).pbuf p = f (h.pbuf p) :=
  pbuf_set_self h p f

/-- The other pbufs. -/
theorem pbuf_take_of_ne (h : Heap) (f : Pbuf → Pbuf) (hne : x ≠ p) : (h.take p f).pbuf x = h.pbuf x :=
  pbuf_set_of_ne h f hne

/-- The tail that `pbuf_alloc` allocates hangs on `r`; no owner gets a reference. -/
theorem Counted.allocTail (hc : Counted h owner) (hr : r ∈ h.allocated) (hlast : h.next r = 0)
    (hun : Unused h elems) (rem : ℕ) : Counted (allocTail c elems h r rem).2 owner := by
  induction elems generalizing h r rem with
  | nil => exact hc
  | cons q elems ih =>
      rw [Pbufs.allocTail]
      split
      · exact hc
      · obtain ⟨hq0, hq⟩ := hun.2 q List.mem_cons_self
        have hrq : r ≠ q := fun heq => hq (heq ▸ hr)
        have htaken := hc.take (f := fun _ => fillTail c q rem) hq0 hq rfl rfl
        have hlast' : (h.take q fun _ => fillTail c q rem).next r = 0 := by
          rw [Heap.next, pbuf_take_of_ne _ _ hrq]
          exact hlast
        have hlinked := htaken.link (f := fun p => { p with next := q }) (Finset.mem_insert_of_mem hr) hlast'
          (by rw [addRef_self]; omega) rfl rfl
        rw [dropRef_addRef] at hlinked
        refine ih hlinked (Finset.mem_insert_self _ _) ?_ (hun.tail fun _ => fillTail c q rem) _
        rw [Heap.next, pbuf_set_of_ne _ _ hrq.symm, pbuf_take_self, fillTail]

/-- The pbufs in front of the tail keep their counts. -/
theorem ref_allocTail (hx : x ∉ elems) (h : Heap) (r rem : ℕ) :
    ((allocTail c elems h r rem).2.pbuf x).ref = (h.pbuf x).ref := by
  induction elems generalizing h r rem with
  | nil => rfl
  | cons q elems ih =>
      obtain ⟨hxq, hx⟩ := not_or.mp (List.mem_cons.not.mp hx)
      rw [allocTail]
      split
      · rfl
      · rw [ih hx]
        by_cases hxr : x = r
        · subst hxr
          rw [pbuf_set_self, pbuf_take_of_ne _ _ hxq]
        · rw [pbuf_set_of_ne _ _ hxr, pbuf_take_of_ne _ _ hxq]

/-- What was allocated stays so. -/
theorem mem_allocTail (hx : x ∈ h.allocated) (r rem : ℕ) : x ∈ (allocTail c elems h r rem).2.allocated := by
  induction elems generalizing h r rem with
  | nil => exact hx
  | cons q elems ih =>
      rw [allocTail]
      split
      · exact hx
      · exact ih (Finset.mem_insert_of_mem hx) _ _

/-- The owner gets one reference, to the first pbuf; a chain that could not be completed is freed. -/
theorem Counted.pbufAlloc (hc : Counted h owner) (hun : Unused h elems) (layer : PbufLayer) (length : UInt16)
    (type : PbufType) : ∃ p h', pbufAlloc c h layer length type elems = some (p, h') ∧
      Counted h' (if p = 0 then owner else addRef owner p) := by
  cases elems with
  | nil => exact ⟨0, h, rfl, hc⟩
  | cons p elems =>
      obtain ⟨hp0, hp⟩ := hun.2 p List.mem_cons_self
      have hpe : p ∉ elems := (List.nodup_cons.mp hun.1).1
      -- the types other than `PBUF_POOL` take one pbuf
      have hsimple : ∀ f : Pbuf → Pbuf, (f (h.pbuf p)).next = 0 → (f (h.pbuf p)).ref = 1 →
          ∃ p' h', some (p, h.take p f) = some (p', h') ∧ Counted h' (if p' = 0 then owner else addRef owner p') := by
        intro f hnext href
        exact ⟨p, _, rfl, by rw [if_neg hp0]; exact hc.take hp0 hp hnext href⟩
      cases type with
      | ram => exact hsimple _ rfl rfl
      | rom => exact hsimple _ rfl rfl
      | ref => exact hsimple _ rfl rfl
      | pool =>
          have htaken := hc.take (f := fillHead c layer length p) hp0 hp rfl rfl
          have hlast : (h.take p (fillHead c layer length p)).next p = 0 := by
            rw [Heap.next, pbuf_take_self, fillHead]
          have htail := htaken.allocTail (c := c) (Finset.mem_insert_self _ _) hlast
            (hun.tail (fillHead c layer length p)) (length.toNat - headLen c layer length)
          have href := ref_allocTail (c := c) hpe (h.take p (fillHead c layer length p)) p
            (length.toNat - headLen c layer length)
          have hmem : p ∈ (Pbufs.allocTail c elems (h.take p (fillHead c layer length p)) p
              (length.toNat - headLen c layer length)).2.allocated :=
            mem_allocTail (Finset.mem_insert_self _ _) _ _
          rw [pbuf_take_self] at href
          rw [Pbufs.pbufAlloc]
          rcases hres : Pbufs.allocTail c elems (h.take p (fillHead c layer length p)) p
            (length.toNat - headLen c layer length) with ⟨ok, k⟩
          rw [hres] at htail href hmem
          cases ok with
          | true =>
              refine ⟨p, _, rfl, ?_⟩
              rw [if_neg hp0]
              exact htail.set_other (f := fun q => { q with ref := 1, flags := 0 }) hmem rfl href.symm
          -- the pool ran out: `pbuf_free` takes back the reference to the head that the caller does not get
          | false =>
              obtain ⟨l, q, h', hrun, -, hcounted⟩ := pbufFree_spec (p := p) htail
                fun _ => by rw [addRef_self]; omega
              rw [dropped, if_neg hp0, dropRef_addRef] at hcounted
              refine ⟨0, h', ?_, hcounted⟩
              simp [hrun]

end BareMetal.Pbufs
