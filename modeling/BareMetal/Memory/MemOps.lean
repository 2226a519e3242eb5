import BareMetal.Memory.MemBlocks

/-! # What the operations of the heap do to the tiling

For each operation: the heap it leaves is again a coalesced tiling with the right `lfree`, and the
blocks in use elsewhere keep their place and their data (`Preserves`). -/

namespace BareMetal.Mem

variable {c : Config} {m m' m'' : ByteMem} {h : Heap} {p q v n k size ptr prv : ℕ} {b : Blk}
  {bs bs' bs'' l r mid mid' : List Blk}

/-- A block that the heap may contain: room for a header and `MIN_SIZE_ALIGNED` bytes, and aligned. -/
def GoodBlk (c : Config) (b : Blk) : Prop :=
  c.sizeofStructMem + c.minSizeAligned ≤ b.len ∧ c.memAlignment ∣ b.len

/-- **The invariant of the heap.** -/
structure HeapInv (c : Config) (h : Heap) (bs : List Blk) : Prop where
  linked : Linked c h.mem 0 0 bs
  good : ∀ b ∈ bs, GoodBlk c b
  coalesced : Coalesced bs
  lfree : h.lfree = firstFree 0 bs

/-- The blocks in use, but for the exception, keep their place and their data. -/
def Preserves (c : Config) (m m' : ByteMem) (bs bs' : List Blk) (exc : Set ℕ) : Prop :=
  ∀ q b, BlockAt 0 bs q b → b.used = true → q ∉ exc →
    BlockAt 0 bs' q b ∧ AgreeOn m m' (q + c.sizeofStructMem) (q + b.len)

/-- Doing nothing preserves every block. -/
theorem Preserves.refl (c : Config) (m : ByteMem) (bs : List Blk) (exc : Set ℕ) :
    Preserves c m m bs bs exc := fun _ _ hb _ _ => ⟨hb, fun _ _ _ => rfl⟩

/-- Two operations, the one after the other. -/
theorem Preserves.trans {exc : Set ℕ} (h : Preserves c m m' bs bs' exc)
    (h' : Preserves c m' m'' bs' bs'' exc) : Preserves c m m'' bs bs'' exc := by
  intro q b hb hused hq
  obtain ⟨hb', hagree⟩ := h q b hb hused hq
  obtain ⟨hb'', hagree'⟩ := h' q b hb' hused hq
  exact ⟨hb'', fun x hx hx' => (hagree x hx hx').trans (hagree' x hx hx')⟩

/-- More blocks may be left out. -/
theorem Preserves.mono {exc exc' : Set ℕ} (h : Preserves c m m' bs bs' exc) (hsub : exc ⊆ exc') :
    Preserves c m m' bs bs' exc' :=
  fun q b hb hused hq => h q b hb hused fun hmem => hq (hsub hmem)

/-- Good blocks have room for their header. -/
theorem minLen_of_good (hgood : ∀ b ∈ bs, GoodBlk c b) : MinLen c.sizeofStructMem bs :=
  fun b hb => (Nat.le_add_right _ _).trans (hgood b hb).1

/-- Both parts of a tiling. -/
theorem good_append : (∀ b ∈ l ++ r, GoodBlk c b) ↔ (∀ b ∈ l, GoodBlk c b) ∧ ∀ b ∈ r, GoodBlk c b :=
  List.forall_mem_append

/-- The first block and the others. -/
theorem good_cons : (∀ a ∈ b :: r, GoodBlk c a) ↔ GoodBlk c b ∧ ∀ a ∈ r, GoodBlk c a :=
  List.forall_mem_cons

/-- A change inside `mid` preserves the used blocks outside. -/
theorem preserves_splice {exc : Set ℕ} (htotal : total mid = total mid')
    (hoff : AgreeOff m m' (total l) (total l + total mid + c.sizeofStructMem))
    (hexc : ∀ q b, BlockAt (total l) mid q b → b.used = true → q ∈ exc) :
    Preserves c m m' (l ++ mid ++ r) (l ++ mid' ++ r) exc := by
  intro q b hb hused hq
  have hnot : ¬ BlockAt (0 + total l) mid q b := fun hmid => hq (hexc q b (by rwa [Nat.zero_add] at hmid) hused)
  refine ⟨(hb.replace htotal).resolve_left hnot, hoff.agreeOn ?_⟩
  rw [List.append_assoc, blockAt_append, blockAt_append] at hb
  rcases hb with hb | hb | hb
  · have := hb.bounds
    omega
  · exact absurd hb hnot
  · have := hb.bounds
    omega

/-- A splice that ends with the `prev` of the block behind, or with the end of the heap there. -/
theorem Linked.splice_setPrev {m₁ : ByteMem} (h : Linked c m 0 0 (l ++ mid ++ r))
    (hmin : MinLen c.sizeofStructMem (l ++ mid ++ r)) (htotal : total mid = total mid')
    (hoff : AgreeOff m m₁ (total l) (total l + total mid))
    (hmid : Segment c m₁ (total l) (lastPtr 0 0 l) mid') (hmin' : MinLen c.sizeofStructMem mid')
    (hv : v = lastPtr (total l) (lastPtr 0 0 l) mid') (hvlt : v < 256 ^ c.memSizeT)
    (hm' : m' = setPrev c m₁ (total l + total mid) v ∨ r = [] ∧ m' = m₁) :
    Linked c m' 0 0 (l ++ mid' ++ r) ∧
      AgreeOff m m' (total l) (total l + total mid + c.sizeofStructMem) := by
  rw [minLen_append, minLen_append] at hmin
  have hx := header_of_agreeOff (c := c) hoff (Or.inr le_rfl)
  have hoff₁ : AgreeOff m m₁ (total l) (total l + total mid + c.sizeofStructMem) :=
    hoff.mono le_rfl (Nat.le_add_right _ _)
  rcases hm' with rfl | ⟨rfl, rfl⟩
  · have hset := setPrev_agreeOff c m₁ (total l + total mid) v
    have hoff' : AgreeOff m (setPrev c m₁ (total l + total mid) v) (total l)
        (total l + total mid + c.sizeofStructMem) :=
      hoff₁.trans (hset.mono (Nat.le_add_right _ _) le_rfl)
    have hhead := header_setPrev (c := c) m₁ (total l + total mid) hvlt
    rw [hx] at hhead
    refine ⟨h.splice hmin.1.1 hmin.2 htotal hoff' ?_ ?_ ?_ ?_, hoff'⟩
    · refine hmid.congr hmin' (hset.agreeOn (Or.inl ?_))
      rw [htotal]
    · exact congrArg Header.next hhead
    · exact congrArg Header.used hhead
    · exact fun _ => (congrArg Header.prev hhead).trans hv
  · refine ⟨h.splice hmin.1.1 hmin.2 htotal hoff₁ hmid ?_ ?_ fun hne => absurd rfl hne, hoff₁⟩
    · exact congrArg Header.next hx
    · exact congrArg Header.used hx

/-! ## Marking a block -/

/-- Marking a block used or free only changes its mark. -/
theorem Linked.setUsed {u : UInt8} {used' : Bool} (hu : (u != 0) = used')
    (h : Linked c m 0 0 (l ++ [b] ++ r)) (hmin : MinLen c.sizeofStructMem (l ++ [b] ++ r)) :
    Linked c (setUsed c m (total l) u) 0 0 (l ++ [⟨b.len, used'⟩] ++ r) ∧
      AgreeOff m (setUsed c m (total l) u) (total l) (total l + total [b] + c.sizeofStructMem) := by
  have hset := setUsed_agreeOff c m (total l) u
  have hold := (List.append_assoc l [b] r ▸ h).header_eq
  rw [Nat.zero_add] at hold
  have hrest := (linked_append.mp h).2
  rw [total_append, Nat.zero_add, lastPtr_append, lastPtr_singleton, Nat.zero_add] at hrest
  rw [minLen_append, minLen_append] at hmin
  have hlen : c.sizeofStructMem ≤ total [b] := hmin.1.2 b List.mem_cons_self
  have hx := header_of_agreeOff (c := c) (q := total l + total [b]) hset (Or.inr (by omega))
  have hoff : AgreeOff m (Mem.setUsed c m (total l) u) (total l)
      (total l + total [b] + c.sizeofStructMem) := hset.mono le_rfl (by omega)
  have htotal : total [b] = total [⟨b.len, used'⟩] := rfl
  refine ⟨h.splice hmin.1.1 hmin.2 htotal hoff ⟨?_, trivial⟩ ?_ ?_ ?_, hoff⟩
  · rw [header_setUsed, hold, hu]
  · exact congrArg Header.next hx
  · exact congrArg Header.used hx
  · intro hne
    obtain ⟨a, r, rfl⟩ := List.exists_cons_of_ne_nil hne
    exact (congrArg Header.prev hx).trans (congrArg Header.prev hrest.1)

/-! ## `plug_holes` -/

/-- A part of the heap is no longer than the heap. -/
theorem Linked.le_memSizeAligned (h : Linked c m 0 0 (l ++ r)) : total l ≤ c.memSizeAligned := by
  have := h.total_eq
  rw [total_append] at this
  omega

/-- Offsets fit into `mem_size_t`. -/
theorem lt_of_le_memSizeAligned (hv : v ≤ c.memSizeAligned) : v < 256 ^ c.memSizeT :=
  hv.trans_lt c.memSizeAligned_lt

/-- Two free neighbours are merged by moving the `next` of the first and the `prev` behind. -/
theorem Linked.merge {a : ℕ} (h : Linked c m 0 0 (l ++ [⟨a, false⟩, ⟨n, false⟩] ++ r))
    (hmin : MinLen c.sizeofStructMem (l ++ [⟨a, false⟩, ⟨n, false⟩] ++ r)) :
    let m₁ := setNext c m (total l) (next c m (total l + a))
    let m' := setPrev c m₁ (next c m₁ (total l + a)) (total l)
    Linked c m' 0 0 (l ++ [⟨a + n, false⟩] ++ r) ∧
      Preserves c m m' (l ++ [⟨a, false⟩, ⟨n, false⟩] ++ r) (l ++ [⟨a + n, false⟩] ++ r) ∅ := by
  intro m₁ m'
  -- the two links that `plug_holes` writes skip the second block: the first one reaches to its end
  have htotal : total [⟨a, false⟩, ⟨n, false⟩] = total [⟨a + n, false⟩] := by
    simp only [total_cons, total_nil, Nat.add_zero]
  have hx : total l + total [⟨a, false⟩, ⟨n, false⟩] = total l + a + n := by
    simp only [total_cons, total_nil, Nat.add_zero, Nat.add_assoc]
  have hle : total l + a + n ≤ c.memSizeAligned := by
    have := Linked.le_memSizeAligned h
    rwa [total_append, hx] at this
  rw [minLen_append, minLen_append, minLen_cons] at hmin
  have hlen : c.sizeofStructMem ≤ a := hmin.1.2.1
  have hsecond : header c m (total l + a) = ⟨total l + a + n, total l, false⟩ := by
    have hsplit : l ++ [⟨a, false⟩, ⟨n, false⟩] ++ r = (l ++ [⟨a, false⟩]) ++ ⟨n, false⟩ :: r := by simp
    have := (hsplit ▸ h).header_eq
    rwa [total_append, lastPtr_append, lastPtr_singleton, total_cons, total_nil, Nat.zero_add,
      Nat.zero_add, Nat.add_zero] at this
  have hn : next c m (total l + a) = total l + a + n := congrArg Header.next hsecond
  -- its `next` lies outside what the first assignment writes
  have hn₁ : next c m₁ (total l + a) = total l + total [⟨a, false⟩, ⟨n, false⟩] := by
    have := header_of_agreeOff (c := c) (setNext_agreeOff c m (total l) (next c m (total l + a)))
      (q := total l + a) (Or.inr (by omega))
    exact (congrArg Header.next this).trans (hn.trans hx.symm)
  have hhead : header c m₁ (total l) = ⟨total l + (a + n), lastPtr 0 0 l, false⟩ := by
    have hold := (List.append_assoc l [⟨a, false⟩, ⟨n, false⟩] r ▸ h).header_eq
    rw [Nat.zero_add] at hold
    refine (header_setNext m _ ?_).trans ?_
    · rw [hn]
      exact lt_of_le_memSizeAligned hle
    · rw [hold, hn, Nat.add_assoc]
  have hmin' : MinLen c.sizeofStructMem [⟨a + n, false⟩] :=
    minLen_cons.mpr ⟨hlen.trans (Nat.le_add_right a n), minLen_nil⟩
  have hoff : AgreeOff m m₁ (total l) (total l + total [⟨a, false⟩, ⟨n, false⟩]) :=
    (setNext_agreeOff c m _ _).mono le_rfl (by omega)
  obtain ⟨hlinked, hoff'⟩ := h.splice_setPrev (minLen_append.mpr ⟨minLen_append.mpr
    ⟨hmin.1.1, minLen_cons.mpr hmin.1.2⟩, hmin.2⟩) htotal hoff ⟨hhead, trivial⟩ hmin' rfl
    (lt_of_le_memSizeAligned (c := c) (v := total l) (by omega)) (Or.inl rfl)
  simp only [m', hn₁]
  refine ⟨hlinked, preserves_splice htotal hoff' ?_⟩
  -- none of the blocks that have changed is in use
  rintro q b (⟨-, rfl⟩ | ⟨-, rfl⟩ | hnil) hused
  · cases hused
  · cases hused
  · exact hnil.elim

/-- What the two halves of `plug_holes` leave of a free block between `l` and `r`. -/
structure Plugged (c : Config) (h h' : Heap) (bs bs' : List Blk) : Prop where
  linked : Linked c h'.mem 0 0 bs'
  good : ∀ b ∈ bs', GoodBlk c b
  lfree : h'.lfree = h.lfree
  firstFree : firstFree 0 bs' = firstFree 0 bs
  preserves : Preserves c h.mem h'.mem bs bs' ∅

/-- Two good blocks make one. -/
theorem goodBlk_add {a : ℕ} {u u' u'' : Bool} (ha : GoodBlk c ⟨a, u⟩) (hn : GoodBlk c ⟨n, u'⟩) :
    GoodBlk c ⟨a + n, u''⟩ :=
  ⟨ha.1.trans (Nat.le_add_right a n), Nat.dvd_add ha.2 hn.2⟩

/-- The lowest free block is not above a free block. -/
theorem firstFree_mid_le : firstFree 0 (l ++ ⟨n, false⟩ :: r) ≤ total l := by
  rw [firstFree_mid rfl, Nat.zero_add]
  split
  · exact le_rfl
  · exact (firstFree_le_total 0 l).trans_eq (Nat.zero_add _)

/-- A good block is not empty. -/
theorem GoodBlk.pos (h : GoodBlk c b) : 0 < b.len :=
  c.sizeofStructMem_pos.trans_le ((Nat.le_add_right _ _).trans h.1)

/-- Forward: the free block swallows a free block behind it. -/
theorem plugForward_spec (hlinked : Linked c h.mem 0 0 (l ++ ⟨n, false⟩ :: r))
    (hgood : ∀ b ∈ l ++ ⟨n, false⟩ :: r, GoodBlk c b)
    (hlf : h.lfree = firstFree 0 (l ++ ⟨n, false⟩ :: r)) (hr : Coalesced r) :
    ∃ n' r', Plugged c h (plugForward c h (total l)) (l ++ ⟨n, false⟩ :: r) (l ++ ⟨n', false⟩ :: r') ∧
      Coalesced r' ∧ ∀ a ∈ r'.head?, a.used = true := by
  have hnext : next c h.mem (total l) = total l + n := hlinked.next_eq
  have hself : Plugged c h h (l ++ ⟨n, false⟩ :: r) (l ++ ⟨n, false⟩ :: r) :=
    ⟨hlinked, hgood, rfl, rfl, Preserves.refl _ _ _ _⟩
  cases r with
  | nil =>
      have hend := hlinked.total_eq
      simp only [total_append, total_cons, total_nil, Nat.zero_add, Nat.add_zero] at hend
      rw [plugForward, hnext, if_neg (by simp [hend])]
      exact ⟨n, [], hself, hr, by simp⟩
  | cons a r =>
      have hsplit : l ++ ⟨n, false⟩ :: a :: r = (l ++ [⟨n, false⟩]) ++ a :: r := by simp
      have hused : used c h.mem (total l + n) = a.used := by
        have := (hsplit ▸ hlinked).used_eq
        rwa [total_append, total_cons, total_nil, Nat.add_zero] at this
      rw [plugForward, hnext, hused]
      cases ha : a.used with
      | true =>
          rw [if_neg (by simp)]
          exact ⟨n, a :: r, hself, hr, by simp [ha]⟩
      | false =>
          obtain ⟨k, u⟩ := a
          obtain rfl : u = false := ha
          have hgood' := good_append.mp hgood
          rw [good_cons, good_cons] at hgood'
          obtain ⟨hgl, hgn, hgk, hgr⟩ := hgood'
          have hpos : 0 < n := hgn.pos
          have hkpos : 0 < k := hgk.pos
          have hle := Linked.le_memSizeAligned (l := l ++ [⟨n, false⟩, ⟨k, false⟩]) (r := r)
            (by simpa using hlinked)
          simp only [total_append, total_cons, total_nil, Nat.add_zero] at hle
          rw [if_pos ⟨by omega, rfl, by omega⟩]
          obtain ⟨hmerged, hpres⟩ := Linked.merge (l := l) (a := n) (n := k) (r := r)
            (by simpa using hlinked) (minLen_of_good (by simpa using hgood))
          -- `lfree` is not above the block itself, so it is not the block behind
          have hfirst : h.lfree ≤ total l := hlf.le.trans firstFree_mid_le
          refine ⟨n + k, r, ⟨?_, ?_, ?_, ?_, ?_⟩, (coalesced_cons.mp hr).2, ?_⟩
          · simpa using hmerged
          · exact good_append.mpr ⟨hgl, good_cons.mpr ⟨goodBlk_add hgn hgk, hgr⟩⟩
          · exact if_neg (by omega)
          · rw [firstFree_mid rfl, firstFree_mid rfl]
          · simpa using hpres
          · simpa using (coalesced_cons.mp hr).1

/-- Backward: the free block is swallowed by a free block before it. -/
theorem plugBackward_spec (hlinked : Linked c h.mem 0 0 (l ++ ⟨n, false⟩ :: r))
    (hgood : ∀ b ∈ l ++ ⟨n, false⟩ :: r, GoodBlk c b)
    (hlf : h.lfree = firstFree 0 (l ++ ⟨n, false⟩ :: r)) (hl : Coalesced l) (hr : Coalesced r)
    (hhead : ∀ a ∈ r.head?, a.used = true) :
    ∃ bs', Plugged c h (plugBackward c h (total l)) (l ++ ⟨n, false⟩ :: r) bs' ∧ Coalesced bs' := by
  have hprev := hlinked.prev_eq
  have hself : Plugged c h h (l ++ ⟨n, false⟩ :: r) (l ++ ⟨n, false⟩ :: r) :=
    ⟨hlinked, hgood, rfl, rfl, Preserves.refl _ _ _ _⟩
  rcases List.eq_nil_or_concat l with rfl | ⟨l, a, rfl⟩
  · rw [plugBackward, hprev, if_neg (by simp)]
    exact ⟨_, hself, (coalesced_mid_free rfl).mpr ⟨hl, hr, by simp, hhead⟩⟩
  · rw [List.concat_eq_append] at *
    have hsplit : (l ++ [a]) ++ ⟨n, false⟩ :: r = l ++ a :: ⟨n, false⟩ :: r := by simp
    have hlast : lastPtr 0 0 (l ++ [a]) = total l := by
      rw [lastPtr_append, lastPtr_singleton, Nat.zero_add]
    have hused : used c h.mem (total l) = a.used := (hsplit ▸ hlinked).used_eq
    rw [plugBackward, hprev, hlast, hused]
    cases ha : a.used with
    | true =>
        rw [if_neg (by simp)]
        exact ⟨_, hself, (coalesced_mid_free rfl).mpr ⟨hl, hr, by simp [ha], hhead⟩⟩
    | false =>
        obtain ⟨k, u⟩ := a
        obtain rfl : u = false := ha
        rw [hsplit] at hgood hlf hlinked ⊢
        have hgood' := good_append.mp hgood
        rw [good_cons, good_cons] at hgood'
        obtain ⟨hgl, hgk, hgn, hgr⟩ := hgood'
        have hkpos : 0 < k := hgk.pos
        have htotal : total (l ++ [⟨k, false⟩]) = total l + k := by
          rw [total_append, total_cons, total_nil, Nat.add_zero]
        rw [htotal, if_pos ⟨by omega, rfl⟩]
        obtain ⟨hmerged, hpres⟩ := Linked.merge (l := l) (a := k) (n := n) (r := r)
          (by simpa using hlinked) (minLen_of_good (by simpa using hgood))
        -- `lfree` is not above the block before, so it is not the block itself
        have hfirst : h.lfree ≤ total l := hlf.le.trans firstFree_mid_le
        have hl' := (coalesced_mid_free (b := ⟨k, false⟩) (r := []) rfl).mp hl
        refine ⟨l ++ ⟨k + n, false⟩ :: r, ⟨?_, ?_, ?_, ?_, ?_⟩, ?_⟩
        · simpa using hmerged
        · exact good_append.mpr ⟨hgl, good_cons.mpr ⟨goodBlk_add hgk hgn, hgr⟩⟩
        · exact if_neg (by omega)
        · rw [firstFree_mid rfl, firstFree_mid rfl]
        · simpa using hpres
        · exact (coalesced_mid_free rfl).mpr ⟨hl'.1, hr, hl'.2.2.1, hhead⟩

/-! ## `mem_init` and `mem_free` -/

/-- The heap after `mem_init` is one free block. -/
theorem memInit_inv (c : Config) (m : ByteMem) :
    HeapInv c (memInit c m) [⟨c.memSizeAligned, false⟩] := by
  have hle := c.block_le
  have hS := c.sizeofStructMem_pos
  have hlt : c.memSizeAligned < 256 ^ c.memSizeT := lt_of_le_memSizeAligned le_rfl
  set m₁ := setUsed c (setPrev c (setNext c m 0 c.memSizeAligned) 0 0) 0 0 with hm₁
  have hfirst : header c m₁ 0 = ⟨c.memSizeAligned, 0, false⟩ := by
    rw [hm₁, header_setUsed, header_setPrev _ _ (by omega), header_setNext _ _ hlt]
    rfl
  set m₂ := setUsed c m₁ c.memSizeAligned 1 with hm₂
  set m₃ := setNext c m₂ c.memSizeAligned c.memSizeAligned with hm₃
  have hend : header c (setPrev c m₃ c.memSizeAligned c.memSizeAligned) c.memSizeAligned =
      ⟨c.memSizeAligned, c.memSizeAligned, true⟩ := by
    rw [header_setPrev _ _ hlt, hm₃, header_setNext _ _ hlt, hm₂, header_setUsed]
    rfl
  have hoff : AgreeOff m₁ (setPrev c m₃ c.memSizeAligned c.memSizeAligned) c.memSizeAligned
      (c.memSizeAligned + c.sizeofStructMem) :=
    ((setUsed_agreeOff c m₁ _ 1).trans (setNext_agreeOff c m₂ _ _)).trans (setPrev_agreeOff c m₃ _ _)
  have hfirst' := header_of_agreeOff (c := c) (q := 0) hoff (Or.inl (by omega))
  refine ⟨⟨?_, ?_, ?_, ?_⟩, ?_, ?_, rfl⟩
  · rw [Nat.zero_add]
    exact hfirst'.trans hfirst
  · exact Nat.zero_add _
  · rw [Nat.zero_add]
    exact congrArg Header.next hend
  · rw [Nat.zero_add]
    exact congrArg Header.used hend
  · intro b hb
    obtain rfl := List.mem_singleton.mp hb
    exact ⟨hle, c.dvd_memSizeAligned⟩
  · exact List.isChain_singleton _

/-- The address of a used block's data is inside the heap. -/
theorem HeapInv.data_lt (hinv : HeapInv c h (l ++ b :: r)) : total l + c.sizeofStructMem < c.memSizeAligned := by
  have hend := hinv.linked.total_eq
  have hgood := hinv.good b (by simp)
  have := hgood.1
  have := c.minSizeAligned_pos
  rw [total_append, total_cons] at hend
  omega

/-- `mem_free` of a used block. -/
theorem memFree_spec (hinv : HeapInv c h (l ++ ⟨n, true⟩ :: r)) :
    ∃ bs', HeapInv c (memFree c h (c.ram + total l + c.sizeofStructMem)) bs' ∧
      Preserves c h.mem (memFree c h (c.ram + total l + c.sizeofStructMem)).mem
        (l ++ ⟨n, true⟩ :: r) bs' {total l} := by
  have hlt := hinv.data_lt
  have hram := c.ram_pos
  have hmin := minLen_of_good hinv.good
  have hmem : c.ram + total l + c.sizeofStructMem - c.sizeofStructMem - c.ram = total l := by omega
  rw [memFree, if_neg (by omega), if_neg (by omega), hmem]
  obtain ⟨hl, hr⟩ := (coalesced_mid_used rfl).mp hinv.coalesced
  obtain ⟨hmarked, hoff⟩ := Linked.setUsed (show ((0 : UInt8) != 0) = false from rfl)
    (by simpa using hinv.linked) (by simpa using hmin : MinLen c.sizeofStructMem (l ++ [⟨n, true⟩] ++ r))
  set h₁ : Heap := ⟨Mem.setUsed c h.mem (total l) 0, if total l < h.lfree then total l else h.lfree⟩
  have hpres : Preserves c h.mem h₁.mem (l ++ ⟨n, true⟩ :: r) (l ++ ⟨n, false⟩ :: r) {total l} := by
    have hexc : ∀ q b, BlockAt (total l) [⟨n, true⟩] q b → b.used = true → q ∈ ({total l} : Set ℕ) := by
      rintro q b (⟨rfl, -⟩ | hnil) -
      · rfl
      · exact hnil.elim
    simpa using preserves_splice (r := r) (show total [⟨n, true⟩] = total [⟨n, false⟩] from rfl) hoff hexc
  have hgood₁ : ∀ b ∈ l ++ ⟨n, false⟩ :: r, GoodBlk c b := by
    obtain ⟨hgl, hgr⟩ := good_append.mp hinv.good
    obtain ⟨hgn, hgr⟩ := good_cons.mp hgr
    exact good_append.mpr ⟨hgl, good_cons.mpr ⟨hgn, hgr⟩⟩
  have hlfree₁ : h₁.lfree = firstFree 0 (l ++ ⟨n, false⟩ :: r) := by
    rw [firstFree_free c.sizeofStructMem_pos (minLen_append.mp hmin).1, Nat.zero_add, ← hinv.lfree]
  have hlinked₁ : Linked c h₁.mem 0 0 (l ++ ⟨n, false⟩ :: r) := by simpa using hmarked
  obtain ⟨n', r', hfwd, hr', hhead⟩ := plugForward_spec hlinked₁ hgood₁ hlfree₁ hr
  have hlfree₂ : (plugForward c h₁ (total l)).lfree = firstFree 0 (l ++ ⟨n', false⟩ :: r') := by
    rw [hfwd.lfree, hlfree₁, hfwd.firstFree]
  obtain ⟨bs', hbwd, hcoal⟩ := plugBackward_spec hfwd.linked hfwd.good hlfree₂ hl hr' hhead
  refine ⟨bs', ⟨hbwd.linked, hbwd.good, hcoal, ?_⟩, ?_⟩
  · rw [plugHoles, hbwd.lfree, hlfree₂, hbwd.firstFree]
  · exact hpres.trans ((hfwd.preserves.trans hbwd.preserves).mono (Set.empty_subset _))

/-! ## Cutting a block -/

/-- The bytes that a block has for its user. -/
theorem userSize_eq (hinv : HeapInv c h (l ++ b :: r)) :
    userSize c h.mem (total l) = b.len - c.sizeofStructMem := by
  have hnext := hinv.linked.next_eq
  have hgood := (hinv.good b (by simp)).1
  have hend := hinv.linked.total_eq
  have hlt := c.memSizeAligned_lt_two_pow
  rw [total_append, total_cons] at hend
  have hshift : total l + b.len + 2 ^ 32 - (total l + c.sizeofStructMem) =
      (b.len - c.sizeofStructMem) + 2 ^ 32 := by omega
  rw [userSize, hnext, hshift, Nat.add_mod_right, Nat.mod_eq_of_lt (by omega)]

/-- Writing the new header touches nothing else. -/
theorem insertFree_agreeOff (c : Config) (m : ByteMem) (ptr ptr2 v : ℕ) :
    AgreeOff m (insertFree c m ptr ptr2 v) ptr2 (ptr2 + c.sizeofStructMem) :=
  ((setUsed_agreeOff c m ptr2 0).trans (setNext_agreeOff c _ ptr2 v)).trans (setPrev_agreeOff c _ ptr2 ptr)

/-- The header that was written. -/
theorem header_insertFree (m : ByteMem) {ptr2 : ℕ} (hptr : ptr < 256 ^ c.memSizeT)
    (hv : v < 256 ^ c.memSizeT) : header c (insertFree c m ptr ptr2 v) ptr2 = ⟨v, ptr, false⟩ := by
  rw [insertFree, header_setPrev _ _ hptr, header_setNext _ _ hv, header_setUsed]
  rfl

/-- **Cutting.** Once the two headers of a used block and of the free rest behind it are written, setting
the `prev` of the block behind them restores the tiling. -/
theorem Linked.cut {a : ℕ} (h : Linked c m 0 0 (l ++ mid ++ r))
    (hmin : MinLen c.sizeofStructMem (l ++ mid ++ r)) (htotal : total mid = a + k)
    (ha : c.sizeofStructMem ≤ a) (hk : c.sizeofStructMem ≤ k)
    (hoff : AgreeOff m m' (total l) (total l + total mid))
    (hfst : header c m' (total l) = ⟨total l + a, lastPtr 0 0 l, true⟩)
    (hsnd : header c m' (total l + a) = ⟨total l + total mid, total l, false⟩) :
    Linked c (relinkPrev c m' (total l + a)) 0 0 (l ++ [⟨a, true⟩, ⟨k, false⟩] ++ r) ∧
      AgreeOff m (relinkPrev c m' (total l + a)) (total l) (total l + total mid + c.sizeofStructMem) := by
  have hend := h.total_eq
  rw [total_append, total_append, Nat.zero_add] at hend
  have htotal' : total mid = total [⟨a, true⟩, ⟨k, false⟩] := by
    rw [htotal, total_cons, total_cons, total_nil, Nat.add_zero]
  have hseg : Segment c m' (total l) (lastPtr 0 0 l) [⟨a, true⟩, ⟨k, false⟩] := by
    refine ⟨hfst, ?_, trivial⟩
    rw [hsnd, htotal, Nat.add_assoc]
  have hmin' : MinLen c.sizeofStructMem [⟨a, true⟩, ⟨k, false⟩] :=
    minLen_cons.mpr ⟨ha, minLen_cons.mpr ⟨hk, minLen_nil⟩⟩
  have hnext : next c m' (total l + a) = total l + total mid := congrArg Header.next hsnd
  refine h.splice_setPrev hmin htotal' hoff hseg hmin' rfl
    (lt_of_le_memSizeAligned (c := c) (v := total l + a) (by omega)) ?_
  rw [relinkPrev, hnext]
  by_cases hlast : total l + total mid = c.memSizeAligned
  · rw [if_neg (not_not.mpr hlast)]
    refine Or.inr ⟨?_, rfl⟩
    cases r with
    | nil => rfl
    | cons b r =>
        have := (minLen_cons.mp (minLen_append.mp hmin).2).1
        have := c.sizeofStructMem_pos
        rw [total_cons] at hend
        omega
  · rw [if_pos hlast]
    exact Or.inl rfl

/-- `relinkPrev` leaves everything below the header that it updates alone. -/
theorem relinkPrev_agreeOn {ptr2 : ℕ} (c : Config) (m : ByteMem) (hq : q ≤ next c m ptr2) :
    AgreeOn m (relinkPrev c m ptr2) p q := by
  rw [relinkPrev]
  split
  · exact (setPrev_agreeOff c m _ _).agreeOn (Or.inl hq)
  · exact fun _ _ _ => rfl

/-- The tiling after a cut. -/
theorem HeapInv.cut {a lf : ℕ} {exc : Set ℕ} (hinv : HeapInv c h (l ++ mid ++ r))
    (htotal : total mid = a + k) (ha : GoodBlk c ⟨a, true⟩) (hk : GoodBlk c ⟨k, false⟩)
    (hhead : ∀ b ∈ r.head?, b.used = true)
    (hexc : ∀ q b, BlockAt (total l) mid q b → b.used = true → q ∈ exc)
    (hoff : AgreeOff h.mem m' (total l) (total l + total mid))
    (hfst : header c m' (total l) = ⟨total l + a, lastPtr 0 0 l, true⟩)
    (hsnd : header c m' (total l + a) = ⟨total l + total mid, total l, false⟩)
    (hlf : lf = firstFree 0 (l ++ [⟨a, true⟩, ⟨k, false⟩] ++ r)) :
    HeapInv c ⟨relinkPrev c m' (total l + a), lf⟩ (l ++ [⟨a, true⟩, ⟨k, false⟩] ++ r) ∧
      Preserves c h.mem (relinkPrev c m' (total l + a)) (l ++ mid ++ r)
        (l ++ [⟨a, true⟩, ⟨k, false⟩] ++ r) exc := by
  have hSa : c.sizeofStructMem ≤ a := (Nat.le_add_right _ _).trans ha.1
  have hSk : c.sizeofStructMem ≤ k := (Nat.le_add_right _ _).trans hk.1
  obtain ⟨hlinked, hoff'⟩ := hinv.linked.cut (minLen_of_good hinv.good) htotal hSa hSk hoff hfst hsnd
  have hgood := good_append.mp hinv.good
  have hl := (hinv.coalesced.left).left
  have hr := hinv.coalesced.right
  refine ⟨⟨hlinked, ?_, ?_, hlf⟩, preserves_splice ?_ hoff' hexc⟩
  · refine good_append.mpr ⟨good_append.mpr ⟨(good_append.mp hgood.1).1, ?_⟩, hgood.2⟩
    exact good_cons.mpr ⟨ha, good_cons.mpr ⟨hk, List.forall_mem_nil _⟩⟩
  · rw [List.append_assoc]
    refine (coalesced_mid_used rfl).mpr ⟨hl, ?_⟩
    exact coalesced_cons.mpr ⟨Or.inr hhead, hr⟩
  · rw [htotal, total_cons, total_cons, total_nil, Nat.add_zero]

section CutMem
variable {ptr2 : ℕ}

/-- The data between the two headers stay. -/
theorem cut_agreeOn (c : Config) (m : ByteMem) (ptr ptr2 v : ℕ) :
    AgreeOn m (setNext c (insertFree c m ptr ptr2 v) ptr ptr2) (ptr + c.sizeofStructMem) ptr2 := by
  intro x hx hx'
  have hinsert := (insertFree_agreeOff c m ptr ptr2 v).agreeOn (Or.inl le_rfl) x hx hx'
  exact hinsert.trans ((setNext_agreeOff c _ ptr ptr2).agreeOn (Or.inr le_rfl) x hx hx')

variable (hptr2 : ptr + c.sizeofStructMem ≤ ptr2)
include hptr2

/-- The header of the block that is cut: only its `next` changes. -/
theorem header_cut_fst (m : ByteMem) (v : ℕ) (hlt : ptr2 < 256 ^ c.memSizeT) :
    header c (setNext c (insertFree c m ptr ptr2 v) ptr ptr2) ptr =
      { header c m ptr with next := ptr2 } := by
  rw [header_setNext _ _ hlt, header_of_agreeOff (insertFree_agreeOff c m ptr ptr2 v) (Or.inl hptr2)]

/-- The header of the rest. -/
theorem header_cut_snd (m : ByteMem) (hlt : ptr2 < 256 ^ c.memSizeT) (hv : v < 256 ^ c.memSizeT) :
    header c (setNext c (insertFree c m ptr ptr2 v) ptr ptr2) ptr2 = ⟨v, ptr, false⟩ := by
  rw [header_of_agreeOff (setNext_agreeOff c _ ptr ptr2) (Or.inr hptr2),
    header_insertFree m (hlt.trans_le' (by omega)) hv]

/-- Cutting a block writes inside of it. -/
theorem cut_agreeOff (m : ByteMem) (v : ℕ) :
    AgreeOff m (setNext c (insertFree c m ptr ptr2 v) ptr ptr2) ptr (ptr2 + c.sizeofStructMem) :=
  ((insertFree_agreeOff c m ptr ptr2 v).mono (by omega) le_rfl).trans
    ((setNext_agreeOff c _ ptr ptr2).mono le_rfl (by omega))

end CutMem

/-! ## Requests -/

/-- The data bytes that a request is rounded up to. -/
def dataSize (c : Config) (size : ℕ) : ℕ :=
  if c.memAlignSize size < c.minSizeAligned then c.minSizeAligned else c.memAlignSize size

/-- A request takes at least the smallest size. -/
theorem minSizeAligned_le_dataSize (c : Config) (size : ℕ) : c.minSizeAligned ≤ dataSize c size := by
  rw [dataSize]
  split <;> omega

/-- A request takes at least what it asks for. -/
theorem memAlignSize_le_dataSize (c : Config) (size : ℕ) : c.memAlignSize size ≤ dataSize c size := by
  rw [dataSize]
  split <;> omega

/-- The alignment divides the range of `mem_size_t`. -/
theorem Config.dvd_range (c : Config) : c.memAlignment ∣ 256 ^ c.memSizeT := by
  have hmin := c.minSizeAligned_pos
  have hle : c.memAlignment ≤ c.minSizeAligned := Nat.le_of_dvd hmin c.dvd_minSizeAligned
  have hlt := c.memSizeAligned_lt
  have hblock := c.block_le
  obtain ⟨e, he⟩ := c.isAlignment
  have hpow : (256 : ℕ) ^ c.memSizeT = 2 ^ (8 * c.memSizeT) := by rw [Nat.pow_mul]
  rw [he, hpow]
  refine Nat.pow_dvd_pow 2 (Nat.pow_lt_pow_iff_right one_lt_two |>.mp ?_).le
  rw [← he, ← hpow]
  omega

/-- What it takes is aligned. -/
theorem dvd_dataSize (c : Config) (size : ℕ) : c.memAlignment ∣ dataSize c size := by
  rw [dataSize]
  split
  · exact c.dvd_minSizeAligned
  · exact (Nat.dvd_mod_iff c.dvd_range).mpr (dvd_alignUp c.isAlignment size)

/-- A block for a request. -/
theorem goodBlk_dataSize (c : Config) (size : ℕ) (u : Bool) :
    GoodBlk c ⟨c.sizeofStructMem + dataSize c size, u⟩ :=
  ⟨Nat.add_le_add_left (minSizeAligned_le_dataSize c size) _,
    Nat.dvd_add c.dvd_sizeofStructMem (dvd_dataSize c size)⟩

/-- What `mem_trim` and `mem_malloc` promise of the block at `p`: it is used and has room for the size. -/
def HasRoom (c : Config) (bs : List Blk) (p size : ℕ) : Prop :=
  ∃ b, BlockAt 0 bs p b ∧ b.used = true ∧ c.sizeofStructMem + c.memAlignSize size ≤ b.len

/-- A block that is long enough has room for the request. -/
theorem hasRoom_mid {a : ℕ} (ha : c.sizeofStructMem + dataSize c size ≤ a) :
    HasRoom c (l ++ ⟨a, true⟩ :: r) (total l) size := by
  refine ⟨⟨a, true⟩, ?_, rfl, ?_⟩
  · simpa using blockAt_mid 0 l r ⟨a, true⟩
  · exact (Nat.add_le_add_left (memAlignSize_le_dataSize c size) _).trans ha

/-- Writing to the data of a block leaves the headers alone. -/
theorem HeapInv.writeData (hinv : HeapInv c h (l ++ b :: r))
    (hoff : AgreeOff h.mem m' (total l + c.sizeofStructMem) (total l + b.len)) :
    HeapInv c { h with mem := m' } (l ++ b :: r) := by
  have hmin := minLen_of_good hinv.good
  rw [minLen_append, minLen_cons] at hmin
  have hmid : total [b] = b.len := by rw [total_cons, total_nil, Nat.add_zero]
  have hhead := header_of_agreeOff (c := c) (q := total l) hoff (Or.inl le_rfl)
  have hbehind := header_of_agreeOff (c := c) (q := total l + total [b]) hoff (Or.inr (by omega))
  have hlinked : Linked c h.mem 0 0 (l ++ [b] ++ r) := by simpa using hinv.linked
  have hold : header c h.mem (total l) = ⟨total l + b.len, lastPtr 0 0 l, b.used⟩ := by
    simpa using hinv.linked.header_eq
  refine ⟨?_, hinv.good, hinv.coalesced, hinv.lfree⟩
  have hsplice := hlinked.splice hmin.1 hmin.2.2 rfl (hoff.mono (Nat.le_add_right _ _) (by omega))
    ⟨hhead.trans hold, trivial⟩ (congrArg Header.next hbehind) (congrArg Header.used hbehind) ?_
  · simpa using hsplice
  · intro hr
    obtain ⟨a, r, rfl⟩ := List.exists_cons_of_ne_nil hr
    have hrest := (linked_append.mp hlinked).2.1
    rw [Nat.zero_add, total_append, lastPtr_append, Nat.zero_add] at hrest
    exact (congrArg Header.prev hbehind).trans (congrArg Header.prev hrest)

end BareMetal.Mem
