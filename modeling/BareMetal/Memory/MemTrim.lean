import BareMetal.Memory.MemOps

/-! # `mem_trim`

A used block is cut down to a smaller size. The free bytes go to the free block behind it, which moves
down, or become a free block of their own when they can hold one. -/

namespace BareMetal.Mem

variable {c : Config} {m m' : ByteMem} {h : Heap} {p v n k size prv : ℕ} {b : Blk} {bs l r : List Blk}

/-- What a trim of the block at `p` leaves. -/
structure Trimmed (c : Config) (h h' : Heap) (bs : List Blk) (p size : ℕ) (bs' : List Blk) : Prop where
  inv : HeapInv c h' bs'
  preserves : Preserves c h.mem h'.mem bs bs' {p}
  room : HasRoom c bs' p size
  data : AgreeOn h.mem h'.mem (p + c.sizeofStructMem) (p + c.sizeofStructMem + c.memAlignSize size)

/-- The block behind a block: in use, like the end of the heap, or free. -/
theorem Linked.used_behind (h : Linked c m 0 0 (l ++ b :: r)) :
    (used c m (total l + b.len) = true ∧ ∀ a ∈ r.head?, a.used = true) ∨
      ∃ k r', r = ⟨k, false⟩ :: r' ∧ used c m (total l + b.len) = false ∧
        next c m (total l + b.len) = total l + b.len + k := by
  have hrest := (linked_append.mp h).2.2
  rw [Nat.zero_add] at hrest
  cases r with
  | nil => exact Or.inl ⟨hrest.2.2, by simp⟩
  | cons a r =>
      obtain ⟨k, u⟩ := a
      cases u with
      | true =>
          refine Or.inl ⟨congrArg Header.used hrest.1, fun a ha => ?_⟩
          rw [← Option.some.inj ha]
      | false => exact Or.inr ⟨k, r, rfl, congrArg Header.used hrest.1, congrArg Header.next hrest.1⟩

/-- Cutting a used block, together with the free block behind it if there is one. -/
theorem trimmed_cut {a lf : ℕ} {rest : List Blk} (hinv : HeapInv c h (l ++ ⟨n, true⟩ :: rest ++ r))
    (hrest : ∀ b ∈ rest, b.used = false) (ha : a = c.sizeofStructMem + dataSize c size)
    (htotal : total (⟨n, true⟩ :: rest) = a + k) (hk : GoodBlk c ⟨k, false⟩)
    (hhead : ∀ b ∈ r.head?, b.used = true) (hv : v = total l + total (⟨n, true⟩ :: rest))
    (hlf : lf = firstFree 0 (l ++ [⟨a, true⟩, ⟨k, false⟩] ++ r)) :
    Trimmed c h ⟨relinkPrev c (setNext c (insertFree c h.mem (total l) (total l + a) v) (total l)
        (total l + a)) (total l + a), lf⟩
      (l ++ ⟨n, true⟩ :: rest ++ r) (total l) size (l ++ [⟨a, true⟩, ⟨k, false⟩] ++ r) := by
  have hhd : header c h.mem (total l) = ⟨total l + n, lastPtr 0 0 l, true⟩ := by
    have := (List.append_assoc l _ r ▸ hinv.linked).header_eq
    rwa [Nat.zero_add] at this
  have hend := hinv.linked.total_eq
  rw [total_append, total_append, Nat.zero_add] at hend
  have hrange := c.memSizeAligned_lt
  have hgk : c.sizeofStructMem + c.minSizeAligned ≤ k := hk.1
  have hal := memAlignSize_le_dataSize c size
  have hle : total l + c.sizeofStructMem ≤ total l + a := by omega
  have hga : GoodBlk c ⟨a, true⟩ := ha ▸ goodBlk_dataSize c size true
  have hfst := header_cut_fst hle h.mem v (by omega)
  have hsnd := header_cut_snd (v := v) hle h.mem (by omega) (by omega)
  rw [hhd] at hfst
  have hoff : AgreeOff h.mem (setNext c (insertFree c h.mem (total l) (total l + a) v) (total l)
      (total l + a)) (total l) (total l + total (⟨n, true⟩ :: rest)) :=
    (cut_agreeOff hle h.mem v).mono le_rfl (by omega)
  have hexc : ∀ q b, BlockAt (total l) (⟨n, true⟩ :: rest) q b → b.used = true →
      q ∈ ({total l} : Set ℕ) := by
    rintro q b (⟨rfl, -⟩ | hb) hused
    · rfl
    · rw [hrest b hb.mem] at hused
      cases hused
  obtain ⟨hinv', hpres⟩ := hinv.cut htotal hga hk hhead hexc hoff hfst (hsnd.trans (by rw [hv])) hlf
  refine ⟨hinv', hpres, ?_, ?_⟩
  · rw [List.append_assoc]
    exact hasRoom_mid ha.ge
  · intro x hx hx'
    have hcut := cut_agreeOn c h.mem (total l) (total l + a) v x hx (by omega)
    refine hcut.trans (relinkPrev_agreeOn c _ ?_ x hx (by omega : x < total l + a))
    rw [show next c _ (total l + a) = v from congrArg Header.next hsnd]
    omega

/-- Cutting a used block in two lowers the lowest free address to the rest, if it was not lower. -/
theorem firstFree_split {a : ℕ} (hmin : MinLen c.sizeofStructMem l) (ha : c.sizeofStructMem ≤ a)
    (htotal : n = a + k) : firstFree 0 (l ++ [⟨a, true⟩, ⟨k, false⟩] ++ r) =
      if total l + a < firstFree 0 (l ++ ⟨n, true⟩ :: r) then total l + a
      else firstFree 0 (l ++ ⟨n, true⟩ :: r) := by
  have hsame : firstFree 0 (l ++ [⟨a, true⟩] ++ ⟨k, true⟩ :: r) = firstFree 0 (l ++ ⟨n, true⟩ :: r) := by
    simp only [List.append_assoc, firstFree_append (l := l)]
    simp [firstFree, htotal, Nat.add_assoc]
  have hmin' : MinLen c.sizeofStructMem (l ++ [⟨a, true⟩]) :=
    minLen_append.mpr ⟨hmin, minLen_cons.mpr ⟨ha, minLen_nil⟩⟩
  have hfree : firstFree 0 (l ++ [⟨a, true⟩] ++ ⟨k, false⟩ :: r) = _ :=
    firstFree_free c.sizeofStructMem_pos hmin' k
  rw [hsame] at hfree
  simpa using hfree

/-- Moving a free block down moves the lowest free address with it, if it was that block's. -/
theorem firstFree_shift {a k' : ℕ} (hn : 0 < n) : firstFree 0 (l ++ [⟨a, true⟩, ⟨k', false⟩] ++ r) =
    if firstFree 0 (l ++ ⟨n, true⟩ :: ⟨k, false⟩ :: r) = total l + n then total l + a
    else firstFree 0 (l ++ ⟨n, true⟩ :: ⟨k, false⟩ :: r) := by
  have hle := firstFree_le_total 0 l
  simp only [List.append_assoc, firstFree_append (l := l)]
  cases l.all Blk.used with
  | true => simp [firstFree]
  | false =>
      simp only [Bool.false_eq_true, if_false]
      rw [if_neg (by omega)]

/-- The length `a` of a block of `n` bytes that was cut for a request: that of the request, or as before when the rest is
too small to be a block. -/
def CutLen (c : Config) (n size a : ℕ) : Prop :=
  a = c.sizeofStructMem + dataSize c size ∨
    a = n ∧ n < c.sizeofStructMem + dataSize c size + (c.sizeofStructMem + c.minSizeAligned)

/-- Shrinking a used block. -/
theorem shrinkBlock_spec (hinv : HeapInv c h (l ++ ⟨n, true⟩ :: r))
    (hlt : c.sizeofStructMem + dataSize c size < n) :
    ∃ a rest, Trimmed c h (shrinkBlock c h (total l) (n - c.sizeofStructMem) (dataSize c size))
      (l ++ ⟨n, true⟩ :: r) (total l) size (l ++ ⟨a, true⟩ :: rest) ∧ CutLen c n size a := by
  have hnext : next c h.mem (total l) = total l + n := hinv.linked.next_eq
  have hgood := good_append.mp hinv.good
  obtain ⟨hgn, hgr⟩ := good_cons.mp hgood.2
  have hga := goodBlk_dataSize c size true
  set a := c.sizeofStructMem + dataSize c size with ha
  have hptr2 : total l + c.sizeofStructMem + dataSize c size = total l + a := Nat.add_assoc _ _ _
  unfold shrinkBlock
  simp only [hnext, hptr2]
  rcases hinv.linked.used_behind with ⟨hused, hbehind⟩ | ⟨k, r', rfl, hused, hnext'⟩
  · -- the next block is used: cut the block if what is left has room for a header and `MIN_SIZE` bytes
    rw [if_neg (by simp [hused])]
    by_cases hsplit : dataSize c size + c.sizeofStructMem + c.minSizeAligned ≤ n - c.sizeofStructMem
    · have hgk : GoodBlk c ⟨n - a, false⟩ := ⟨by simp only; omega, Nat.dvd_sub hgn.2 hga.2⟩
      have hsum : n = a + (n - a) := by omega
      rw [if_pos hsplit]
      have hlf := firstFree_split (r := r) (minLen_of_good hgood.1)
        ((Nat.le_add_right _ _).trans_eq ha.symm) hsum
      have htrim := trimmed_cut (r := r) (by simpa using hinv) (List.forall_mem_nil _) ha
        (by simpa using hsum) hgk hbehind rfl (hinv.lfree ▸ hlf.symm)
      exact ⟨a, ⟨n - a, false⟩ :: r, by simpa using htrim, .inl ha⟩
    · rw [if_neg hsplit]
      refine ⟨n, r, ⟨hinv, Preserves.refl _ _ _ _, hasRoom_mid (by omega), fun _ _ _ => rfl⟩, .inr ⟨rfl, ?_⟩⟩
      omega
  · -- the next block is free: its header moves down, and the end of the trimmed block is joined to it
    obtain ⟨hgk, -⟩ := good_cons.mp hgr
    have hgk' : GoodBlk c ⟨n + k - a, false⟩ :=
      ⟨by have := hgk.1; simp only at this ⊢; omega, Nat.dvd_sub (Nat.dvd_add hgn.2 hgk.2) hga.2⟩
    have hcoal := (coalesced_mid_used rfl).mp hinv.coalesced
    have hbehind : ∀ b ∈ r'.head?, b.used = true := by
      simpa using (coalesced_cons.mp hcoal.2).1
    have hsum : total [⟨n, true⟩, ⟨k, false⟩] = a + (n + k - a) := by
      simp only [total_cons, total_nil]
      omega
    have hv : total l + n + k = total l + total [⟨n, true⟩, ⟨k, false⟩] := by
      simp only [total_cons, total_nil, Nat.add_zero, Nat.add_assoc]
    rw [if_pos hused]
    have htrim := trimmed_cut (r := r') (by simpa using hinv) (by simp) ha hsum hgk' hbehind hv
      (hinv.lfree ▸ (firstFree_shift hgn.pos).symm)
    exact ⟨a, ⟨n + k - a, false⟩ :: r', by simpa [hnext'] using htrim, .inl ha⟩

/-- `mem_trim` of a used block looks at its data size only before it cuts it. -/
theorem memTrim_eq (hinv : HeapInv c h (l ++ ⟨n, true⟩ :: r)) (size : ℕ) :
    memTrim c h (c.ram + total l + c.sizeofStructMem) size =
      if c.memSizeAligned < dataSize c size then (0, h)
      else if n - c.sizeofStructMem < dataSize c size then (0, h)
      else if dataSize c size = n - c.sizeofStructMem then (c.ram + total l + c.sizeofStructMem, h)
      else (c.ram + total l + c.sizeofStructMem,
        shrinkBlock c h (total l) (n - c.sizeofStructMem) (dataSize c size)) := by
  have hlt := hinv.data_lt
  have hend : total l + n + total r = c.memSizeAligned := by
    simpa [Nat.add_assoc] using hinv.linked.total_eq
  have hrange := c.memSizeAligned_lt
  have hptr : c.ram + total l + c.sizeofStructMem - c.sizeofStructMem - c.ram = total l := by omega
  have husize : userSize c h.mem (total l) % 256 ^ c.memSizeT = n - c.sizeofStructMem := by
    rw [userSize_eq hinv]
    exact Nat.mod_eq_of_lt (by show n - _ < _; omega)
  rw [memTrim, hptr]
  simp only [husize]
  rw [if_neg (by omega : ¬(c.ram + total l + c.sizeofStructMem < c.ram ∨
    c.ram + c.memSizeAligned ≤ c.ram + total l + c.sizeofStructMem))]
  rfl

/-- `mem_trim` of a used block that is large enough. -/
theorem memTrim_fits (hinv : HeapInv c h (l ++ ⟨n, true⟩ :: r)) (hfits : c.sizeofStructMem + dataSize c size ≤ n) :
    ∃ h' a rest, memTrim c h (c.ram + total l + c.sizeofStructMem) size = (c.ram + total l + c.sizeofStructMem, h') ∧
      Trimmed c h h' (l ++ ⟨n, true⟩ :: r) (total l) size (l ++ ⟨a, true⟩ :: rest) ∧ CutLen c n size a := by
  have hend : total l + n + total r = c.memSizeAligned := by
    simpa [Nat.add_assoc] using hinv.linked.total_eq
  rw [memTrim_eq hinv, if_neg (by omega), if_neg (by omega)]
  by_cases hsame : dataSize c size = n - c.sizeofStructMem
  · rw [if_pos hsame]
    refine ⟨h, n, r, rfl, ⟨hinv, Preserves.refl _ _ _ _, hasRoom_mid hfits, fun _ _ _ => rfl⟩, .inl ?_⟩
    omega
  · rw [if_neg hsame]
    obtain ⟨a, rest, htrim, hlen⟩ := shrinkBlock_spec hinv (show c.sizeofStructMem + dataSize c size < n by omega)
    exact ⟨_, a, rest, rfl, htrim, hlen⟩

/-- `mem_trim` of a used block: a block that is too small is left alone, any other keeps what fits into
the new size. -/
theorem memTrim_spec (hinv : HeapInv c h (l ++ ⟨n, true⟩ :: r)) (size : ℕ) :
    memTrim c h (c.ram + total l + c.sizeofStructMem) size = (0, h) ∨
      ∃ h' bs', memTrim c h (c.ram + total l + c.sizeofStructMem) size =
          (c.ram + total l + c.sizeofStructMem, h') ∧
        Trimmed c h h' (l ++ ⟨n, true⟩ :: r) (total l) size bs' := by
  have hgn : c.sizeofStructMem + c.minSizeAligned ≤ n := (hinv.good ⟨n, true⟩ (by simp)).1
  by_cases hfits : c.sizeofStructMem + dataSize c size ≤ n
  · obtain ⟨h', a, rest, heq, htrim, -⟩ := memTrim_fits hinv hfits
    exact .inr ⟨h', _, heq, htrim⟩
  · left
    rw [memTrim_eq hinv, if_pos (show n - c.sizeofStructMem < dataSize c size by omega)]
    exact ite_self _

end BareMetal.Mem
