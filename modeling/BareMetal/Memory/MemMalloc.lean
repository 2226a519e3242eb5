import BareMetal.Memory.MemOps

/-! # `mem_malloc`

Two loops walk the list: one looks for a free block that is large enough, the other for the next free
block when the lowest one was taken. Both end within the fuel, because every block they pass has bytes of
its own. -/

namespace BareMetal.Mem

variable {c : Config} {m m' : ByteMem} {h : Heap} {p v n k size prv : ℕ} {b : Blk} {bs l r : List Blk}

/-- The search for the next free block ends at the lowest one from the start on. -/
theorem findFree_eq (hlinked : Linked c m p prv r) (hgood : ∀ b ∈ r, GoodBlk c b) {fuel : ℕ}
    (hfuel : total r < fuel) : findFree c m fuel p = some (firstFree p r) := by
  induction r generalizing p prv fuel with
  | nil =>
      obtain ⟨fuel, rfl⟩ := Nat.exists_eq_succ_of_ne_zero (Nat.ne_zero_of_lt hfuel)
      rw [findFree, if_neg fun hloop => hloop.2 hlinked.1]
      rfl
  | cons b r ih =>
      obtain ⟨fuel, rfl⟩ := Nat.exists_eq_succ_of_ne_zero (Nat.ne_zero_of_lt hfuel)
      obtain ⟨hgb, hgr⟩ := good_cons.mp hgood
      have hpos := hgb.pos
      have hend := hlinked.total_eq
      have hnext : next c m p = p + b.len := congrArg Header.next hlinked.1
      have hused : used c m p = b.used := congrArg Header.used hlinked.1
      rw [total_cons] at hfuel hend
      rw [findFree, firstFree, hused]
      cases b.used with
      | true =>
          rw [if_pos ⟨rfl, by omega⟩, hnext, ih hlinked.2 hgr (by omega)]
          rfl
      | false => simp

/-- The search for a block that is large enough meets every block: either none of the free blocks is
large enough, or it stops at the first that is. -/
theorem findFit_spec (hinv : HeapInv c h (l ++ r)) (hsize : 0 < size) {fuel : ℕ}
    (hfuel : total r < fuel) :
    (findFit c h.mem size fuel (total l) = some none ∧
        ∀ b ∈ r, b.used = false → b.len < c.sizeofStructMem + size) ∨
      ∃ l' n r', r = l' ++ ⟨n, false⟩ :: r' ∧ c.sizeofStructMem + size ≤ n ∧
        findFit c h.mem size fuel (total l) = some (some (total l + total l')) := by
  induction r generalizing l fuel with
  | nil =>
      obtain ⟨fuel, rfl⟩ := Nat.exists_eq_succ_of_ne_zero (Nat.ne_zero_of_lt hfuel)
      have hend := hinv.linked.total_eq
      rw [List.append_nil, Nat.zero_add] at hend
      rw [findFit, if_neg (by omega)]
      exact Or.inl ⟨rfl, List.forall_mem_nil _⟩
  | cons b r ih =>
      obtain ⟨fuel, rfl⟩ := Nat.exists_eq_succ_of_ne_zero (Nat.ne_zero_of_lt hfuel)
      have hpos := (hinv.good b (by simp)).pos
      have hS := c.sizeofStructMem_pos
      have hend := hinv.linked.total_eq
      rw [total_append, total_cons, Nat.zero_add] at hend
      rw [total_cons] at hfuel
      have hnext : next c h.mem (total l) = total (l ++ [b]) := by
        rw [hinv.linked.next_eq, total_append, total_cons, total_nil, Nat.add_zero]
      rw [findFit, userSize_eq hinv, hinv.linked.used_eq]
      by_cases hbound : total l < c.memSizeAligned - size
      · rw [if_pos hbound]
        by_cases hfit : b.used = false ∧ size ≤ b.len - c.sizeofStructMem
        · rw [if_pos hfit]
          obtain ⟨n, u⟩ := b
          obtain ⟨rfl, hle⟩ : u = false ∧ size ≤ n - c.sizeofStructMem := hfit
          exact Or.inr ⟨[], n, r, rfl, by omega, rfl⟩
        · rw [if_neg hfit, hnext]
          have hfuel' : total r < fuel := by omega
          rcases ih (l := l ++ [b]) (by simpa using hinv) hfuel' with ⟨hnone, hall⟩ | hsome
          · refine Or.inl ⟨hnone, List.forall_mem_cons.mpr ⟨fun hb => ?_, hall⟩⟩
            by_contra hlen
            exact hfit ⟨hb, by omega⟩
          · obtain ⟨l', n, r', rfl, hle, hfind⟩ := hsome
            refine Or.inr ⟨b :: l', n, r', rfl, hle, hfind.trans ?_⟩
            simp [Nat.add_assoc]
      · -- the rest of the heap is too small for the request
        rw [if_neg hbound]
        refine Or.inl ⟨rfl, fun a ha _ => ?_⟩
        obtain ⟨l', r', hsplit⟩ := List.append_of_mem ha
        have htotal : total (b :: r) = total l' + (a.len + total r') := by
          rw [hsplit, total_append, total_cons]
        rw [total_cons] at htotal
        omega

/-- Taking a free block: the part that is asked for, and the rest when it can be a block, else all. -/
theorem takeBlock_spec (hinv : HeapInv c h (l ++ ⟨n, false⟩ :: r))
    (hfit : c.sizeofStructMem + dataSize c size ≤ n) :
    ∃ a rest, c.sizeofStructMem + dataSize c size ≤ a ∧
      HeapInv c ⟨takeBlock c h.mem (total l) (dataSize c size), firstFree 0 (l ++ ⟨a, true⟩ :: rest)⟩
        (l ++ ⟨a, true⟩ :: rest) ∧
      Preserves c h.mem (takeBlock c h.mem (total l) (dataSize c size)) (l ++ ⟨n, false⟩ :: r)
        (l ++ ⟨a, true⟩ :: rest) ∅ := by
  have hnext : next c h.mem (total l) = total l + n := hinv.linked.next_eq
  have hhd : header c h.mem (total l) = ⟨total l + n, lastPtr 0 0 l, false⟩ := by
    simpa using hinv.linked.header_eq
  have hend : total l + n + total r = c.memSizeAligned := by
    simpa [Nat.add_assoc] using hinv.linked.total_eq
  have hrange := c.memSizeAligned_lt
  have hgood := good_append.mp hinv.good
  obtain ⟨hgn, hgr⟩ := good_cons.mp hgood.2
  obtain ⟨hl, hr, -, hbehind⟩ := (coalesced_mid_free rfl).mp hinv.coalesced
  have hinv₁ : HeapInv c h (l ++ [⟨n, false⟩] ++ r) := by simpa using hinv
  have hexc : ∀ q b, BlockAt (total l) [⟨n, false⟩] q b → b.used = true → q ∈ (∅ : Set ℕ) := by
    rintro q b (⟨-, rfl⟩ | hnil) hused
    · cases hused
    · exact hnil.elim
  rw [takeBlock, userSize_eq hinv, hnext]
  -- the rest of the block is large enough to be a block of its own
  by_cases hsplit : dataSize c size + c.sizeofStructMem + c.minSizeAligned ≤ n - c.sizeofStructMem
  · rw [if_pos hsplit]
    have hga := goodBlk_dataSize c size true
    set a := c.sizeofStructMem + dataSize c size with ha
    have hptr2 : total l + c.sizeofStructMem + dataSize c size = total l + a := Nat.add_assoc _ _ _
    have hle : total l + c.sizeofStructMem ≤ total l + a := by omega
    have hgk : GoodBlk c ⟨n - a, false⟩ := ⟨by simp only; omega, Nat.dvd_sub hgn.2 hga.2⟩
    set m₁ := setNext c (insertFree c h.mem (total l) (total l + a) (total l + n)) (total l) (total l + a)
      with hm₁
    have hmark : AgreeOff m₁ (setUsed c m₁ (total l) 1) (total l) (total l + c.sizeofStructMem) :=
      setUsed_agreeOff c m₁ (total l) 1
    have hoff : AgreeOff h.mem (setUsed c m₁ (total l) 1) (total l) (total l + a + c.sizeofStructMem) :=
      (cut_agreeOff hle h.mem (total l + n)).trans (hmark.mono le_rfl (by omega))
    have hfst := header_cut_fst hle h.mem (total l + n) (by omega)
    have hsnd := header_cut_snd (v := total l + n) hle h.mem (by omega) (by omega)
    rw [hhd] at hfst
    obtain ⟨hinv', hpres⟩ := hinv₁.cut (by simp only [total_cons, total_nil]; omega) hga hgk hbehind hexc
      (hoff.mono le_rfl (by simp only [total_cons, total_nil]; omega))
      (by rw [header_setUsed, hfst]; rfl)
      (by rw [header_of_agreeOff hmark (Or.inr hle), hsnd]; simp) rfl
    simp only [hptr2]
    exact ⟨a, ⟨n - a, false⟩ :: r, le_rfl, by simpa using hinv', by simpa using hpres⟩
  · rw [if_neg hsplit]
    obtain ⟨hlinked, hoff⟩ := Linked.setUsed (show ((1 : UInt8) != 0) = true from rfl) hinv₁.linked
      (minLen_of_good hinv₁.good)
    have hpres := preserves_splice (r := r) (show total [⟨n, false⟩] = total [⟨n, true⟩] from rfl) hoff hexc
    refine ⟨n, r, hfit, ⟨by simpa using hlinked, ?_, ?_, rfl⟩, by simpa using hpres⟩
    · exact good_append.mpr ⟨hgood.1, good_cons.mpr ⟨hgn, hgr⟩⟩
    · exact (coalesced_mid_used rfl).mpr ⟨hl, hr⟩

/-- The blocks before a free block that is not the lowest contain a free one. -/
theorem firstFree_eq_of_lt (hlt : firstFree 0 (l ++ r) < total l) (bs : List Blk) :
    firstFree 0 (l ++ bs) = firstFree 0 (l ++ r) := by
  rw [firstFree_append, firstFree_append] at *
  by_cases hall : l.all Blk.used = true
  · rw [if_pos hall] at hlt
    have := le_firstFree (0 + total l) r
    omega
  · rw [if_neg hall, if_neg hall]

/-- A block of the heap is no longer than the heap. -/
theorem HeapInv.len_le (hinv : HeapInv c h bs) (hb : BlockAt 0 bs p b) : b.len ≤ c.memSizeAligned := by
  have hbounds := hb.bounds
  have hend := hinv.linked.total_eq
  omega

/-! ## `mem_malloc` -/

/-- The search finds nothing. -/
theorem memMalloc_of_none (hfind : findFit c h.mem (dataSize c size) (fuel c) h.lfree = some none) :
    memMalloc c h size = some (0, h) := by
  by_cases hzero : size = 0
  · exact if_pos hzero
  rw [memMalloc, if_neg hzero]
  show (if c.memSizeAligned < dataSize c size then _ else
    (findFit c h.mem (dataSize c size) (fuel c) h.lfree).bind _) = _
  rw [hfind, Option.bind_some, ite_self]

/-- The search finds a block: it is taken, and `lfree` is looked for again when it was the lowest. -/
theorem memMalloc_of_some {ptr lfree : ℕ} (hzero : size ≠ 0) (hsize : dataSize c size ≤ c.memSizeAligned)
    (hfind : findFit c h.mem (dataSize c size) (fuel c) h.lfree = some (some ptr))
    (hlfree : (if ptr = h.lfree then findFree c (takeBlock c h.mem ptr (dataSize c size)) (fuel c) h.lfree
      else some h.lfree) = some lfree) :
    memMalloc c h size =
      some (c.ram + ptr + c.sizeofStructMem, ⟨takeBlock c h.mem ptr (dataSize c size), lfree⟩) := by
  rw [memMalloc, if_neg hzero]
  show (if c.memSizeAligned < dataSize c size then _ else
    (findFit c h.mem (dataSize c size) (fuel c) h.lfree).bind _) = _
  rw [if_neg (Nat.not_lt.mpr hsize), hfind, Option.bind_some]
  exact congrArg (Option.map fun lfree =>
    (c.ram + ptr + c.sizeofStructMem, (⟨takeBlock c h.mem ptr (dataSize c size), lfree⟩ : Heap))) hlfree

/-- The search from `lfree`: there is no free block in front of it. -/
theorem findFit_lfree (hinv : HeapInv c h bs) (size : ℕ) :
    (findFit c h.mem (dataSize c size) (fuel c) h.lfree = some none ∧
        ∀ b ∈ bs, b.used = false → b.len < c.sizeofStructMem + dataSize c size) ∨
      ∃ l l' n r, bs = l ++ l' ++ ⟨n, false⟩ :: r ∧ h.lfree = total l ∧ l.all Blk.used = true ∧
        c.sizeofStructMem + dataSize c size ≤ n ∧
        findFit c h.mem (dataSize c size) (fuel c) h.lfree = some (some (total (l ++ l'))) := by
  have hend := hinv.linked.total_eq
  obtain ⟨l, r, rfl, hfirst, hall⟩ := exists_split_firstFree 0 bs
  have hlfree : h.lfree = total l := by rw [hinv.lfree, hfirst, Nat.zero_add]
  have hsize : 0 < dataSize c size := c.minSizeAligned_pos.trans_le (minSizeAligned_le_dataSize c size)
  have hfuel : total r < fuel c := by
    rw [total_append] at hend
    rw [fuel]
    omega
  rw [hlfree]
  rcases findFit_spec hinv hsize hfuel with ⟨hnone, hsmall⟩ | ⟨l', n, r, rfl, hfit, hfound⟩
  · refine .inl ⟨hnone, fun b hb hfree => ?_⟩
    rcases List.mem_append.mp hb with hb | hb
    · exact absurd (List.all_eq_true.mp hall b hb) (Bool.eq_false_iff.mp hfree)
    · exact hsmall b hb hfree
  · refine .inr ⟨l, l', n, r, (List.append_assoc _ _ _).symm, rfl, hall, hfit, ?_⟩
    rw [hfound, total_append]

/-- `lfree` is the lowest free block again when the block behind `l'` was taken. -/
theorem lfree_takeBlock {l' rest : List Blk} {a : ℕ} (hinv : HeapInv c h (l ++ l' ++ ⟨n, false⟩ :: r))
    (hlfree : h.lfree = total l) (hall : l.all Blk.used = true)
    (hinv' : HeapInv c ⟨m, firstFree 0 (l ++ l' ++ ⟨a, true⟩ :: rest)⟩ (l ++ l' ++ ⟨a, true⟩ :: rest)) :
    (if total (l ++ l') = h.lfree then findFree c m (fuel c) h.lfree else some h.lfree) =
      some (firstFree 0 (l ++ l' ++ ⟨a, true⟩ :: rest)) := by
  have hfirst : firstFree 0 (l ++ l' ++ ⟨n, false⟩ :: r) = total l := hinv.lfree.symm.trans hlfree
  rw [hlfree]
  by_cases hlow : total (l ++ l') = total l
  · -- the block was the lowest one
    have hnil : l' = [] := by
      cases l' with
      | nil => rfl
      | cons b l' =>
          have := (hinv.good b (by simp)).pos
          rw [total_append, total_cons] at hlow
          omega
    subst hnil
    rw [if_pos hlow, List.append_nil] at *
    have htail := (linked_append.mp hinv'.linked).2
    have hend := hinv'.linked.total_eq
    rw [total_append, Nat.zero_add] at hend
    rw [Nat.zero_add] at htail
    rw [findFree_eq htail (good_append.mp hinv'.good).2 (by rw [fuel]; omega), firstFree_append, if_pos hall,
      Nat.zero_add]
  · rw [if_neg hlow]
    have hlt : firstFree 0 (l ++ l' ++ ⟨n, false⟩ :: r) < total (l ++ l') := by
      rw [hfirst]
      rw [total_append] at hlow ⊢
      omega
    rw [firstFree_eq_of_lt hlt, hfirst]

/-- What a successful `mem_malloc` leaves: a free block became a used one with room for the request. -/
structure Allocated (c : Config) (h h' : Heap) (bs : List Blk) (p size : ℕ) (bs' : List Blk) : Prop where
  inv : HeapInv c h' bs'
  preserves : Preserves c h.mem h'.mem bs bs' ∅
  room : HasRoom c bs' p size
  free : ∃ b, BlockAt 0 bs p b ∧ b.used = false

/-- `mem_malloc` returns: NULL for a size of 0 and when no free block is large enough, else the data of a
block that was free. -/
theorem memMalloc_spec (hinv : HeapInv c h bs) (size : ℕ) :
    (memMalloc c h size = some (0, h) ∧
        (size = 0 ∨ ∀ b ∈ bs, b.used = false → b.len < c.sizeofStructMem + dataSize c size)) ∨
      ∃ p h' bs', memMalloc c h size = some (c.ram + p + c.sizeofStructMem, h') ∧
        Allocated c h h' bs p size bs' := by
  by_cases hzero : size = 0
  · exact .inl ⟨if_pos hzero, .inl hzero⟩
  rcases findFit_lfree hinv size with ⟨hnone, hsmall⟩ | ⟨l, l', n, r, rfl, hlfree, hall, hfit, hfound⟩
  · exact .inl ⟨memMalloc_of_none hnone, .inr hsmall⟩
  · have hmid : BlockAt 0 (l ++ l' ++ ⟨n, false⟩ :: r) (total (l ++ l')) ⟨n, false⟩ := by
      simpa using blockAt_mid 0 (l ++ l') r ⟨n, false⟩
    have hle : dataSize c size ≤ c.memSizeAligned := (Nat.le_add_left _ _).trans (hfit.trans (hinv.len_le hmid))
    obtain ⟨a, rest, ha, hinv', hpres⟩ := takeBlock_spec hinv hfit
    have hrun := memMalloc_of_some hzero hle hfound (lfree_takeBlock hinv hlfree hall hinv')
    exact .inr ⟨_, _, _, hrun, hinv', hpres, hasRoom_mid ha, ⟨n, false⟩, hmid, rfl⟩

/-- No free block is large enough for a request of `size` bytes. -/
def NoneLarge (c : Config) (bs : List Blk) (size : ℕ) : Prop :=
  ∀ b ∈ bs, b.used = false → b.len < c.sizeofStructMem + dataSize c size

/-- `mem_malloc` returns `NULL` when no free block is large enough. -/
theorem memMalloc_of_noneLarge (hinv : HeapInv c h bs) (hsmall : NoneLarge c bs size) :
    memMalloc c h size = some (0, h) := by
  rcases findFit_lfree hinv size with ⟨hnone, -⟩ | ⟨l, l', n, r, rfl, -, -, hfit, -⟩
  · exact memMalloc_of_none hnone
  · exact absurd (hsmall ⟨n, false⟩ (by simp) rfl) (Nat.not_lt.mpr hfit)

end BareMetal.Mem
