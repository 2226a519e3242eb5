import BareMetal.Memory.Mem
import BareMetal.Lib.Blocks

/-! # The heap as a tiling

`Linked m ptr prev bs` says that the headers in memory spell out the blocks `bs` from `ptr` to the end
of the heap: following `next` meets them in order and arrives at `ram_end`, and `prev` leads back. Every
operation of the heap rewrites the headers of a few neighbouring blocks and the `prev` of the block
behind them, so one lemma carries the rest of the tiling over (`Linked.splice`). -/

namespace BareMetal.Mem

/-- A `struct mem`. -/
@[ext] structure Header where
  next : ℕ
  prev : ℕ
  used : Bool

/-- The header at an offset. -/
def header (c : Config) (m : ByteMem) (ptr : ℕ) : Header := ⟨next c m ptr, prev c m ptr, used c m ptr⟩

variable {c : Config} {m m' : ByteMem} {p q v ptr prv : ℕ} {b : Blk} {bs l r mid mid' : List Blk}

/-! ## Sizes -/

/-- `mem_size_t` is `u16_t`, or `u32_t` for a large heap. -/
theorem Config.memSizeT_eq (c : Config) : c.memSizeT = 2 ∨ c.memSizeT = 4 := by
  rw [memSizeT]
  split
  · exact Or.inr rfl
  · exact Or.inl rfl

/-- A header fits into the space that is kept for it. -/
theorem Config.header_fits (c : Config) : 2 * c.memSizeT + 1 ≤ c.sizeofStructMem := by
  have hle : 3 * c.memSizeT ≤ c.sizeofStructMem := le_alignUp c.isAlignment _
  rcases c.memSizeT_eq with h | h <;> omega

/-- The header is aligned, as `SIZEOF_STRUCT_MEM` is rounded up. -/
theorem Config.dvd_sizeofStructMem (c : Config) : c.memAlignment ∣ c.sizeofStructMem :=
  dvd_alignUp c.isAlignment _

/-- The smallest block is aligned, as `MIN_SIZE_ALIGNED` is rounded up. -/
theorem Config.dvd_minSizeAligned (c : Config) : c.memAlignment ∣ c.minSizeAligned :=
  dvd_alignUp c.isAlignment _

/-- The heap is aligned, as `MEM_SIZE_ALIGNED` is rounded up. -/
theorem Config.dvd_memSizeAligned (c : Config) : c.memAlignment ∣ c.memSizeAligned :=
  dvd_alignUp c.isAlignment _

/-- A header has a length, so no two blocks start at one place. -/
theorem Config.sizeofStructMem_pos (c : Config) : 0 < c.sizeofStructMem :=
  (Nat.succ_pos _).trans_le c.header_fits

/-- `MIN_SIZE` is 12, and rounding up makes it no smaller. -/
theorem Config.minSizeAligned_pos (c : Config) : 0 < c.minSizeAligned :=
  (Nat.succ_pos 11).trans_le (le_alignUp c.isAlignment 12)

/-- The heap holds at least one block. -/
theorem Config.block_le (c : Config) : c.sizeofStructMem + c.minSizeAligned ≤ c.memSizeAligned :=
  c.block_fits

/-- Every offset of the heap fits into `mem_size_t`. -/
theorem Config.memSizeAligned_lt (c : Config) : c.memSizeAligned < 256 ^ c.memSizeT := c.memSize_fits

/-- The heap and the header at `ram_end` lie in the address space. -/
theorem Config.memSizeAligned_lt_two_pow (c : Config) :
    c.ram + c.memSizeAligned + c.sizeofStructMem < 2 ^ 32 := c.ram_fits

/-! ## Reading and writing headers -/

/-- A header is read from its own bytes only. -/
theorem header_congr (h : AgreeOn m m' p (p + c.sizeofStructMem)) : header c m p = header c m' p := by
  have hfits := c.header_fits
  ext
  · exact loadLE_congr fun x hx hx' => h x hx (by omega)
  · exact loadLE_congr fun x hx hx' => h x (by omega) (by omega)
  · simp only [header, used]
    rw [h _ (by omega) (by omega)]

/-- Writing `next` changes bytes of that header only. -/
theorem setNext_agreeOff (c : Config) (m : ByteMem) (p v : ℕ) :
    AgreeOff m (setNext c m p v) p (p + c.sizeofStructMem) :=
  (storeLE_agreeOff m _ _ v).mono le_rfl (by have := c.header_fits; omega)

/-- Writing `prev` changes bytes of that header only. -/
theorem setPrev_agreeOff (c : Config) (m : ByteMem) (p v : ℕ) :
    AgreeOff m (setPrev c m p v) p (p + c.sizeofStructMem) :=
  (storeLE_agreeOff m _ _ v).mono (by omega) (by have := c.header_fits; omega)

/-- Writing `used` changes one byte of that header. -/
theorem setUsed_agreeOff (c : Config) (m : ByteMem) (p : ℕ) (v : UInt8) :
    AgreeOff m (setUsed c m p v) p (p + c.sizeofStructMem) := by
  have hfits := c.header_fits
  intro x hx
  rw [setUsed, Function.update_of_ne (by omega)]

/-- A header elsewhere does not see a change of this one. -/
theorem header_of_agreeOff {a a' : ℕ} (h : AgreeOff m m' a a') (hq : q + c.sizeofStructMem ≤ a ∨ a' ≤ q) :
    header c m' q = header c m q :=
  (header_congr (h.agreeOn hq)).symm

/-- Behind a write of `next`, the other fields read as before. -/
theorem header_setNext (m : ByteMem) (p : ℕ) (hv : v < 256 ^ c.memSizeT) :
    header c (setNext c m p v) p = { header c m p with next := v } := by
  ext
  · exact loadLE_storeLE m hv
  · exact loadLE_storeLE_of_disjoint m (Or.inr le_rfl)
  · have := c.memSizeT_eq
    simp only [header, used, setNext]
    rw [← storeLE_agreeOff m c.memSizeT p v _ (by omega)]

/-- Behind a write of `prev`, the other fields read as before. -/
theorem header_setPrev (m : ByteMem) (p : ℕ) (hv : v < 256 ^ c.memSizeT) :
    header c (setPrev c m p v) p = { header c m p with prev := v } := by
  ext
  · exact loadLE_storeLE_of_disjoint m (Or.inl le_rfl)
  · exact loadLE_storeLE m hv
  · simp only [header, used, setPrev]
    rw [← storeLE_agreeOff m c.memSizeT (p + c.memSizeT) v _ (by omega)]

/-- Behind a write of `used`, the other fields read as before. -/
theorem header_setUsed (c : Config) (m : ByteMem) (p : ℕ) (v : UInt8) :
    header c (setUsed c m p v) p = { header c m p with used := v != 0 } := by
  have hoff : AgreeOff m (setUsed c m p v) (p + 2 * c.memSizeT) (p + 2 * c.memSizeT + 1) := by
    intro x hx
    rw [setUsed, Function.update_of_ne (by omega)]
  ext
  · exact (loadLE_congr (hoff.agreeOn (Or.inl (by omega)))).symm
  · exact (loadLE_congr (hoff.agreeOn (Or.inl (by omega)))).symm
  · simp only [header, used, setUsed, Function.update_self]

/-! ## Linked blocks -/

/-- The headers from `ptr` on are those of `bs`; the block before them is at `prv`. -/
def Segment (c : Config) (m : ByteMem) : ℕ → ℕ → List Blk → Prop
  | _, _, [] => True
  | ptr, prv, b :: bs =>
      header c m ptr = ⟨ptr + b.len, prv, b.used⟩ ∧ Segment c m (ptr + b.len) ptr bs

/-- The headers from `ptr` to the end of the heap are those of `bs`, followed by `ram_end`. -/
def Linked (c : Config) (m : ByteMem) : ℕ → ℕ → List Blk → Prop
  | ptr, _, [] => ptr = c.memSizeAligned ∧ next c m ptr = c.memSizeAligned ∧ used c m ptr = true
  | ptr, prv, b :: bs =>
      header c m ptr = ⟨ptr + b.len, prv, b.used⟩ ∧ Linked c m (ptr + b.len) ptr bs

/-- The last block of `bs`, and `prv` when there is none. -/
def lastPtr : ℕ → ℕ → List Blk → ℕ
  | _, prv, [] => prv
  | ptr, _, b :: bs => lastPtr (ptr + b.len) ptr bs

/-- Without a block, the last one is the one before. -/
@[simp] theorem lastPtr_nil (ptr prv : ℕ) : lastPtr ptr prv [] = prv := rfl

/-- The only block is the last one. -/
@[simp] theorem lastPtr_singleton (ptr prv : ℕ) (b : Blk) : lastPtr ptr prv [b] = ptr := rfl

/-- The last block of two parts is looked for in the second one. -/
theorem lastPtr_append (ptr prv : ℕ) (l r : List Blk) :
    lastPtr ptr prv (l ++ r) = lastPtr (ptr + total l) (lastPtr ptr prv l) r := by
  induction l generalizing ptr prv with
  | nil => rfl
  | cons a l ih => rw [List.cons_append, lastPtr, lastPtr, ih, total_cons, Nat.add_assoc]

/-- A tiling is linked in two parts, the second one seen from the last block of the first one. -/
theorem linked_append : Linked c m ptr prv (l ++ r) ↔
    Segment c m ptr prv l ∧ Linked c m (ptr + total l) (lastPtr ptr prv l) r := by
  induction l generalizing ptr prv with
  | nil => exact (and_iff_right trivial).symm
  | cons a l ih => simp only [List.cons_append, Linked, Segment, lastPtr, ih, total_cons, and_assoc,
      Nat.add_assoc]

/-- The blocks tile the heap. -/
theorem Linked.total_eq (h : Linked c m ptr prv bs) : ptr + total bs = c.memSizeAligned := by
  induction bs generalizing ptr prv with
  | nil => exact h.1
  | cons b bs ih => rw [total_cons, ← Nat.add_assoc, ih h.2]

/-- The header of a block. -/
theorem Linked.header_eq (h : Linked c m ptr prv (l ++ b :: r)) :
    header c m (ptr + total l) = ⟨ptr + total l + b.len, lastPtr ptr prv l, b.used⟩ :=
  (linked_append.mp h).2.1

/-- `next` leads to the end of the block. -/
theorem Linked.next_eq (h : Linked c m 0 0 (l ++ b :: r)) : next c m (total l) = total l + b.len := by
  have := congrArg Header.next h.header_eq
  rwa [Nat.zero_add] at this

/-- `prev` leads to the block before. -/
theorem Linked.prev_eq (h : Linked c m 0 0 (l ++ b :: r)) : prev c m (total l) = lastPtr 0 0 l := by
  have := congrArg Header.prev h.header_eq
  rwa [Nat.zero_add] at this

/-- The flag in the header is that of the block. -/
theorem Linked.used_eq (h : Linked c m 0 0 (l ++ b :: r)) : used c m (total l) = b.used := by
  have := congrArg Header.used h.header_eq
  rwa [Nat.zero_add] at this

/-- A segment depends on its own bytes. -/
theorem Segment.congr (hmin : MinLen c.sizeofStructMem bs) (h : Segment c m ptr prv bs)
    (hagree : AgreeOn m m' ptr (ptr + total bs)) : Segment c m' ptr prv bs := by
  induction bs generalizing ptr prv with
  | nil => trivial
  | cons b bs ih =>
      obtain ⟨hlen, hmin⟩ := minLen_cons.mp hmin
      rw [total_cons] at hagree
      refine ⟨?_, ih hmin h.2 fun x hx hx' => hagree x (by omega) (by omega)⟩
      rw [← header_congr fun x hx hx' => hagree x hx (by omega)]
      exact h.1

/-- The blocks behind a change are linked as before, when the `prev` of the first one is right. -/
theorem Linked.relink {prv' : ℕ} (hmin : MinLen c.sizeofStructMem r) (h : Linked c m ptr prv r)
    (hnext : next c m' ptr = next c m ptr) (hused : used c m' ptr = used c m ptr)
    (hprev : r ≠ [] → prev c m' ptr = prv')
    (hagree : AgreeOn m m' (ptr + c.sizeofStructMem) (c.memSizeAligned + c.sizeofStructMem)) :
    Linked c m' ptr prv' r := by
  cases r with
  | nil => exact ⟨h.1, hnext.trans h.2.1, hused.trans h.2.2⟩
  | cons b r =>
      obtain ⟨hlen, hmin⟩ := minLen_cons.mp hmin
      refine ⟨?_, ?_⟩
      · have hold := h.1
        ext
        · exact hnext.trans (congrArg Header.next hold)
        · exact hprev (List.cons_ne_nil _ _)
        · exact hused.trans (congrArg Header.used hold)
      · -- behind the header that was written, the headers are as they were
        have htail : ∀ {bs : List Blk} {p q : ℕ}, MinLen c.sizeofStructMem bs →
            ptr + c.sizeofStructMem ≤ p → Linked c m p q bs → Linked c m' p q bs := by
          intro bs
          induction bs with
          | nil =>
              intro p q _ hp hl
              obtain ⟨rfl, hn, hu⟩ := hl
              have hh := header_congr (c := c) fun x hx hx' =>
                hagree x (hp.trans hx) (by omega : x < c.memSizeAligned + c.sizeofStructMem)
              exact ⟨rfl, (congrArg Header.next hh).symm.trans hn, (congrArg Header.used hh).symm.trans hu⟩
          | cons b bs ih =>
              intro p q hmin hp hl
              obtain ⟨hlen, hmin⟩ := minLen_cons.mp hmin
              have hend := hl.2.total_eq
              refine ⟨?_, ih hmin (by omega) hl.2⟩
              rw [← header_congr fun x hx hx' => hagree x (hp.trans hx) (by omega)]
              exact hl.1
        exact htail hmin (by omega) h.2

/-- **Splicing.** A change inside the blocks `mid` and the header behind them leaves the heap linked,
when it spells out the blocks `mid'` there and the `prev` behind them is right. -/
theorem Linked.splice (h : Linked c m 0 0 (l ++ mid ++ r)) (hl : MinLen c.sizeofStructMem l)
    (hr : MinLen c.sizeofStructMem r) (htotal : total mid = total mid')
    (hoff : AgreeOff m m' (total l) (total l + total mid + c.sizeofStructMem))
    (hmid : Segment c m' (total l) (lastPtr 0 0 l) mid')
    (hnext : next c m' (total l + total mid) = next c m (total l + total mid))
    (hused : used c m' (total l + total mid) = used c m (total l + total mid))
    (hprev : r ≠ [] → prev c m' (total l + total mid) = lastPtr (total l) (lastPtr 0 0 l) mid') :
    Linked c m' 0 0 (l ++ mid' ++ r) := by
  obtain ⟨hlm, hrest⟩ := linked_append.mp h
  rw [Nat.zero_add, total_append] at hrest
  have hleft := (linked_append.mp (List.append_assoc l mid r ▸ h)).1
  rw [List.append_assoc, linked_append]
  refine ⟨hleft.congr hl (hoff.agreeOn (Or.inl (by omega))), linked_append.mpr ⟨?_, ?_⟩⟩
  · rwa [Nat.zero_add]
  · rw [Nat.zero_add, ← htotal]
    exact hrest.relink hr hnext hused hprev (hoff.agreeOn (Or.inr (by omega)))

end BareMetal.Mem
