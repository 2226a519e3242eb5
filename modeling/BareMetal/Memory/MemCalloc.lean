import BareMetal.Memory.MemRun

/-! # `mem_calloc`

`mem_calloc` computes the product of its arguments twice: what it asks `mem_malloc` for is cut down to `mem_size_t`, what
it fills with zeros is not. `memCalloc_meets_iff` says when the block that it returns holds the product, and when the
zeros stay inside it. -/

namespace BareMetal.Mem

variable (c : Config)

/-- `memset(p, v, n)` for a pointer into the heap. -/
def memset (h : Heap) (p : ℕ) (v : UInt8) (n : ℕ) : Heap :=
  { h with mem := writeBytes h.mem (p - c.ram) (List.replicate n v) }

/-- `mem_calloc(count, size)`; the product is converted to `mem_size_t` for `mem_malloc` and to `size_t` for `memset`. -/
def memCalloc (h : Heap) (count size : ℕ) : Option (ℕ × Heap) :=
  (memMalloc c h (count * size % 256 ^ c.memSizeT)).map fun res =>
    (res.1, if res.1 ≠ 0 then memset c res.2 res.1 0 (count * size % 2 ^ 32) else res.2)

/-- What is expected of `mem_calloc` when it returns the block of the header at `q`: with `h₁` the heap of `mem_malloc` and
`bs'` its blocks, the block holds `n` bytes, all zero, and filling it leaves the headers and the other blocks alone. -/
structure Zeroed (h₁ h' : Heap) (bs' : List Blk) (q n : ℕ) : Prop where
  room : ∃ b, BlockAt 0 bs' q b ∧ b.used = true ∧ c.sizeofStructMem + n ≤ b.len
  zero : ∀ x, q + c.sizeofStructMem ≤ x → x < q + c.sizeofStructMem + n → h'.mem x = 0
  inside : ∀ b, BlockAt 0 bs' q b → AgreeOff h₁.mem h'.mem (q + c.sizeofStructMem) (q + b.len)
  headers : ∀ p b, BlockAt 0 bs' p b → header c h'.mem p = header c h₁.mem p
  others : ∀ p b, BlockAt 0 bs' p b → p ≠ q → AgreeOn h₁.mem h'.mem p (p + b.len)
  inv : HeapInv c h' bs'

/-- What is expected of `mem_calloc` for `n` bytes when it returns `p`: nothing for `NULL`, else a block of its own that
was filled with zeros, with the blocks that were in use before as they were. -/
def CallocMeets (h : Heap) (bs : List Blk) (n p : ℕ) (h' : Heap) : Prop :=
  p ≠ 0 → ∃ q h₁ bs', p = c.ram + q + c.sizeofStructMem ∧
    memMalloc c h (n % 256 ^ c.memSizeT) = some (p, h₁) ∧ HeapInv c h₁ bs' ∧
    Preserves c h.mem h'.mem bs bs' ∅ ∧ Zeroed c h₁ h' bs' q n

variable {c : Config} {h h₁ h' : Heap} {bs bs' : List Blk} {q n : ℕ} {b : Blk}

/-- What a block can hold fits into `mem_size_t`. -/
theorem fits_of_room (hinv : HeapInv c h bs) (hb : BlockAt 0 bs q b) (hroom : c.sizeofStructMem + n ≤ b.len) :
    Fits c n := by
  have hle := hinv.len_le hb
  have hal : alignUp c.memAlignment n ≤ c.memSizeAligned :=
    alignUp_le_of_dvd c.isAlignment (by omega) c.dvd_memSizeAligned
  exact lt_of_le_memSizeAligned hal

/-- A size that fits is one of `mem_size_t`. -/
theorem Fits.lt (hfit : Fits c n) : n < 256 ^ c.memSizeT := (le_alignUp c.isAlignment n).trans_lt hfit

/-- `mem_size_t` has at most 32 bits. -/
theorem pow_memSizeT_le (c : Config) : 256 ^ c.memSizeT ≤ 2 ^ 32 := by
  rcases c.memSizeT_eq with h | h <;> rw [h] <;> decide

/-- Zeros that fit into the block stay inside it. -/
theorem zeroed_memset (hinv : HeapInv c h₁ bs') (hb : BlockAt 0 bs' q b) (hused : b.used = true)
    (hroom : c.sizeofStructMem + n ≤ b.len) :
    Zeroed c h₁ (memset c h₁ (c.ram + q + c.sizeofStructMem) 0 n) bs' q n := by
  have hoffset : c.ram + q + c.sizeofStructMem - c.ram = q + c.sizeofStructMem := by omega
  have hwrite := writeBytes_agreeOff h₁.mem (q + c.sizeofStructMem) (List.replicate n 0)
  have hoff : AgreeOff h₁.mem (memset c h₁ (c.ram + q + c.sizeofStructMem) 0 n).mem (q + c.sizeofStructMem) (q + b.len) := by
    rw [memset, hoffset]
    refine hwrite.mono le_rfl ?_
    rw [List.length_replicate]
    omega
  -- the bytes are written inside the block
  have hmin := minLen_of_good hinv.good
  have hinv' : HeapInv c (memset c h₁ (c.ram + q + c.sizeofStructMem) 0 n) bs' := by
    obtain ⟨l, r, rfl, rfl⟩ := hb.exists_split
    rw [Nat.zero_add] at hoff ⊢
    exact hinv.writeData hoff
  constructor
  · exact ⟨b, hb, hused, hroom⟩
  · intro x hx hx'
    simp only [memset, hoffset, writeBytes, if_pos hx]
    rw [List.getD_eq_getElem _ _ (by rw [List.length_replicate]; omega), List.getElem_replicate]
  · intro b' hb'
    rw [hb'.unique c.sizeofStructMem_pos hmin hb]
    exact hoff
  · intro p b' hb'
    refine header_of_agreeOff hoff ?_
    by_cases hpq : p = q
    · exact .inl (Nat.le_of_eq (by rw [hpq]))
    · have hlen := hmin b' hb'.mem
      rcases hb'.disjoint hb hpq with hle | hle
      · exact .inl (by omega)
      · exact .inr hle
  · intro p b' hb' hpq
    refine hoff.agreeOn ?_
    rcases hb'.disjoint hb hpq with hle | hle
    · exact .inl (by omega)
    · exact .inr hle
  · exact hinv'

/-- **When `mem_calloc` returns a block of the size asked for.** It returns; the block holds `count * size` bytes, and the
zeros stay inside it, exactly when the product, rounded up to the alignment, fits into `mem_size_t`, or when what is left
of it there is 0 or too much for every free block, so that `NULL` is returned. -/
theorem memCalloc_meets_iff (c : Config) (h : Heap) (bs : List Blk) (count size : ℕ) (hinv : HeapInv c h bs) :
    ∃ p h', memCalloc c h count size = some (p, h') ∧ (CallocMeets c h bs (count * size) p h' ↔
      Fits c (count * size) ∨ count * size % 256 ^ c.memSizeT = 0 ∨ NoneLarge c bs (count * size % 256 ^ c.memSizeT)) := by
  rcases memMalloc_spec hinv (count * size % 256 ^ c.memSizeT) with ⟨hnull, hwhy⟩ | ⟨q, h₁, bs', hrun, halloc⟩
  · refine ⟨0, h, by rw [memCalloc, hnull]; rfl, iff_of_true (fun hne => absurd rfl hne) (.inr hwhy)⟩
  have hpos := c.ram_pos
  have hp : c.ram + q + c.sizeofStructMem ≠ 0 := by omega
  refine ⟨c.ram + q + c.sizeofStructMem, memset c h₁ (c.ram + q + c.sizeofStructMem) 0 (count * size % 2 ^ 32), ?_, ?_⟩
  · rw [memCalloc, hrun, Option.map_some, if_pos hp]
  constructor
  · intro hmeets
    obtain ⟨q', h₂, bs₂, -, -, hinv₂, -, hzeroed⟩ := hmeets hp
    obtain ⟨b, hb, -, hroom⟩ := hzeroed.room
    exact .inl (fits_of_room hinv₂ hb hroom)
  · rintro (hfit | hzero | hsmall)
    · have hlt := hfit.lt
      have hwide : count * size % 2 ^ 32 = count * size := Nat.mod_eq_of_lt (hlt.trans_le (pow_memSizeT_le c))
      rw [Nat.mod_eq_of_lt hlt] at hrun halloc
      rw [hwide]
      obtain ⟨b, hb, hused, hlen⟩ := halloc.room
      have hroom : c.sizeofStructMem + count * size ≤ b.len := by
        have := hfit.le_memAlignSize
        omega
      have hzeroed := zeroed_memset halloc.inv hb hused hroom
      refine fun _ => ⟨q, h₁, bs', rfl, by rw [Nat.mod_eq_of_lt hlt]; exact hrun, halloc.inv, ?_, hzeroed⟩
      -- the block was free, so the blocks in use before are others
      refine fun p b' hb' hused' hp' => ?_
      obtain ⟨hstill, hsame⟩ := halloc.preserves p b' hb' hused' hp'
      have hne : p ≠ q := by
        rintro rfl
        obtain ⟨b₀, hb₀, hfree⟩ := halloc.free
        rw [hb'.unique c.sizeofStructMem_pos (minLen_of_good hinv.good) hb₀, hfree] at hused'
        cases hused'
      refine ⟨hstill, fun x hx hx' => (hsame x hx hx').trans (hzeroed.others p b' hstill hne x ?_ hx')⟩
      omega
    · rw [hzero] at hrun
      exact absurd (Prod.mk.inj (Option.some.inj (hrun.symm.trans (if_pos rfl)))).1 hp
    · exact absurd (Prod.mk.inj (Option.some.inj (hrun.symm.trans (memMalloc_of_noneLarge hinv hsmall)))).1 hp

/-- Four words of a fresh heap. -/
theorem memCalloc_meets_iff_tiny : ∃ p h', memCalloc tiny (memInit tiny fun _ => 0) 4 4 = some (p, h') ∧
    (CallocMeets tiny (memInit tiny fun _ => 0) [⟨tiny.memSizeAligned, false⟩] (4 * 4) p h' ↔
      Fits tiny (4 * 4) ∨ 4 * 4 % 256 ^ tiny.memSizeT = 0 ∨
        NoneLarge tiny [⟨tiny.memSizeAligned, false⟩] (4 * 4 % 256 ^ tiny.memSizeT)) :=
  memCalloc_meets_iff tiny (memInit tiny fun _ => 0) [⟨tiny.memSizeAligned, false⟩] 4 4 (memInit_inv tiny fun _ => 0)

/-- The product 65540 is cut down to 4 for `mem_malloc`: a small block is returned. -/
theorem not_memCalloc_meets : ¬ ∀ (c : Config) (h : Heap) (bs : List Blk) (count size : ℕ), HeapInv c h bs →
    count < 256 ^ c.memSizeT → size < 256 ^ c.memSizeT →
    ∃ p h', memCalloc c h count size = some (p, h') ∧ CallocMeets c h bs (count * size) p h' := by
  intro hall
  have hinv := memInit_inv tiny fun _ => 0
  obtain ⟨p, h', hrun, hmeets⟩ := hall tiny (memInit tiny fun _ => 0) _ 2 32770 hinv (by decide) (by decide)
  obtain ⟨h₁, hmalloc⟩ : ∃ h₁, memMalloc tiny (memInit tiny fun _ => 0) 4 = some (0x20000008, h₁) := by
    have hfst : (memMalloc tiny (memInit tiny fun _ => 0) 4).map Prod.fst = some 0x20000008 := by decide
    obtain ⟨⟨p, h⟩, heq, rfl⟩ := Option.map_eq_some_iff.mp hfst
    exact ⟨h, heq⟩
  have hp : p = 0x20000008 := by
    rw [memCalloc, show 2 * 32770 % 256 ^ tiny.memSizeT = 4 by decide, hmalloc, Option.map_some] at hrun
    exact (Prod.mk.inj (Option.some.inj hrun)).1.symm
  obtain ⟨q, h₂, bs₂, -, -, hinv₂, -, hzeroed⟩ := hmeets (by rw [hp]; decide)
  obtain ⟨b, hb, -, hroom⟩ := hzeroed.room
  exact absurd (fits_of_room hinv₂ hb hroom).lt (by decide)

end BareMetal.Mem
