import BareMetal.Memory.MemTrim
import BareMetal.Memory.MemMalloc

/-! # Runs of the heap

The callers of the heap hold blocks: `live rmem` is the size that the holder of `rmem` may use. They free
and trim only what they hold, and write only to what they hold. `Laws` says what such a caller may rely
on in every state, and `Keeps` what one call leaves alone. -/

namespace BareMetal.Mem

/-- The heap and the blocks that callers hold. -/
structure State where
  heap : Heap
  /-- The usable size of the block at an address, for the blocks that are held. -/
  live : ℕ → Option ℕ

/-- What callers do. -/
inductive Event
  | malloc (size : ℕ)
  | trim (rmem newsize : ℕ)
  | free (rmem : ℕ)
  /-- The holder of `rmem` writes its byte number `k`. -/
  | write (rmem k : ℕ) (b : UInt8)

/-- After `mem_init`. -/
def start (c : Config) (m : ByteMem) : State := ⟨memInit c m, fun _ => none⟩

/-- One event. Only blocks that are held are trimmed, freed and written. -/
def step (c : Config) (s : State) : Event → Option State
  | .malloc size =>
      (memMalloc c s.heap size).map fun res =>
        ⟨res.2, if res.1 = 0 then s.live else Function.update s.live res.1 (some size)⟩
  | .trim rmem newsize =>
      (s.live rmem).map fun _ =>
        let res := memTrim c s.heap rmem newsize
        ⟨res.2, if res.1 = 0 then s.live else Function.update s.live rmem (some newsize)⟩
  | .free rmem =>
      (s.live rmem).map fun _ => ⟨memFree c s.heap rmem, Function.update s.live rmem none⟩
  | .write rmem k b =>
      (s.live rmem).bind fun size =>
        if k < size then
          some { s with heap.mem := Function.update s.heap.mem (rmem - c.ram + k) b }
        else none

/-- The block that an event is about. -/
def Event.target : Event → Option ℕ
  | .malloc _ => none
  | .trim rmem _ => some rmem
  | .free rmem => some rmem
  | .write rmem _ _ => some rmem

/-- The aligned size of a request fits into `mem_size_t`. -/
def Fits (c : Config) (size : ℕ) : Prop := alignUp c.memAlignment size < 256 ^ c.memSizeT

/-- The sizes of an event fit. -/
def Event.Fits (c : Config) : Event → Prop
  | .malloc size => Mem.Fits c size
  | .trim _ newsize => Mem.Fits c newsize
  | .free _ => True
  | .write _ _ _ => True

instance decidableFits (c : Config) (size : ℕ) : Decidable (Fits c size) :=
  inferInstanceAs (Decidable (alignUp c.memAlignment size < 256 ^ c.memSizeT))

instance decidableEventFits (c : Config) : (e : Event) → Decidable (e.Fits c)
  | .malloc size => inferInstanceAs (Decidable (Mem.Fits c size))
  | .trim _ newsize => inferInstanceAs (Decidable (Mem.Fits c newsize))
  | .free _ => isTrue trivial
  | .write _ _ _ => isTrue trivial

/-- The offset of the header of the block whose data are at `rmem`. -/
def headerOf (c : Config) (rmem : ℕ) : ℕ := rmem - c.sizeofStructMem - c.ram

/-- The data bytes of the block at `rmem`. -/
def dataLen (c : Config) (h : Heap) (rmem : ℕ) : ℕ := userSize c h.mem (headerOf c rmem)

/-- `NULL` is returned only when no free block can hold the aligned request. -/
def NullWhenFull (c : Config) (h : Heap) (bs : List Blk) (size : ℕ) : Prop :=
  ∀ h', memMalloc c h size = some (0, h') →
    ∀ b ∈ bs, b.used = false → b.len - c.sizeofStructMem < alignUp c.memAlignment size

/-- **The laws of the heap**: the blocks `bs` tile the heap, and those that are held have the place and the
size that their holder relies on. -/
structure Laws (c : Config) (s : State) (bs : List Blk) : Prop where
  linked : Linked c s.heap.mem 0 0 bs
  coalesced : Coalesced bs
  lfree : s.heap.lfree = firstFree 0 bs
  /-- A block that is held is a used one of the tiling. -/
  used : ∀ p n, s.live p = some n → ∃ b, BlockAt 0 bs (headerOf c p) b ∧ b.used = true
  aligned : ∀ p n, s.live p = some n → c.memAlignment ∣ p
  inside : ∀ p n, s.live p = some n → c.ram ≤ p ∧ p + dataLen c s.heap p ≤ c.ram + c.memSizeAligned
  room : ∀ p n, s.live p = some n → n ≤ dataLen c s.heap p
  disjoint : ∀ p n q k, s.live p = some n → s.live q = some k → p ≠ q →
    p + dataLen c s.heap p ≤ q ∨ q + dataLen c s.heap q ≤ p
  returns : ∀ size, ∃ res, memMalloc c s.heap size = some res
  /-- What `mem_malloc` returns is held by nobody. -/
  fresh : ∀ size p h', memMalloc c s.heap size = some (p, h') → p ≠ 0 → s.live p = none
  null : ∀ size, 0 < size → Fits c size → NullWhenFull c s.heap bs size

/-- A step leaves the blocks that it is not about with their holders, with the same data. -/
def Keeps (c : Config) (s s' : State) (target : Option ℕ) : Prop :=
  ∀ p n, s.live p = some n → target ≠ some p → s'.live p = some n ∧
    dataLen c s'.heap p = dataLen c s.heap p ∧
    AgreeOn s.heap.mem s'.heap.mem (p - c.ram) (p - c.ram + dataLen c s.heap p)

variable {c : Config} {m m' : ByteMem} {h : Heap} {s s' : State} {e : Event} {p q n k size : ℕ} {b : Blk}
  {bs bs' l r : List Blk}

/-! ## The invariant -/

/-- The block at `p` is in use with at least `n` data bytes. -/
def Holds (c : Config) (bs : List Blk) (p n : ℕ) : Prop :=
  ∃ q b, p = c.ram + q + c.sizeofStructMem ∧ BlockAt 0 bs q b ∧ b.used = true ∧
    c.sizeofStructMem + n ≤ b.len

/-- **The invariant of a run.** -/
structure Inv (c : Config) (s : State) (bs : List Blk) : Prop where
  heap : HeapInv c s.heap bs
  live : ∀ p n, s.live p = some n → Holds c bs p n

/-- Aligning a size that fits makes it no smaller. -/
theorem Fits.le_memAlignSize (h : Fits c size) : size ≤ c.memAlignSize size := by
  rw [Config.memAlignSize, Nat.mod_eq_of_lt h]
  exact le_alignUp c.isAlignment size

/-- From the data of a block back to its header. -/
theorem headerOf_add (c : Config) (q : ℕ) : headerOf c (c.ram + q + c.sizeofStructMem) = q := by
  rw [headerOf]
  omega

/-- The data bytes of a block are the block without its header. -/
theorem HeapInv.dataLen_eq (h : HeapInv c s.heap bs) (hb : BlockAt 0 bs q b) :
    dataLen c s.heap (c.ram + q + c.sizeofStructMem) = b.len - c.sizeofStructMem := by
  obtain ⟨l, r, rfl, rfl⟩ := hb.exists_split
  rw [dataLen, headerOf_add, Nat.zero_add, userSize_eq h]

/-- Blocks are aligned. -/
theorem HeapInv.dvd_offset (h : HeapInv c s.heap bs) (hb : BlockAt 0 bs q b) : c.memAlignment ∣ q := by
  obtain ⟨l, r, rfl, rfl⟩ := hb.exists_split
  rw [Nat.zero_add]
  exact dvd_total fun a ha => (h.good a (List.mem_append_left _ ha)).2

/-- A block with room for the request holds that many bytes. -/
theorem HasRoom.holds (h : HasRoom c bs q size) (hfit : Fits c size) :
    Holds c bs (c.ram + q + c.sizeofStructMem) size := by
  obtain ⟨b, hb, hused, hlen⟩ := h
  have := hfit.le_memAlignSize
  exact ⟨q, b, rfl, hb, hused, by omega⟩

/-- A block that an operation preserves is held as before. -/
theorem Preserves.holds {exc : Set ℕ} (h : Preserves c m m' bs bs' exc) (hp : Holds c bs p n)
    (hexc : headerOf c p ∉ exc) : Holds c bs' p n := by
  obtain ⟨q, b, rfl, hb, hused, hlen⟩ := hp
  rw [headerOf_add] at hexc
  exact ⟨q, b, rfl, (h q b hb hused hexc).1, hused, hlen⟩

/-- Two blocks that are held at different addresses have different headers. -/
theorem Holds.headerOf_ne (hp : Holds c bs p n) (hq : Holds c bs q k) (hne : p ≠ q) :
    headerOf c p ≠ headerOf c q := by
  obtain ⟨p', -, rfl, -⟩ := hp
  obtain ⟨q', -, rfl, -⟩ := hq
  rw [headerOf_add, headerOf_add]
  rintro rfl
  exact hne rfl

/-- A held block is not at `NULL`. -/
theorem Holds.pos (hp : Holds c bs p n) : 0 < p := by
  obtain ⟨q, -, rfl, -⟩ := hp
  have := c.ram_pos
  omega

/-- Nobody holds a block that is free. -/
theorem Inv.live_eq_none (hinv : Inv c s bs) (hb : BlockAt 0 bs q b) (hfree : b.used = false) :
    s.live (c.ram + q + c.sizeofStructMem) = none := by
  by_contra hlive
  obtain ⟨n, hn⟩ := Option.ne_none_iff_exists'.mp hlive
  obtain ⟨q', b', hp, hb', hused, -⟩ := hinv.live _ n hn
  obtain rfl : q = q' := by omega
  rw [hb.unique c.sizeofStructMem_pos (minLen_of_good hinv.heap.good) hb', hused] at hfree
  cases hfree

/-- After `mem_init` nothing is held. -/
theorem inv_start (c : Config) (m : ByteMem) : Inv c (start c m) [⟨c.memSizeAligned, false⟩] where
  heap := memInit_inv c m
  live _ _ h := nomatch h

/-! ## One step -/

/-- A write into the data of a block. -/
theorem HeapInv.write (h : HeapInv c s.heap (l ++ b :: r)) (hk : c.sizeofStructMem ≤ k) (hlt : k < b.len)
    (v : UInt8) :
    HeapInv c { s.heap with mem := Function.update s.heap.mem (total l + k) v } (l ++ b :: r) := by
  refine h.writeData fun x hx => ?_
  rw [Function.update_of_ne (by omega)]

/-- What a step leaves: a tiling with the invariant, and the data of the other blocks. -/
def StepSpec (c : Config) (s s' : State) (target : Option ℕ) : Prop :=
  ∃ bs', Inv c s' bs' ∧ Keeps c s s' target

/-- An operation on the block `p`, or on a block that nobody holds, keeps the other blocks. -/
theorem Preserves.keeps {exc : Set ℕ} {target : Option ℕ} (hinv : Inv c s bs) (hinv' : HeapInv c s'.heap bs')
    (h : Preserves c s.heap.mem s'.heap.mem bs bs' exc)
    (hexc : ∀ p n, s.live p = some n → target ≠ some p → headerOf c p ∉ exc)
    (hlive : ∀ p n, s.live p = some n → target ≠ some p → s'.live p = some n) : Keeps c s s' target := by
  intro p n hp htarget
  obtain ⟨q, b, rfl, hb, hused, hlen⟩ := hinv.live p n hp
  have hq := hexc _ n hp htarget
  rw [headerOf_add] at hq
  obtain ⟨hb', hagree⟩ := h q b hb hused hq
  refine ⟨hlive _ n hp htarget, ?_, ?_⟩
  · rw [hinv.heap.dataLen_eq hb, hinv'.dataLen_eq hb']
  · rw [hinv.heap.dataLen_eq hb]
    intro x hx hx'
    exact hagree x (by omega) (by omega)

/-- `mem_malloc` returns a block that nobody held, or `NULL`. -/
theorem Inv.malloc (hinv : Inv c s bs) (hfit : Fits c size) (hs : step c s (.malloc size) = some s') :
    StepSpec c s s' none := by
  obtain ⟨res, hres, hs⟩ := Option.map_eq_some_iff.mp hs
  rcases memMalloc_spec hinv.heap size with ⟨heq, -⟩ | ⟨q, h', bs', heq, halloc⟩
  · obtain rfl := Option.some.inj (hres.symm.trans heq)
    rw [if_pos rfl] at hs
    subst hs
    exact ⟨bs, hinv, fun p n hp _ => ⟨hp, rfl, fun _ _ _ => rfl⟩⟩
  · obtain rfl := Option.some.inj (hres.symm.trans heq)
    have hpos := c.ram_pos
    rw [if_neg (by simp only; omega)] at hs
    subst hs
    -- the block was free, so nobody holds it
    obtain ⟨b, hb, hfree⟩ := halloc.free
    have hnone := hinv.live_eq_none hb hfree
    have hfresh : ∀ p n, s.live p = some n → p ≠ c.ram + q + c.sizeofStructMem := by
      rintro p n hp rfl
      rw [hnone] at hp
      cases hp
    refine ⟨bs', ⟨halloc.inv, fun p n hp => ?_⟩, Preserves.keeps hinv halloc.inv halloc.preserves
      (fun _ _ _ _ => Set.notMem_empty _) fun p n hp _ => ?_⟩
    · by_cases hnew : p = c.ram + q + c.sizeofStructMem
      · subst hnew
        simp only [Function.update_self, Option.some.injEq] at hp
        exact hp ▸ halloc.room.holds hfit
      · simp only [Function.update_of_ne hnew] at hp
        exact halloc.preserves.holds (hinv.live p n hp) (Set.notMem_empty _)
    · simp only [Function.update_of_ne (hfresh p n hp)]
      exact hp

/-- The header of a block that is held splits the tiling. -/
theorem Holds.exists_split (hp : Holds c bs p n) : ∃ l r len, bs = l ++ ⟨len, true⟩ :: r ∧
    p = c.ram + total l + c.sizeofStructMem ∧ c.sizeofStructMem + n ≤ len := by
  obtain ⟨q, ⟨len, u⟩, rfl, hb, rfl, hlen⟩ := hp
  obtain ⟨l, r, rfl, rfl⟩ := hb.exists_split
  exact ⟨l, r, len, rfl, by rw [Nat.zero_add], hlen⟩

/-- The blocks that an event is not about are not at its header. -/
theorem Inv.not_mem_target {sz : ℕ} (hinv : Inv c s bs) (hsz : s.live p = some sz) :
    ∀ q n, s.live q = some n → some p ≠ some q → headerOf c q ∉ ({headerOf c p} : Set ℕ) :=
  fun q n hq hne hmem => (hinv.live q n hq).headerOf_ne (hinv.live p sz hsz)
    (fun heq => hne (congrArg some heq.symm)) hmem

/-- `mem_free` takes a held block, and the others stay. -/
theorem Inv.free (hinv : Inv c s bs) (hs : step c s (.free p) = some s') : StepSpec c s s' (some p) := by
  obtain ⟨n, hn, rfl⟩ := Option.map_eq_some_iff.mp hs
  have hother := hinv.not_mem_target hn
  obtain ⟨l, r, len, rfl, hp, -⟩ := (hinv.live p n hn).exists_split
  obtain ⟨bs', hinv', hpres⟩ := memFree_spec hinv.heap
  have hq : headerOf c p = total l := by rw [hp, headerOf_add]
  rw [← hp] at hinv' hpres
  rw [← hq] at hpres
  have hlive : ∀ q k, s.live q = some k → some p ≠ some q → Function.update s.live p none q = some k := by
    intro q k hk hne
    rw [Function.update_of_ne fun heq => hne (congrArg some heq.symm)]
    exact hk
  refine ⟨bs', ⟨hinv', fun q k hk => ?_⟩, hpres.keeps hinv hinv' hother hlive⟩
  have hne : q ≠ p := by
    rintro rfl
    simp at hk
  simp only [Function.update_of_ne hne] at hk
  exact hpres.holds (hinv.live q k hk) (hother q k hk fun heq => hne (Option.some.inj heq).symm)

/-- `mem_trim` keeps the block with its first bytes. -/
theorem Inv.trim {newsize : ℕ} (hinv : Inv c s bs) (hfit : Fits c newsize)
    (hs : step c s (.trim p newsize) = some s') : StepSpec c s s' (some p) := by
  obtain ⟨n, hn, hs⟩ := Option.map_eq_some_iff.mp hs
  have hother := hinv.not_mem_target hn
  have hpos := (hinv.live p n hn).pos
  obtain ⟨l, r, len, rfl, hp, -⟩ := (hinv.live p n hn).exists_split
  have hq : headerOf c p = total l := by rw [hp, headerOf_add]
  rcases memTrim_spec hinv.heap newsize with heq | ⟨h', bs', heq, htrim⟩
  · rw [← hp] at heq
    simp only [heq, if_true] at hs
    subst hs
    exact ⟨_, hinv, fun q k hk _ => ⟨hk, rfl, fun _ _ _ => rfl⟩⟩
  · rw [← hp] at heq
    simp only [heq, if_neg hpos.ne'] at hs
    subst hs
    have hpres := htrim.preserves
    rw [← hq] at hpres
    have hlive : ∀ q k, s.live q = some k → some p ≠ some q →
        Function.update s.live p (some newsize) q = some k := by
      intro q k hk hne
      rw [Function.update_of_ne fun heq => hne (congrArg some heq.symm)]
      exact hk
    refine ⟨bs', ⟨htrim.inv, fun q k hk => ?_⟩, hpres.keeps hinv htrim.inv hother hlive⟩
    by_cases hne : q = p
    · subst hne
      simp only [Function.update_self, Option.some.injEq] at hk
      have hroom := htrim.room.holds hfit
      rwa [← hp, hk] at hroom
    · simp only [Function.update_of_ne hne] at hk
      exact hpres.holds (hinv.live q k hk) (hother q k hk fun heq => hne (Option.some.inj heq).symm)

/-- The application writes into a block that it holds. -/
theorem Inv.write {v : UInt8} (hinv : Inv c s bs) (hs : step c s (.write p k v) = some s') :
    StepSpec c s s' (some p) := by
  obtain ⟨n, hn, hs⟩ := Option.bind_eq_some_iff.mp hs
  obtain ⟨hk, hs⟩ := Option.ite_none_right_eq_some.mp hs
  obtain rfl := Option.some.inj hs
  have hother := hinv.not_mem_target hn
  obtain ⟨l, r, len, rfl, hp, hlen⟩ := (hinv.live p n hn).exists_split
  have hoff : p - c.ram + k = total l + (c.sizeofStructMem + k) := by omega
  rw [hoff]
  have hinv' := hinv.heap.write (Nat.le_add_right c.sizeofStructMem k)
    (by omega : c.sizeofStructMem + k < len) v
  have hpres : Preserves c s.heap.mem (Function.update s.heap.mem (total l + (c.sizeofStructMem + k)) v)
      (l ++ ⟨len, true⟩ :: r) (l ++ ⟨len, true⟩ :: r) {headerOf c p} := by
    intro q b hb hused hq
    have hself : BlockAt 0 (l ++ ⟨len, true⟩ :: r) (total l) ⟨len, true⟩ := by
      simpa using blockAt_mid 0 l r ⟨len, true⟩
    have hne : q ≠ total l := fun heq => hq (by rw [heq, hp, headerOf_add]; rfl)
    have hapart : q + b.len ≤ total l ∨ total l + len ≤ q := hb.disjoint hself hne
    refine ⟨hb, fun x hx hx' => ?_⟩
    rw [Function.update_of_ne (by omega)]
  exact ⟨_, ⟨hinv', hinv.live⟩, hpres.keeps hinv hinv' hother fun _ _ hq _ => hq⟩

/-- Every step keeps the invariant and the data of the other blocks. -/
theorem Inv.step (hinv : Inv c s bs) (hfit : e.Fits c) (hs : step c s e = some s') :
    StepSpec c s s' e.target := by
  cases e with
  | malloc size => exact hinv.malloc hfit hs
  | trim p newsize => exact hinv.trim hfit hs
  | free p => exact hinv.free hs
  | write p k v => exact hinv.write hs

/-! ## The laws -/

/-- What the invariant says about the calls of an application. -/
theorem Inv.laws (hinv : Inv c s bs) : Laws c s bs where
  linked := hinv.heap.linked
  coalesced := hinv.heap.coalesced
  lfree := hinv.heap.lfree
  -- a pointer that was given out is the data of a used block of the heap, and two of them are of two blocks
  used p n hp := by
    obtain ⟨q, b, rfl, hb, hused, -⟩ := hinv.live p n hp
    rw [headerOf_add]
    exact ⟨b, hb, hused⟩
  aligned p n hp := by
    obtain ⟨q, b, rfl, hb, -⟩ := hinv.live p n hp
    exact Nat.dvd_add (Nat.dvd_add c.ram_dvd (hinv.heap.dvd_offset hb)) c.dvd_sizeofStructMem
  inside p n hp := by
    obtain ⟨q, b, rfl, hb, -, hlen⟩ := hinv.live p n hp
    have hbounds := hb.bounds
    have hend := hinv.heap.linked.total_eq
    rw [hinv.heap.dataLen_eq hb]
    omega
  room p n hp := by
    obtain ⟨q, b, rfl, hb, -, hlen⟩ := hinv.live p n hp
    rw [hinv.heap.dataLen_eq hb]
    omega
  disjoint p n q k hp hq hne := by
    obtain ⟨p', b, rfl, hb, -, hlen⟩ := hinv.live p n hp
    obtain ⟨q', b', rfl, hb', -, hlen'⟩ := hinv.live q k hq
    -- blocks of one list do not overlap
    have hapart := hb.disjoint hb' fun heq => hne (by rw [heq])
    rw [hinv.heap.dataLen_eq hb, hinv.heap.dataLen_eq hb']
    omega
  returns size := by
    rcases memMalloc_spec hinv.heap size with ⟨heq, -⟩ | ⟨q, h', bs', heq, -⟩
    · exact ⟨_, heq⟩
    · exact ⟨_, heq⟩
  fresh size p h' hp hne := by
    rcases memMalloc_spec hinv.heap size with ⟨heq, -⟩ | ⟨q, h'', bs', heq, halloc⟩
    · exact absurd (congrArg Prod.fst (Option.some.inj (hp.symm.trans heq))) hne
    · obtain ⟨rfl, -⟩ := Prod.mk.inj (Option.some.inj (hp.symm.trans heq))
      -- the block was free before the call, and no pointer that is held has its data there
      obtain ⟨b, hb, hfree⟩ := halloc.free
      exact hinv.live_eq_none hb hfree
  null size hsize hfit h' hnull b hb hfree := by
    rcases memMalloc_spec hinv.heap size with ⟨-, hzero | hsmall⟩ | ⟨q, h'', bs', heq, -⟩
    · omega
    · have hlt := hsmall b hb hfree
      have hgood := (hinv.heap.good b hb).1
      have hal : c.memAlignSize size = alignUp c.memAlignment size := Nat.mod_eq_of_lt hfit
      rw [dataSize] at hlt
      split at hlt <;> omega
    · have hres := Option.some.inj (heq.symm.trans hnull)
      have := congrArg Prod.fst hres
      have hpos := c.ram_pos
      simp only at this
      omega

/-- **The heap keeps its laws.** In every state that calls of `mem_malloc`, `mem_trim` and `mem_free`
reach with sizes that fit, the laws hold, and the next call leaves the other blocks alone. -/
theorem run_laws {es : List Event} (hfits : ∀ e ∈ es, e.Fits c)
    (hrun : run (step c) (start c m) es = some s) :
    (∃ bs, Laws c s bs) ∧ ∀ e s', e.Fits c → step c s e = some s' → Keeps c s s' e.target := by
  have hstep : ∀ s e s', (∃ bs, Inv c s bs) → Event.Fits c e → Mem.step c s e = some s' →
      ∃ bs', Inv c s' bs' := by
    rintro s e s' ⟨bs, hinv⟩ hfit hs
    obtain ⟨bs', hinv', -⟩ := hinv.step hfit hs
    exact ⟨bs', hinv'⟩
  obtain ⟨bs, hinv⟩ := run_invariant_of_meets hstep ⟨_, inv_start c m⟩ (runMeets_of_forall _ hfits) hrun
  refine ⟨⟨bs, hinv.laws⟩, fun e s' hfit hs => ?_⟩
  obtain ⟨-, -, hkeeps⟩ := hinv.step hfit hs
  exact hkeeps

/-! ## A small heap -/

/-- 64 bytes at an address of the internal SRAM. -/
def tiny : Config where
  memAlignment := 4
  memSize := 64
  ram := 0x20000000
  isAlignment := isAlignment_four
  ram_dvd := by decide
  ram_pos := by decide
  block_fits := by decide
  memSize_fits := by decide
  ram_fits := by decide

/-- Two blocks, and a request that does not fit; the second block is written and trimmed, the first one is freed and taken
again. -/
def tinyRun : List Event :=
  [.malloc 12, .malloc 20, .malloc 40, .write 0x2000001C 3 7, .trim 0x2000001C 12, .free 0x20000008, .malloc 4]

/-- The theorem at a run with two blocks, a failed `mem_malloc`, `mem_trim` and `mem_free`. -/
theorem run_laws_tinyRun : ∃ s, run (step tiny) (start tiny fun _ => 0) tinyRun = some s ∧
    s.live 0x20000008 = some 4 ∧ s.live 0x2000001C = some 12 ∧ (∃ bs, Laws tiny s bs) ∧
      ∀ e s', e.Fits tiny → step tiny s e = some s' → Keeps tiny s s' e.target := by
  have hlive : ((run (step tiny) (start tiny fun _ => 0) tinyRun).map fun s =>
      (s.live 0x20000008, s.live 0x2000001C)) = some (some 4, some 12) := by decide
  obtain ⟨s, hrun, hs⟩ := Option.map_eq_some_iff.mp hlive
  obtain ⟨hfirst, hsecond⟩ := Prod.mk.inj hs
  exact ⟨s, hrun, hfirst, hsecond, run_laws (by decide) hrun⟩

/-- `mem_malloc(0)` returns `NULL` on a fresh heap, although the free block could hold the request. -/
theorem not_null_when_full : ¬ ∀ (c : Config) (m : ByteMem) (es : List Event) (s : State),
    run (step c) (start c m) es = some s →
      ∃ bs, Linked c s.heap.mem 0 0 bs ∧ ∀ size, NullWhenFull c s.heap bs size := by
  intro h
  obtain ⟨bs, hlinked, hnull⟩ := h tiny (fun _ => 0) [] _ rfl
  cases bs with
  | nil => exact absurd hlinked.1 (by decide)
  | cons b bs =>
      have hused : b.used = false := (congrArg Header.used hlinked.1).symm.trans (by decide)
      have hlt := hnull 0 _ rfl b List.mem_cons_self hused
      exact absurd hlt (Nat.not_lt_zero _)

end BareMetal.Mem
