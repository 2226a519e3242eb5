import BareMetal.Lib.Run
import Mathlib.Data.List.ReduceOption
import Mathlib.Data.List.Nodup

/-! # The memory of the Ethernet driver

`ETH_Mem_Malloc` takes the two descriptor tables and the two packet buffers from the heap of
`malloc.h` and keeps them in four global pointers; when one of the four is missing it gives the others
back through `ETH_Mem_Free`, which is also public. The heap itself is not part of the repository: each
call of `mymalloc` is answered with `NULL` or with a block that is not live, and `myfree(NULL)` does
nothing.

No block is lost and the return value is right in every run. `ETH_Mem_Free` leaves the pointers as they
are, so a call that frees anything leaves a pointer to a freed block behind (`ethMem_meets_iff`), and the
next `ETH_Mem_Free` frees that block again (`ethMem_freesOnce_iff`). -/

namespace BareMetal.Eth.DriverMem

/-- The constants the four sizes are computed from. -/
structure Config where
  /-- `ETH_RXBUFNB`. -/
  ethRxbufnb : ℕ
  /-- `ETH_TXBUFNB`. -/
  ethTxbufnb : ℕ
  /-- `ETH_RX_BUF_SIZE`. -/
  ethRxBufSize : ℕ
  /-- `ETH_TX_BUF_SIZE`. -/
  ethTxBufSize : ℕ
  /-- `sizeof(ETH_DMADESCTypeDef)`. -/
  sizeofDmaDesc : ℕ

/-- The heap of `malloc.h`: the size of the live block at an address, and the number of times a
block was freed that was not live. -/
structure Heap where
  size : ℕ → Option ℕ
  doubleFrees : ℕ

/-- The address is that of a live block. -/
def Heap.Live (h : Heap) (b : ℕ) : Prop := (h.size b).isSome

instance (h : Heap) (b : ℕ) : Decidable (h.Live b) := inferInstanceAs (Decidable (_ = true))

/-- `mymalloc(SRAMIN, size)`, answered with `r`; an answer that is a live block is no answer. -/
def mymalloc (h : Heap) (size : ℕ) (r : Option ℕ) : Option (Heap × Option ℕ) :=
  match r with
  | none => some (h, none)
  | some b =>
      if h.Live b then none
      else some ({ h with size := Function.update h.size b (some size) }, some b)

/-- `myfree(SRAMIN, p)`. -/
def myfree (h : Heap) (p : Option ℕ) : Heap :=
  match p with
  | none => h
  | some b =>
      if h.Live b then { h with size := Function.update h.size b none }
      else { h with doubleFrees := h.doubleFrees + 1 }

/-- The four global pointers. -/
structure Pointers where
  dmaRxDscrTab : Option ℕ
  dmaTxDscrTab : Option ℕ
  rxBuff : Option ℕ
  txBuff : Option ℕ
  deriving DecidableEq, Repr

/-- The pointers in the order in which they are allocated and freed. -/
def Pointers.toList (p : Pointers) : List (Option ℕ) :=
  [p.dmaRxDscrTab, p.dmaTxDscrTab, p.rxBuff, p.txBuff]

/-- The blocks the pointers refer to. -/
def Pointers.blocks (p : Pointers) : List ℕ := p.toList.reduceOption

/-- The driver's pointers and the heap. -/
structure Driver where
  ptr : Pointers
  heap : Heap

/-- `ETH_Mem_Free`. -/
def ethMemFree (s : Driver) : Driver :=
  let heap := myfree s.heap s.ptr.dmaRxDscrTab
  let heap := myfree heap s.ptr.dmaTxDscrTab
  let heap := myfree heap s.ptr.rxBuff
  let heap := myfree heap s.ptr.txBuff
  { s with heap }

/-- `ETH_Mem_Malloc`, its four calls of `mymalloc` answered with `r`: the state and the return value. -/
def ethMemMalloc (c : Config) (s : Driver) (r : Pointers) : Option (Driver × ℕ) := do
  let (heap, dmaRxDscrTab) ← mymalloc s.heap (c.ethRxbufnb * c.sizeofDmaDesc) r.dmaRxDscrTab
  let (heap, dmaTxDscrTab) ← mymalloc heap (c.ethTxbufnb * c.sizeofDmaDesc) r.dmaTxDscrTab
  let (heap, rxBuff) ← mymalloc heap (c.ethRxBufSize * c.ethRxbufnb) r.rxBuff
  let (heap, txBuff) ← mymalloc heap (c.ethTxBufSize * c.ethTxbufnb) r.txBuff
  let s := { ptr := { dmaRxDscrTab, dmaTxDscrTab, rxBuff, txBuff }, heap }
  if dmaRxDscrTab.isNone || dmaTxDscrTab.isNone || rxBuff.isNone || txBuff.isNone then
    some (ethMemFree s, 1)
  else some (s, 0)

/-- The calls a program can make, with the answers of the heap. -/
inductive Event
  | malloc (r : Pointers)
  | free
  deriving DecidableEq, Repr

/-- One call: the state after it and, for `ETH_Mem_Malloc`, the return value. -/
def call (c : Config) (s : Driver) : Event → Option (Driver × Option ℕ)
  | .malloc r => (ethMemMalloc c s r).map fun a => (a.1, some a.2)
  | .free => some (ethMemFree s, none)

/-- One step of the machine. -/
def step (c : Config) (s : Driver) (e : Event) : Option Driver := (call c s e).map Prod.fst

/-- At start-up the pointers are `NULL` and the driver has no block. -/
def start : Driver := ⟨⟨none, none, none, none⟩, ⟨fun _ => none, 0⟩⟩

/-! ## What is asked of a call -/

/-- All four pointers refer to live blocks. -/
def Driver.AllLive (s : Driver) : Prop := ∀ p ∈ s.ptr.toList, ∃ b, p = some b ∧ s.heap.Live b

/-- Some pointer refers to a block that is not live. -/
def Driver.Dangling (s : Driver) : Prop := ∃ b ∈ s.ptr.blocks, ¬s.heap.Live b

/-- What a call from `s` to `t` with this return value has to satisfy. -/
structure CallMeets (s t : Driver) (ret : Option ℕ) : Prop where
  /-- No block is freed that is not live. -/
  freesOnce : t.heap.doubleFrees = s.heap.doubleFrees
  /-- Every live block can be reached through one of the pointers. -/
  noLeak : ∀ b, t.heap.Live b → b ∈ t.ptr.blocks
  /-- `0` is returned exactly when the four blocks are live. -/
  ret_zero : ∀ v, ret = some v → (v = 0 ↔ t.AllLive)
  /-- After a failed call and after `ETH_Mem_Free` no pointer refers to a freed block. -/
  noDangling : ret ≠ some 0 → ¬t.Dangling

/-- Every outcome of the call is as it has to be. -/
def Meets (c : Config) (s : Driver) (e : Event) : Prop :=
  ∀ t ret, call c s e = some (t, ret) → CallMeets s t ret

/-- The call frees no block twice. -/
def FreesOnce (c : Config) (s : Driver) (e : Event) : Prop :=
  ∀ t ret, call c s e = some (t, ret) → t.heap.doubleFrees = s.heap.doubleFrees

/-- `ETH_Mem_Malloc` is not repeated while a successful allocation is live. -/
def Allowed (s : Driver) : Event → Prop
  | .malloc _ => ¬s.AllLive
  | .free => True

/-- `ETH_Mem_Malloc` gets all four blocks or none, and `ETH_Mem_Free` is called while the pointers
are `NULL`. -/
def AllOrNothing (s : Driver) : Event → Prop
  | .malloc r => (∀ p ∈ r.toList, p ≠ none) ∨ ∀ p ∈ r.toList, p = none
  | .free => ∀ p ∈ s.ptr.toList, p = none

/-- `ETH_Mem_Free` is called while the four blocks are live or the pointers are `NULL`. -/
def FreeInTurn (s : Driver) : Event → Prop
  | .malloc _ => True
  | .free => s.AllLive ∨ ∀ p ∈ s.ptr.toList, p = none

/-! ## The heap's two operations -/

section Heap

variable {h h' : Heap} {size : ℕ} {r p : Option ℕ} {b : ℕ}

/-- An answer of `mymalloc` is stored as it is; a block among the answers was not live and is now. -/
theorem mymalloc_spec (hm : mymalloc h size r = some (h', p)) :
    p = r ∧ h'.doubleFrees = h.doubleFrees ∧ (∀ b, r = some b → ¬h.Live b) ∧
      ∀ b, h'.Live b ↔ h.Live b ∨ r = some b := by
  cases r with
  | none =>
      obtain ⟨rfl, rfl⟩ := Prod.mk.inj (Option.some.inj hm)
      simp
  | some a =>
      simp only [mymalloc] at hm
      split at hm
      · cases hm
      · rename_i hfresh
        obtain ⟨rfl, rfl⟩ := Prod.mk.inj (Option.some.inj hm)
        refine ⟨rfl, rfl, fun b hb => Option.some.inj hb ▸ hfresh, fun b => ?_⟩
        by_cases hab : b = a
        · subst hab
          simp [Heap.Live]
        · simp [Heap.Live, Function.update_of_ne hab, Ne.symm hab]

/-- What is live after a `myfree`. -/
theorem myfree_live (b : ℕ) : (myfree h p).Live b ↔ h.Live b ∧ p ≠ some b := by
  cases p with
  | none => simp [myfree]
  | some a =>
      simp only [myfree]
      by_cases hab : b = a
      · subst hab
        split <;> simp_all [Heap.Live]
      · split <;> simp [Heap.Live, Function.update_of_ne hab, Ne.symm hab]

/-- A `myfree` of a pointer is no double free exactly when its block is live. -/
theorem myfree_doubleFrees :
    (myfree h p).doubleFrees = h.doubleFrees ↔ ∀ b, p = some b → h.Live b := by
  cases p with
  | none => simp [myfree]
  | some a =>
      simp only [myfree]
      split <;> simp_all

/-- Double frees are never forgotten. -/
theorem doubleFrees_le_myfree : h.doubleFrees ≤ (myfree h p).doubleFrees := by
  unfold myfree
  split
  · exact Nat.le_refl _
  · split
    · exact Nat.le_refl _
    · exact Nat.le_succ _

/-- What is live after the pointers of a list have been freed. -/
theorem foldl_myfree_live (ps : List (Option ℕ)) (h : Heap) (b : ℕ) :
    (ps.foldl myfree h).Live b ↔ h.Live b ∧ b ∉ ps.reduceOption := by
  induction ps generalizing h with
  | nil => simp
  | cons p ps ih =>
      rw [List.foldl_cons, ih, myfree_live]
      cases p with
      | none => simp
      | some a => simp [and_assoc, eq_comm]

/-- Not by several calls either. -/
theorem doubleFrees_le_foldl_myfree (ps : List (Option ℕ)) (h : Heap) :
    h.doubleFrees ≤ (ps.foldl myfree h).doubleFrees := by
  induction ps generalizing h with
  | nil => exact Nat.le_refl _
  | cons p ps ih => exact Nat.le_trans doubleFrees_le_myfree (ih _)

/-- The pointers of a list are freed without a double free exactly when they refer to live blocks,
each to another one. -/
theorem foldl_myfree_doubleFrees (ps : List (Option ℕ)) (h : Heap) :
    (ps.foldl myfree h).doubleFrees = h.doubleFrees ↔
      (∀ b ∈ ps.reduceOption, h.Live b) ∧ ps.reduceOption.Nodup := by
  induction ps generalizing h with
  | nil => simp
  | cons p ps ih =>
      have hhead := doubleFrees_le_myfree (h := h) (p := p)
      have htail := doubleFrees_le_foldl_myfree ps (myfree h p)
      have hsplit : ((p :: ps).foldl myfree h).doubleFrees = h.doubleFrees ↔
          (myfree h p).doubleFrees = h.doubleFrees ∧
            (ps.foldl myfree (myfree h p)).doubleFrees = (myfree h p).doubleFrees := by
        rw [List.foldl_cons]
        omega
      rw [hsplit, ih, myfree_doubleFrees]
      cases p with
      | none => simp [myfree]
      | some a =>
          simp only [Option.some.injEq, forall_eq', myfree_live, ne_eq, List.reduceOption_cons_of_some,
            List.mem_cons, forall_eq_or_imp, List.nodup_cons]
          constructor
          · rintro ⟨ha, hlive, hnodup⟩
            exact ⟨⟨ha, fun b hb => (hlive b hb).1⟩, fun hmem => (hlive a hmem).2 rfl, hnodup⟩
          · rintro ⟨⟨ha, hlive⟩, hnew, hnodup⟩
            exact ⟨ha, fun b hb => ⟨hlive b hb, fun hab => hnew (hab ▸ hb)⟩, hnodup⟩

end Heap

/-! ## One call -/

/-- The live blocks are those of the list, each once. -/
structure Holds (h : Heap) (ps : List (Option ℕ)) : Prop where
  nodup : ps.reduceOption.Nodup
  live : ∀ b, h.Live b ↔ b ∈ ps.reduceOption

/-- An answer of `mymalloc` joins the blocks that are held. -/
theorem Holds.mymalloc {h h' : Heap} {ps : List (Option ℕ)} {size : ℕ} {r p : Option ℕ}
    (hps : Holds h ps) (hm : mymalloc h size r = some (h', p)) : Holds h' (ps ++ [r]) := by
  obtain ⟨-, -, hfresh, hlive⟩ := mymalloc_spec hm
  constructor
  · rw [List.reduceOption_append, List.nodup_append']
    refine ⟨hps.nodup, by cases r <;> simp, fun b hb hbr => ?_⟩
    have hr : r = some b := by cases r <;> simp_all
    exact hfresh b hr ((hps.live b).mpr hb)
  · intro b
    rw [hlive, hps.live, List.reduceOption_append, List.mem_append]
    cases r <;> simp [eq_comm]

/-- `ETH_Mem_Free` frees the four pointers, one after the other. -/
theorem ethMemFree_heap (s : Driver) : (ethMemFree s).heap = s.ptr.toList.foldl myfree s.heap := rfl

/-- It does not clear them. -/
@[simp] theorem ethMemFree_ptr (s : Driver) : (ethMemFree s).ptr = s.ptr := rfl

/-- Freeing the blocks that are held frees each of them once, and none is left. -/
theorem Holds.ethMemFree {s : Driver} (hs : Holds s.heap s.ptr.toList) :
    (∀ b, ¬(ethMemFree s).heap.Live b) ∧ (ethMemFree s).heap.doubleFrees = s.heap.doubleFrees := by
  constructor
  · intro b
    rw [ethMemFree_heap, foldl_myfree_live, hs.live]
    exact fun hb => hb.2 hb.1
  · rw [ethMemFree_heap, foldl_myfree_doubleFrees]
    exact ⟨fun b hb => (hs.live b).mpr hb, hs.nodup⟩

variable {c : Config} {s t : Driver} {r : Pointers} {ret : ℕ}

/-- A state in which no block is live has no block to lose. -/
def Idle (s : Driver) : Prop := ∀ b, ¬s.heap.Live b

/-- Between a failure and the next call nothing can be used. -/
theorem Idle.not_allLive (hs : Idle s) : ¬s.AllLive := by
  intro hall
  obtain ⟨b, -, hb⟩ := hall s.ptr.dmaRxDscrTab List.mem_cons_self
  exact hs b hb

/-- A pointer dangles when it is not `NULL`. -/
theorem Idle.dangling_iff (hs : Idle s) : s.Dangling ↔ ∃ p ∈ s.ptr.toList, p ≠ none := by
  constructor
  · rintro ⟨b, hb, -⟩
    exact ⟨some b, List.reduceOption_mem_iff.mp hb, by simp⟩
  · rintro ⟨p, hp, hne⟩
    obtain ⟨b, rfl⟩ := Option.ne_none_iff_exists'.mp hne
    exact ⟨b, List.reduceOption_mem_iff.mpr hp, hs b⟩

/-- The driver can be used when no pointer is `NULL`. -/
theorem Holds.allLive_iff (hs : Holds s.heap s.ptr.toList) :
    s.AllLive ↔ ∀ p ∈ s.ptr.toList, p ≠ none := by
  refine forall₂_congr fun p hp => ?_
  cases p with
  | none => simp
  | some b => simpa [hs.live, List.reduceOption_mem_iff] using hp

/-- `ETH_Mem_Malloc` without a live block either holds the four blocks it was given and returns `0`,
or was not given all of them, freed those it got and returns `1`. -/
theorem ethMemMalloc_spec (hidle : Idle s) (hm : ethMemMalloc c s r = some (t, ret)) :
    t.ptr = r ∧ t.heap.doubleFrees = s.heap.doubleFrees ∧
      ((∀ p ∈ r.toList, p ≠ none) ∧ Holds t.heap t.ptr.toList ∧ ret = 0 ∨
        ¬(∀ p ∈ r.toList, p ≠ none) ∧ Idle t ∧ ret = 1) := by
  simp only [ethMemMalloc, Option.bind_eq_bind, Option.bind_eq_some_iff, Prod.exists] at hm
  obtain ⟨h₁, p₁, hm₁, h₂, p₂, hm₂, h₃, p₃, hm₃, h₄, p₄, hm₄, hm⟩ := hm
  have hnone : Holds s.heap [] := ⟨List.nodup_nil, fun b => by simpa using hidle b⟩
  have hheld : Holds h₄ r.toList := (((hnone.mymalloc hm₁).mymalloc hm₂).mymalloc hm₃).mymalloc hm₄
  obtain ⟨rfl, hd₁, -, -⟩ := mymalloc_spec hm₁
  obtain ⟨rfl, hd₂, -, -⟩ := mymalloc_spec hm₂
  obtain ⟨rfl, hd₃, -, -⟩ := mymalloc_spec hm₃
  obtain ⟨rfl, hd₄, -, -⟩ := mymalloc_spec hm₄
  have hdouble : h₄.doubleFrees = s.heap.doubleFrees := by rw [hd₄, hd₃, hd₂, hd₁]
  split at hm
  · rename_i hmissing
    obtain ⟨rfl, rfl⟩ := Prod.mk.inj (Option.some.inj hm)
    have hfree := Holds.ethMemFree (s := ⟨r, h₄⟩) hheld
    refine ⟨rfl, hfree.2.trans hdouble, Or.inr ⟨fun hall => ?_, hfree.1, rfl⟩⟩
    simp only [Pointers.toList, List.forall_mem_cons, List.not_mem_nil, false_implies,
      implies_true, and_true] at hall
    simp [hall] at hmissing
  · rename_i hmissing
    obtain ⟨rfl, rfl⟩ := Prod.mk.inj (Option.some.inj hm)
    refine ⟨rfl, hdouble, Or.inl ⟨?_, hheld, rfl⟩⟩
    simpa [Pointers.toList, and_assoc] using hmissing

/-- What holds between two calls: no block is live, or the four blocks are. -/
def Inv (s : Driver) : Prop :=
  Idle s ∨ Holds s.heap s.ptr.toList ∧ s.AllLive

/-- Every live block has a pointer to it. -/
theorem Inv.noLeak (hs : Inv s) : ∀ b, s.heap.Live b → b ∈ s.ptr.blocks := by
  intro b hb
  rcases hs with hidle | ⟨hheld, -⟩
  · exact absurd hb (hidle b)
  · exact (hheld.live b).mp hb

/-- **The step lemma.** Each call keeps the invariant and returns `0` exactly with the four blocks;
`FreeInTurn` says when it frees no block twice and `AllOrNothing` when it leaves no pointer to a freed
block behind. -/
theorem call_spec {e : Event} {ret : Option ℕ} (hs : Inv s) (hallowed : Allowed s e)
    (hcall : call c s e = some (t, ret)) :
    Inv t ∧ (∀ v, ret = some v → (v = 0 ↔ t.AllLive)) ∧
      (t.heap.doubleFrees = s.heap.doubleFrees ↔ FreeInTurn s e) ∧
      ((ret ≠ some 0 → ¬t.Dangling) ↔ AllOrNothing s e) := by
  cases e with
  | malloc r =>
      obtain ⟨⟨t', v⟩, hm, heq⟩ := Option.map_eq_some_iff.mp hcall
      obtain ⟨rfl, rfl⟩ := Prod.mk.inj heq
      have hidle : Idle s := hs.resolve_right fun h => hallowed h.2
      obtain ⟨hptr, hdouble, ⟨hall, hheld, rfl⟩ | ⟨hmissing, hidle', rfl⟩⟩ := ethMemMalloc_spec hidle hm
      · have hlive : t'.AllLive := hheld.allLive_iff.mpr (by rw [hptr]; exact hall)
        refine ⟨Or.inr ⟨hheld, hlive⟩, ?_, iff_of_true hdouble trivial, ?_⟩
        · rintro v ⟨⟩
          exact iff_of_true rfl hlive
        · exact iff_of_true (fun h => absurd rfl h) (Or.inl hall)
      · refine ⟨Or.inl hidle', ?_, iff_of_true hdouble trivial, ?_⟩
        · rintro v ⟨⟩
          exact iff_of_false (by simp) hidle'.not_allLive
        · -- the failed call left its answers in the pointers
          rw [hidle'.dangling_iff, hptr]
          simp [AllOrNothing, hmissing]
  | free =>
      obtain ⟨rfl, rfl⟩ := Prod.mk.inj (Option.some.inj hcall)
      simp only [AllOrNothing, FreeInTurn, ne_eq, reduceCtorEq, not_false_eq_true, forall_const,
        false_implies, true_and]
      rcases hs with hidle | ⟨hheld, hall⟩
      · have hidle' : Idle (ethMemFree s) := fun b => by
          rw [ethMemFree_heap, foldl_myfree_live]
          exact fun hb => hidle b hb.1
        refine ⟨Or.inl hidle', ?_, ?_⟩
        · -- nothing is live, so every pointer that is not `NULL` is freed once too often
          rw [ethMemFree_heap, foldl_myfree_doubleFrees]
          have hnone : (∀ b ∈ s.ptr.toList.reduceOption, s.heap.Live b) ↔ ∀ p ∈ s.ptr.toList, p = none := by
            constructor
            · intro h p hp
              by_contra hne
              obtain ⟨b, rfl⟩ := Option.ne_none_iff_exists'.mp hne
              exact hidle b (h b (List.reduceOption_mem_iff.mpr hp))
            · intro h b hb
              exact absurd (h _ (List.reduceOption_mem_iff.mp hb)) (by simp)
          rw [hnone, or_iff_right hidle.not_allLive]
          refine and_iff_left_of_imp fun h => ?_
          have hnil : s.ptr.toList.reduceOption = [] := List.eq_nil_iff_forall_not_mem.mpr
            fun b hb => absurd (h _ (List.reduceOption_mem_iff.mp hb)) (by simp)
          rw [hnil]
          exact List.nodup_nil
        · rw [hidle'.dangling_iff]
          simp
      · obtain ⟨hidle', hdouble⟩ := hheld.ethMemFree
        refine ⟨Or.inl hidle', iff_of_true hdouble (Or.inl hall), ?_⟩
        rw [show (ethMemFree s).Dangling ↔ _ from Idle.dangling_iff hidle']
        simp

/-! ## Whole runs -/

/-- Before the first call there is nothing. -/
theorem inv_start : Inv start := Or.inl fun _ hb => by simp [start, Heap.Live] at hb

/-- Whatever is asked of the outcome of each call, it is asked of the one outcome there is. -/
theorem forall_call_iff {P : Driver → Option ℕ → Prop} {e : Event} {ret : Option ℕ}
    (hcall : call c s e = some (t, ret)) :
    (∀ t' ret', call c s e = some (t', ret') → P t' ret') ↔ P t ret := by
  simp [hcall]

/-- A run whose calls are allowed keeps the invariant, and what is asked of its calls is what each
single call needs. -/
theorem runMeets_call_iff {Q G : Driver → Event → Prop} {es : List Event} {s' : Driver}
    (hQ : ∀ s e t ret, Inv s → Allowed s e → call c s e = some (t, ret) → (Q s e ↔ G s e))
    (hrun : run (step c) start es = some s') (hallowed : RunMeets (step c) Allowed start es) :
    RunMeets (step c) Q start es ↔ RunMeets (step c) G start es := by
  refine runMeets_congr_of_run (I := Inv) ?_ inv_start hallowed hrun
  intro s e t hs he hstep
  obtain ⟨⟨t', ret⟩, hcall, rfl⟩ := Option.map_eq_some_iff.mp hstep
  exact ⟨hQ s e t' ret hs he hcall, fun _ => (call_spec hs he hcall).1⟩

/-- **When the driver's memory is in order.** In a run that does not repeat `ETH_Mem_Malloc` while its
four blocks are live, every call frees no block twice, loses no block, returns `0` exactly with four
live blocks and leaves no pointer to a freed block, if and only if `ETH_Mem_Malloc` always gets all
four blocks or none and `ETH_Mem_Free` is only called while the pointers are `NULL`. -/
theorem ethMem_meets_iff (c : Config) (es : List Event) (s' : Driver)
    (hrun : run (step c) start es = some s') (hallowed : RunMeets (step c) Allowed start es) :
    RunMeets (step c) (Meets c) start es ↔ RunMeets (step c) AllOrNothing start es := by
  refine runMeets_call_iff ?_ hrun hallowed
  intro s e t ret hs he hcall
  obtain ⟨hinv, hzero, honce, hdangling⟩ := call_spec hs he hcall
  rw [Meets, forall_call_iff hcall, ← hdangling]
  constructor
  · exact fun h => h.noDangling
  · intro h
    refine ⟨honce.mpr ?_, hinv.noLeak, hzero, h⟩
    -- with the pointers `NULL` there is nothing to free
    have hall := hdangling.mp h
    cases e with
    | malloc => trivial
    | free => exact Or.inr hall

/-- A first `ETH_Mem_Malloc` gets no block at all, its pointers are freed, and a second one gets all
four blocks: they are live at the end and every call was in order. -/
theorem ethMem_meets_retry : ∃ s', run (step ⟨5, 5, 1524, 1524, 32⟩) start
        [.malloc ⟨none, none, none, none⟩, .free, .malloc ⟨some 0, some 1, some 2, some 3⟩] = some s' ∧
      s'.ptr.blocks = [0, 1, 2, 3] ∧ s'.AllLive ∧
      RunMeets (step ⟨5, 5, 1524, 1524, 32⟩) (Meets ⟨5, 5, 1524, 1524, 32⟩) start
        [.malloc ⟨none, none, none, none⟩, .free, .malloc ⟨some 0, some 1, some 2, some 3⟩] := by
  have hnull : ∀ h, ¬Driver.AllLive ⟨⟨none, none, none, none⟩, h⟩ := by
    intro h hall
    obtain ⟨b, hb, -⟩ := hall none (by simp [Pointers.toList])
    cases hb
  have hallowed : RunMeets (step ⟨5, 5, 1524, 1524, 32⟩) Allowed start
      [.malloc ⟨none, none, none, none⟩, .free, .malloc ⟨some 0, some 1, some 2, some 3⟩] := by
    refine ⟨hnull _, fun t ht => ⟨trivial, fun t' ht' => ⟨?_, fun _ _ => trivial⟩⟩⟩
    obtain rfl := Option.some.inj ht
    obtain rfl := Option.some.inj ht'
    exact hnull _
  have hgets : RunMeets (step ⟨5, 5, 1524, 1524, 32⟩) AllOrNothing start
      [.malloc ⟨none, none, none, none⟩, .free, .malloc ⟨some 0, some 1, some 2, some 3⟩] := by
    refine ⟨Or.inr (by decide), fun t ht => ⟨?_, fun t' _ => ⟨Or.inl (by decide), fun _ _ => trivial⟩⟩⟩
    obtain rfl := Option.some.inj ht
    exact (by decide : ∀ p ∈ [none, none, none, none], p = (none : Option ℕ))
  refine ⟨_, rfl, rfl, ?_, (ethMem_meets_iff _ _ _ rfl hallowed).mpr hgets⟩
  intro p hp
  simp only [Pointers.toList, List.mem_cons, List.not_mem_nil, or_false] at hp
  rcases hp with rfl | rfl | rfl | rfl
  · exact ⟨0, rfl, rfl⟩
  · exact ⟨1, rfl, rfl⟩
  · exact ⟨2, rfl, rfl⟩
  · exact ⟨3, rfl, rfl⟩

/-- It is not in order in every run: after a successful allocation a second `ETH_Mem_Free` frees the
four blocks again. -/
theorem ethMem_not_meets :
    ¬ ∀ (c : Config) (es : List Event) (s' : Driver), run (step c) start es = some s' →
      RunMeets (step c) Allowed start es → RunMeets (step c) (Meets c) start es := by
  intro h
  have hmeets := h ⟨5, 5, 1524, 1524, 32⟩ [.malloc ⟨some 0, some 1, some 2, some 3⟩, .free, .free] _ rfl
    ⟨Idle.not_allLive fun _ hb => by simp [start, Heap.Live] at hb,
      fun _ _ => ⟨trivial, fun _ _ => ⟨trivial, fun _ _ => trivial⟩⟩⟩
  have hfree := (((hmeets.2 _ rfl).2 _ rfl).1 _ _ rfl).freesOnce
  exact absurd hfree (by decide)

/-- **When no block is freed twice.** `ETH_Mem_Free` frees blocks that are not live exactly when it is
called while the pointers still hold what an earlier call has freed. -/
theorem ethMem_freesOnce_iff (c : Config) (es : List Event) (s' : Driver)
    (hrun : run (step c) start es = some s') (hallowed : RunMeets (step c) Allowed start es) :
    RunMeets (step c) (FreesOnce c) start es ↔ RunMeets (step c) FreeInTurn start es := by
  refine runMeets_call_iff ?_ hrun hallowed
  intro s e t ret hs he hcall
  rw [FreesOnce, forall_call_iff hcall, (call_spec hs he hcall).2.2.1]

end BareMetal.Eth.DriverMem
