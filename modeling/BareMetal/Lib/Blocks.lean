import Mathlib.Data.List.Chain
import Mathlib.Algebra.BigOperators.Ring.List
import Mathlib.Algebra.Order.Ring.Nat
import Mathlib.Tactic.Ring

/-! # Tilings by blocks

A heap that is cut into consecutive blocks is a list of lengths with a mark for the blocks in use. The
address of a block is the sum of the lengths before it. What the operations of an allocator do to such
a tiling is always the same: a few neighbouring blocks are replaced by others of the same total length.
The lemmas say what that does to the blocks elsewhere (`BlockAt`), to the lowest free block
(`firstFree`), and to the rule that no two neighbours are both free (`Coalesced`). -/

namespace BareMetal

/-- A block of a tiling. -/
structure Blk where
  len : ℕ
  used : Bool
  deriving DecidableEq, Repr

/-- The length of a tiling. -/
def total (bs : List Blk) : ℕ := (bs.map Blk.len).sum

/-- Block `b` starts at `p` in the tiling `bs` that starts at `ptr`. -/
def BlockAt : ℕ → List Blk → ℕ → Blk → Prop
  | _, [], _, _ => False
  | ptr, a :: bs, p, b => p = ptr ∧ b = a ∨ BlockAt (ptr + a.len) bs p b

/-- The address of the lowest free block, and the end of the tiling if there is none. -/
def firstFree : ℕ → List Blk → ℕ
  | ptr, [] => ptr
  | ptr, b :: bs => if b.used then firstFree (ptr + b.len) bs else ptr

/-- No two neighbouring blocks are both free. -/
def Coalesced (bs : List Blk) : Prop := bs.IsChain fun a b => a.used = true ∨ b.used = true

/-- Every block is at least `k` long. -/
def MinLen (k : ℕ) (bs : List Blk) : Prop := ∀ b ∈ bs, k ≤ b.len

variable {ptr p p' k : ℕ} {a b b' : Blk} {bs l m m' r : List Blk}

/-- No blocks, no length. -/
@[simp] theorem total_nil : total [] = 0 := rfl

/-- The first block and the others. -/
@[simp] theorem total_cons (b : Blk) (bs : List Blk) : total (b :: bs) = b.len + total bs := by
  rw [total, List.map_cons, List.sum_cons, total]

/-- Lengths add up. -/
@[simp] theorem total_append (l r : List Blk) : total (l ++ r) = total l + total r := by
  rw [total, List.map_append, List.sum_append, total, total]

/-- There is no block that could be too short. -/
@[simp] theorem minLen_nil : MinLen k [] := fun _ h => absurd h List.not_mem_nil

/-- The first block and the others. -/
@[simp] theorem minLen_cons : MinLen k (b :: bs) ↔ k ≤ b.len ∧ MinLen k bs := List.forall_mem_cons

/-- Both parts. -/
@[simp] theorem minLen_append : MinLen k (l ++ r) ↔ MinLen k l ∧ MinLen k r := List.forall_mem_append

/-- What divides every length divides the sum. -/
theorem dvd_total (h : ∀ b ∈ bs, k ∣ b.len) : k ∣ total bs := by
  apply List.dvd_sum
  intro x hx
  obtain ⟨b, hb, rfl⟩ := List.mem_map.mp hx
  exact h b hb

/-! ## Blocks and their addresses -/

/-- A block is the first, or one of the tiling behind it. -/
@[simp] theorem blockAt_cons : BlockAt ptr (a :: bs) p b ↔ p = ptr ∧ b = a ∨ BlockAt (ptr + a.len) bs p b :=
  Iff.rfl

/-- A block of two tilings, one behind the other. -/
theorem blockAt_append : BlockAt ptr (l ++ r) p b ↔ BlockAt ptr l p b ∨ BlockAt (ptr + total l) r p b := by
  induction l generalizing ptr with
  | nil => simp [BlockAt]
  | cons a l ih => rw [List.cons_append, blockAt_cons, blockAt_cons, ih, total_cons, or_assoc, Nat.add_assoc]

/-- The block in the middle of a tiling. -/
theorem blockAt_mid (ptr : ℕ) (l r : List Blk) (b : Blk) : BlockAt ptr (l ++ b :: r) (ptr + total l) b :=
  blockAt_append.mpr (Or.inr (Or.inl ⟨rfl, rfl⟩))

/-- A block of a tiling splits it. -/
theorem BlockAt.exists_split (h : BlockAt ptr bs p b) : ∃ l r, bs = l ++ b :: r ∧ p = ptr + total l := by
  induction bs generalizing ptr with
  | nil => exact h.elim
  | cons a bs ih =>
      rcases h with ⟨rfl, rfl⟩ | h
      · exact ⟨[], bs, rfl, rfl⟩
      · obtain ⟨l, r, rfl, rfl⟩ := ih h
        exact ⟨a :: l, r, rfl, by rw [total_cons, Nat.add_assoc]⟩

/-- A block at an offset is one of the tiling. -/
theorem BlockAt.mem (h : BlockAt ptr bs p b) : b ∈ bs := by
  obtain ⟨l, r, rfl, -⟩ := h.exists_split
  exact List.mem_append_right l List.mem_cons_self

/-- A block lies inside its tiling. -/
theorem BlockAt.bounds (h : BlockAt ptr bs p b) : ptr ≤ p ∧ p + b.len ≤ ptr + total bs := by
  obtain ⟨l, r, rfl, rfl⟩ := h.exists_split
  rw [total_append, total_cons]
  omega

/-- Two blocks at different addresses do not overlap. -/
theorem BlockAt.disjoint (h : BlockAt ptr bs p b) (h' : BlockAt ptr bs p' b') (hne : p ≠ p') :
    p + b.len ≤ p' ∨ p' + b'.len ≤ p := by
  induction bs generalizing ptr with
  | nil => exact h.elim
  | cons a bs ih =>
      rcases h with ⟨rfl, rfl⟩ | h
      · rcases h' with ⟨rfl, -⟩ | h'
        · exact absurd rfl hne
        · exact Or.inl h'.bounds.1
      · rcases h' with ⟨rfl, rfl⟩ | h'
        · exact Or.inr h.bounds.1
        · exact ih h h'

/-- Different blocks have different addresses. -/
theorem BlockAt.unique (hk : 0 < k) (hmin : MinLen k bs) (h : BlockAt ptr bs p b)
    (h' : BlockAt ptr bs p b') : b = b' := by
  induction bs generalizing ptr with
  | nil => exact h.elim
  | cons a bs ih =>
      obtain ⟨hlen, hmin⟩ := minLen_cons.mp hmin
      rcases h with ⟨rfl, rfl⟩ | h
      · rcases h' with ⟨-, rfl⟩ | h'
        · rfl
        · have := h'.bounds
          omega
      · rcases h' with ⟨rfl, rfl⟩ | h'
        · have := h.bounds
          omega
        · exact ih hmin h h'

/-- **Replacement.** When the blocks in the middle are replaced by others of the same total length, the
blocks on both sides stay where they are. -/
theorem BlockAt.replace (htotal : total m = total m') (h : BlockAt ptr (l ++ m ++ r) p b) :
    BlockAt (ptr + total l) m p b ∨ BlockAt ptr (l ++ m' ++ r) p b := by
  rw [blockAt_append, blockAt_append] at h ⊢
  rw [total_append, ← htotal, ← total_append]
  tauto

/-! ## The lowest free block -/

/-- The first free block is in the left part, unless all of that is in use. -/
theorem firstFree_append : firstFree ptr (l ++ r) =
    if l.all Blk.used then firstFree (ptr + total l) r else firstFree ptr l := by
  induction l generalizing ptr with
  | nil => rfl
  | cons a l ih =>
      cases ha : a.used with
      | false => simp [firstFree, ha]
      | true =>
          simp only [List.cons_append, firstFree, ha, if_true, ih, List.all_cons, Bool.true_and,
            total_cons, Nat.add_assoc]

/-- With a free block in the middle, what comes behind it does not matter. -/
theorem firstFree_mid (hb : b.used = false) : firstFree ptr (l ++ b :: r) =
    if l.all Blk.used then ptr + total l else firstFree ptr l := by
  rw [firstFree_append, firstFree, hb]
  rfl

/-- The search starts at the left end. -/
theorem le_firstFree (ptr : ℕ) (bs : List Blk) : ptr ≤ firstFree ptr bs := by
  induction bs generalizing ptr with
  | nil => exact le_rfl
  | cons b bs ih =>
      rw [firstFree]
      split
      · exact (Nat.le_add_right ptr b.len).trans (ih _)
      · exact le_rfl

/-- The search ends at the right end. -/
theorem firstFree_le_total (ptr : ℕ) (bs : List Blk) : firstFree ptr bs ≤ ptr + total bs := by
  induction bs generalizing ptr with
  | nil => exact le_rfl
  | cons b bs ih =>
      rw [firstFree, total_cons]
      split
      · exact (ih _).trans_eq (Nat.add_assoc _ _ _)
      · exact Nat.le_add_right _ _

/-- A free block starts strictly before the end. -/
theorem firstFree_lt (hk : 0 < k) (hmin : MinLen k bs) (h : bs.all Blk.used = false) :
    firstFree ptr bs < ptr + total bs := by
  induction bs generalizing ptr with
  | nil => cases h
  | cons b bs ih =>
      obtain ⟨hlen, hmin⟩ := minLen_cons.mp hmin
      rw [firstFree, total_cons]
      split
      · next hb =>
          rw [List.all_cons, hb, Bool.true_and] at h
          exact (ih hmin h).trans_eq (Nat.add_assoc _ _ _)
      · omega

/-- The blocks below the lowest free one are in use. -/
theorem exists_split_firstFree (ptr : ℕ) (bs : List Blk) :
    ∃ l r, bs = l ++ r ∧ firstFree ptr bs = ptr + total l ∧ l.all Blk.used = true := by
  induction bs generalizing ptr with
  | nil => exact ⟨[], [], rfl, rfl, rfl⟩
  | cons b bs ih =>
      rw [firstFree]
      split
      · next hb =>
          obtain ⟨l, r, rfl, hfirst, hall⟩ := ih (ptr + b.len)
          refine ⟨b :: l, r, rfl, ?_, ?_⟩
          · rw [hfirst, total_cons, Nat.add_assoc]
          · rw [List.all_cons, hb, hall, Bool.and_true]
      · exact ⟨[], b :: bs, rfl, rfl, rfl⟩

/-- Freeing a block lowers the lowest free address to it, if it was not lower already. -/
theorem firstFree_free (hk : 0 < k) (hmin : MinLen k l) (n : ℕ) : firstFree ptr (l ++ ⟨n, false⟩ :: r) =
    if ptr + total l < firstFree ptr (l ++ ⟨n, true⟩ :: r) then ptr + total l
    else firstFree ptr (l ++ ⟨n, true⟩ :: r) := by
  rw [firstFree_mid rfl, firstFree_append]
  cases hall : l.all Blk.used with
  | true =>
      have hle := le_firstFree (ptr + total l) (⟨n, true⟩ :: r)
      simp only [if_true]
      split <;> omega
  | false =>
      have hlt : firstFree ptr l < ptr + total l := firstFree_lt hk hmin hall
      simp only [Bool.false_eq_true, if_false]
      rw [if_neg (by omega)]

/-! ## Neighbours -/

/-- The first block, and what it may have behind it. -/
theorem coalesced_cons : Coalesced (b :: bs) ↔
    (b.used = true ∨ ∀ a ∈ bs.head?, a.used = true) ∧ Coalesced bs := by
  rw [Coalesced, List.isChain_cons]
  refine and_congr_left fun _ => ?_
  cases b.used <;> simp

/-- A part of a coalesced tiling is coalesced. -/
theorem Coalesced.left (h : Coalesced (l ++ r)) : Coalesced l := List.IsChain.left_of_append h

/-- A part of a coalesced tiling is coalesced. -/
theorem Coalesced.right (h : Coalesced (l ++ r)) : Coalesced r := List.IsChain.right_of_append h

/-- Two parts, and the two blocks where they meet. -/
theorem coalesced_append : Coalesced (l ++ r) ↔ Coalesced l ∧ Coalesced r ∧
    ∀ a ∈ l.getLast?, ∀ b ∈ r.head?, a.used = true ∨ b.used = true :=
  List.isChain_append

/-- Where a tiling may be cut and a used block put in. -/
theorem coalesced_mid_used (hb : b.used = true) : Coalesced (l ++ b :: r) ↔ Coalesced l ∧ Coalesced r := by
  rw [coalesced_append, coalesced_cons]
  constructor
  · rintro ⟨hl, ⟨-, hr⟩, -⟩
    exact ⟨hl, hr⟩
  · rintro ⟨hl, hr⟩
    refine ⟨hl, ⟨Or.inl hb, hr⟩, fun a _ b' hb' => Or.inr ?_⟩
    obtain rfl := Option.some.inj hb'
    exact hb

/-- Where a free block may be put in: between used neighbours. -/
theorem coalesced_mid_free (hb : b.used = false) : Coalesced (l ++ b :: r) ↔ Coalesced l ∧ Coalesced r ∧
    (∀ a ∈ l.getLast?, a.used = true) ∧ ∀ a ∈ r.head?, a.used = true := by
  rw [coalesced_append, coalesced_cons, hb]
  simp only [Bool.false_eq_true, false_or, List.head?_cons, Option.mem_def, Option.some.injEq,
    forall_eq', hb, or_false]
  tauto

end BareMetal
