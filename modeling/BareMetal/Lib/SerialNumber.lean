import Mathlib.Data.List.Sort
import Mathlib.Order.RelClasses

/-! # Serial numbers

32-bit numbers that wrap around are compared through the sign of their difference. This is no order on all
of them, but it is one on every window of half the range: `seqOffset base a` is the place of `a` behind
`base`, and `half_le_sub_iff` says that the sign compares the places. The other way round, `seqNo base i` is the
number of the place `i`. `pairwise_place` is the insertion into a sorted list, in the form in which a scan for
the first later element leaves it. -/

namespace BareMetal

/-- How far `a` comes behind `base`. -/
def seqOffset (base a : UInt32) : ℕ := (a - base).toNat

/-- `a` lies in the half of the range that starts at `base`. -/
def InHalf (base a : UInt32) : Prop := seqOffset base a < 0x80000000

variable {base a b : UInt32}

/-- In one half of the range, the sign of the difference compares the offsets. -/
theorem half_le_sub_iff (ha : InHalf base a) (hb : InHalf base b) :
    (0x80000000 : UInt32) ≤ a - b ↔ seqOffset base a < seqOffset base b := by
  unfold InHalf seqOffset at ha hb
  unfold seqOffset
  have hhalf : (0x80000000 : UInt32).toNat = 0x80000000 := rfl
  rw [UInt32.toNat_sub] at ha hb
  rw [UInt32.le_iff_toNat_le, UInt32.toNat_sub, UInt32.toNat_sub, UInt32.toNat_sub, hhalf]
  have := a.toNat_lt
  have := b.toNat_lt
  have := base.toNat_lt
  omega

/-! ## Places counted from a base -/

section Count

variable {i j : ℕ}

/-- The number of the place `i`. -/
def seqNo (base : UInt32) (i : ℕ) : UInt32 := base + UInt32.ofNat i

/-- Sequence numbers go round at 2^32. -/
theorem toNat_seqNo (base : UInt32) (i : ℕ) : (seqNo base i).toNat = (base.toNat + i) % 0x100000000 := by
  rw [seqNo, UInt32.toNat_add, UInt32.toNat_ofNat']
  omega

/-- Adding goes on along the sequence. -/
theorem seqNo_add_ofNat (base : UInt32) (i j : ℕ) : seqNo base i + UInt32.ofNat j = seqNo base (i + j) := by
  rw [seqNo, seqNo, UInt32.ofNat_add, UInt32.add_assoc]

/-- The distance of two numbers. -/
theorem seqNo_sub (h : j ≤ i) : seqNo base i - seqNo base j = UInt32.ofNat (i - j) := by
  obtain ⟨d, rfl⟩ := Nat.exists_eq_add_of_le h
  rw [← seqNo_add_ofNat, UInt32.add_comm, UInt32.add_sub_cancel, Nat.add_sub_cancel_left]

/-- The sign of the difference compares places that are less than half the range apart. -/
theorem half_le_seqNo_sub_iff (h : i < j + 0x80000000) (h' : j < i + 0x80000000) :
    (0x80000000 : UInt32) ≤ seqNo base i - seqNo base j ↔ i < j := by
  have hhalf : (0x80000000 : UInt32).toNat = 0x80000000 := rfl
  have hbase := base.toNat_lt
  rw [UInt32.le_iff_toNat_le, UInt32.toNat_sub, toNat_seqNo, toNat_seqNo, hhalf]
  omega

/-- Numbers that are less than 2^32 apart are told apart. -/
theorem seqNo_inj (h : i < j + 0x100000000) (h' : j < i + 0x100000000) : seqNo base i = seqNo base j ↔ i = j := by
  have hbase := base.toNat_lt
  rw [← UInt32.toNat_inj, toNat_seqNo, toNat_seqNo]
  omega

end Count

section Place

variable {α : Type*} {key : α → ℕ} {x : α} {l : List α}

/-- Put `x` behind the leading elements with `p`. -/
def place (p : α → Bool) (x : α) (l : List α) : List α := l.takeWhile p ++ x :: l.dropWhile p

/-- Placing an element loses none. -/
theorem perm_place (p : α → Bool) (x : α) (l : List α) : (place p x l).Perm (l ++ [x]) := by
  unfold place
  refine List.perm_middle.trans ?_
  rw [List.takeWhile_append_dropWhile]
  exact (List.perm_append_singleton x l).symm

/-- Where `p` compares keys with that of `x`, this is the insertion into a list sorted by key. -/
theorem place_eq_orderedInsert {p : α → Bool} (hp : ∀ y ∈ l, p y = decide (key y < key x)) :
    place p x l = l.orderedInsert (Order.Preimage key (· ≤ ·)) x := by
  induction l with
  | nil => rfl
  | cons y l ih =>
      have hy := hp y List.mem_cons_self
      have ih := ih fun z hz => hp z (List.mem_cons_of_mem y hz)
      unfold place at ih ⊢
      by_cases hle : key x ≤ key y
      · have hnot : ¬p y = true := by simp [hy, hle]
        rw [List.takeWhile_cons_of_neg hnot, List.dropWhile_cons_of_neg hnot,
          List.orderedInsert_cons_of_le _ l hle, List.nil_append]
      · have hlt : p y = true := by simp [hy, Nat.lt_of_not_le hle]
        rw [List.takeWhile_cons_of_pos hlt, List.dropWhile_cons_of_pos hlt,
          List.orderedInsert_of_not_le _ l hle, List.cons_append, ih]

/-- The place in a sorted list keeps it sorted. -/
theorem pairwise_place {p : α → Bool} (hp : ∀ y ∈ l, p y = decide (key y < key x))
    (h : l.Pairwise fun y z => key y ≤ key z) : (place p x l).Pairwise fun y z => key y ≤ key z := by
  rw [place_eq_orderedInsert hp]
  exact List.Pairwise.orderedInsert (r := Order.Preimage key (· ≤ ·)) x l h

/-- Behind a last element without `p` nothing is put. -/
theorem getLastD_place {p : α → Bool} {d z : α} (hlast : l.getLast? = some z) (hz : p z = false) :
    (place p x l).getLastD d = z := by
  unfold place
  obtain ⟨l, rfl⟩ := List.getLast?_eq_some_iff.mp hlast
  have hdrop : ∃ l', (l ++ [z]).dropWhile p = l' ++ [z] := by
    rw [List.dropWhile_append]
    split
    · exact ⟨[], by simp [hz]⟩
    · exact ⟨_, rfl⟩
  obtain ⟨l', hdrop⟩ := hdrop
  rw [hdrop, ← List.cons_append, ← List.append_assoc, List.getLastD_concat]

end Place

end BareMetal
