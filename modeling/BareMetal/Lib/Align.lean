import Mathlib.Data.Nat.Bitwise
import Mathlib.Algebra.Order.Ring.Nat
import Mathlib.Tactic.Ring

/-! # Rounding up to a power of two

`alignUp A x` is the C idiom `(x + A - 1) & ~(A - 1)`. The complement is spelled as a subtraction
(`y & ~m = y - (y & m)` on naturals), so the definition needs no word width. For `A = 2 ^ k` it is the
least multiple of `A` that is at least `x`. -/

namespace BareMetal

/-- `(x + A - 1) & ~(A - 1)`. -/
def alignUp (A x : ℕ) : ℕ := x + A - 1 - ((x + A - 1) &&& (A - 1))

/-- `A` is an alignment: a power of two. -/
def IsAlignment (A : ℕ) : Prop := ∃ k, A = 2 ^ k

variable {A : ℕ}

/-- Words. -/
theorem isAlignment_four : IsAlignment 4 := ⟨2, rfl⟩

/-- A power of two is positive. -/
theorem IsAlignment.pos (hA : IsAlignment A) : 0 < A := by
  obtain ⟨k, rfl⟩ := hA
  exact Nat.two_pow_pos k

/-- The masking form agrees with the arithmetic one. -/
theorem alignUp_eq (hA : IsAlignment A) (x : ℕ) :
    alignUp A x = x + A - 1 - (x + A - 1) % A := by
  obtain ⟨k, rfl⟩ := hA
  rw [alignUp, Nat.and_two_pow_sub_one_eq_mod]

/-- The result is aligned. -/
theorem dvd_alignUp (hA : IsAlignment A) (x : ℕ) : A ∣ alignUp A x := by
  rw [alignUp_eq hA]
  exact Nat.dvd_sub_mod _

/-- Aligning goes up. -/
theorem le_alignUp (hA : IsAlignment A) (x : ℕ) : x ≤ alignUp A x := by
  rw [alignUp_eq hA]
  have := Nat.mod_lt (x + A - 1) hA.pos
  omega

/-- By less than the alignment. -/
theorem alignUp_lt (hA : IsAlignment A) (x : ℕ) : alignUp A x < x + A := by
  rw [alignUp_eq hA]
  have := hA.pos
  omega

/-- A multiple of the alignment is its own rounding. -/
theorem alignUp_of_dvd (hA : IsAlignment A) {x : ℕ} (hx : A ∣ x) : alignUp A x = x := by
  have hlt := alignUp_lt hA x
  have hle := le_alignUp hA x
  obtain ⟨c, hc⟩ := (Nat.dvd_sub (dvd_alignUp hA x) hx)
  rcases Nat.eq_zero_or_pos c with rfl | hpos
  · omega
  · have : A ≤ A * c := Nat.le_mul_of_pos_right A hpos
    omega

/-- The rounding is the least multiple above. -/
theorem alignUp_le_of_dvd (hA : IsAlignment A) {x y : ℕ} (hxy : x ≤ y) (hy : A ∣ y) :
    alignUp A x ≤ y := by
  by_contra hlt
  have hlt' := alignUp_lt hA x
  obtain ⟨c, hc⟩ := Nat.dvd_sub (dvd_alignUp hA x) hy
  rcases Nat.eq_zero_or_pos c with rfl | hpos
  · omega
  · have : A ≤ A * c := Nat.le_mul_of_pos_right A hpos
    omega

/-- Aligning keeps the order. -/
theorem alignUp_mono (hA : IsAlignment A) {x y : ℕ} (hxy : x ≤ y) : alignUp A x ≤ alignUp A y :=
  alignUp_le_of_dvd hA (hxy.trans (le_alignUp hA y)) (dvd_alignUp hA y)

/-- Rounding starts at any multiple of the alignment. -/
theorem alignUp_add_of_dvd (hA : IsAlignment A) {y : ℕ} (hy : A ∣ y) (x : ℕ) : alignUp A (y + x) = y + alignUp A x := by
  apply Nat.le_antisymm
  · exact alignUp_le_of_dvd hA (Nat.add_le_add_left (le_alignUp hA x) y) (Nat.dvd_add hy (dvd_alignUp hA x))
  · have hle := le_alignUp hA (y + x)
    have hup : alignUp A x ≤ alignUp A (y + x) - y :=
      alignUp_le_of_dvd hA (by omega) (Nat.dvd_sub (dvd_alignUp hA (y + x)) hy)
    omega

/-- Two multiples of the alignment that differ, differ by at least the alignment. -/
theorem add_le_of_lt_of_dvd {x y : ℕ} (hx : A ∣ x) (hy : A ∣ y) (hxy : x < y) : x + A ≤ y := by
  obtain ⟨c, hc⟩ := Nat.dvd_sub hy hx
  rcases Nat.eq_zero_or_pos c with rfl | hpos
  · omega
  · have : A ≤ A * c := Nat.le_mul_of_pos_right A hpos
    omega

example : alignUp 4 590 = 592 := by decide

end BareMetal
