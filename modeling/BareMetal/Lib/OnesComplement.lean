import Mathlib.Data.Nat.ModEq
import Mathlib.Tactic.Ring

/-! # Sums in ones' complement

Sums of 16-bit words with end-around carry. `wordSum l` is the sum of the big-endian words of the bytes `l`, and
`fold` adds the carries of a sum back once. A folded sum is the sum modulo 2^16 - 1 (`fold_modEq`), so the order
of the bytes in the words does not matter for the question whether the sum is zero in ones' complement
(`dvd_leWordSum_iff`). What folding leaves is one number for each sum, `onesSum`, and the sum of two parts of the data is the sum
of what the parts leave (`onesSum_add`). -/

namespace BareMetal

/-- The sum of the big-endian 16-bit words of the bytes, the last one filled up with 0. -/
def wordSum : List UInt8 → ℕ
  | [] => 0
  | [a] => 256 * a.toNat
  | a :: b :: l => 256 * a.toNat + b.toNat + wordSum l

/-- The sum of the little-endian 16-bit words of the bytes, the last one filled up with 0. -/
def leWordSum : List UInt8 → ℕ
  | [] => 0
  | [a] => a.toNat
  | a :: b :: l => a.toNat + 256 * b.toNat + leWordSum l

/-- `(u >> 16) + (u & 0xffff)`. -/
def fold (u : ℕ) : ℕ := u / 2 ^ 16 + u % 2 ^ 16

/-- Folding keeps the residue. -/
theorem fold_modEq (u : ℕ) : fold u ≡ u [MOD 2 ^ 16 - 1] := by
  rw [fold, Nat.ModEq]
  omega

/-- Folding makes nothing 0. -/
theorem fold_eq_zero_iff {u : ℕ} : fold u = 0 ↔ u = 0 := by
  rw [fold]
  omega

/-- Two folds of a 32-bit sum leave 16 bits. -/
theorem fold_fold_lt {u : ℕ} (hu : u < 2 ^ 32) : fold (fold u) < 2 ^ 16 := by
  rw [fold, fold]
  omega

/-- All bits of a folded sum are set exactly when the sum is zero modulo 2^16 - 1 and not zero. -/
theorem fold_fold_eq_ones_iff {u : ℕ} (hu : u < 2 ^ 32) :
    fold (fold u) = 2 ^ 16 - 1 ↔ u ≠ 0 ∧ 2 ^ 16 - 1 ∣ u := by
  have hlt := fold_fold_lt hu
  have hmod : fold (fold u) ≡ u [MOD 2 ^ 16 - 1] := (fold_modEq _).trans (fold_modEq u)
  have hzero : fold (fold u) = 0 ↔ u = 0 := fold_eq_zero_iff.trans fold_eq_zero_iff
  rw [Nat.ModEq] at hmod
  omega

/-- The two byte orders differ by the factor 256, which is its own inverse. -/
theorem wordSum_modEq (l : List UInt8) : 256 * leWordSum l ≡ wordSum l [MOD 2 ^ 16 - 1] := by
  induction l using wordSum.induct with
  | case1 => rfl
  | case2 a => rfl
  | case3 a b l ih =>
      have hword : 256 * (a.toNat + 256 * b.toNat) ≡ 256 * a.toNat + b.toNat [MOD 2 ^ 16 - 1] := by
        rw [Nat.ModEq]
        omega
      rw [leWordSum, wordSum, Nat.mul_add]
      exact hword.add ih

/-- A multiple of 2^16 - 1 is one in both orders of the bytes. -/
theorem dvd_leWordSum_iff (l : List UInt8) : 2 ^ 16 - 1 ∣ leWordSum l ↔ 2 ^ 16 - 1 ∣ wordSum l := by
  have hmod := wordSum_modEq l
  rw [Nat.ModEq] at hmod
  omega

/-- The sum is 0 in both orders of the bytes. -/
theorem leWordSum_eq_zero_iff (l : List UInt8) : leWordSum l = 0 ↔ wordSum l = 0 := by
  induction l using wordSum.induct with
  | case1 => simp [leWordSum, wordSum]
  | case2 a => simp [leWordSum, wordSum]
  | case3 a b l ih =>
      rw [leWordSum, wordSum]
      omega

/-- A bound on the sum by the length. -/
theorem wordSum_lt (l : List UInt8) : wordSum l < 2 ^ 16 * (l.length + 1) := by
  induction l using wordSum.induct with
  | case1 => simp [wordSum]
  | case2 a =>
      have ha := a.toNat_lt
      rw [wordSum, List.length_singleton]
      omega
  | case3 a b l ih =>
      have ha := a.toNat_lt
      have hb := b.toNat_lt
      rw [wordSum, List.length_cons, List.length_cons]
      omega

/-- The same bound in the other order of the bytes. -/
theorem leWordSum_lt (l : List UInt8) : leWordSum l < 2 ^ 16 * (l.length + 1) := by
  induction l using wordSum.induct with
  | case1 => simp [leWordSum]
  | case2 a =>
      have ha := a.toNat_lt
      rw [leWordSum, List.length_singleton]
      omega
  | case3 a b l ih =>
      have ha := a.toNat_lt
      have hb := b.toNat_lt
      rw [leWordSum, List.length_cons, List.length_cons]
      omega

/-- A byte in front moves the others to the other half of their words. -/
theorem wordSum_cons (a : UInt8) (l : List UInt8) : wordSum (a :: l) = 256 * a.toNat + leWordSum l := by
  induction l using wordSum.induct generalizing a with
  | case1 => simp [leWordSum, wordSum]
  | case2 b => simp [leWordSum, wordSum]
  | case3 b d l ih =>
      rw [wordSum, ih d, leWordSum]
      omega

/-! ## What folding leaves -/

/-- The sum modulo 2^16 - 1, as 2^16 - 1 instead of 0 unless nothing was added. -/
def onesSum (u : ℕ) : ℕ := if u = 0 then 0 else (u - 1) % (2 ^ 16 - 1) + 1

variable {u v w : ℕ}

/-- The sum is a word. -/
theorem onesSum_lt (u : ℕ) : onesSum u < 2 ^ 16 := by
  unfold onesSum
  split <;> omega

/-- The sum of nothing but zeros is 0, all others are not. -/
theorem onesSum_eq_zero_iff : onesSum u = 0 ↔ u = 0 := by
  unfold onesSum
  split <;> omega

/-- The sum keeps the residue. -/
theorem onesSum_modEq (u : ℕ) : onesSum u ≡ u [MOD 2 ^ 16 - 1] := by
  unfold onesSum Nat.ModEq
  split <;> omega

/-- It is the only such number. -/
theorem eq_onesSum (hlt : v < 2 ^ 16) (hzero : v = 0 ↔ u = 0) (hmod : v ≡ u [MOD 2 ^ 16 - 1]) : v = onesSum u := by
  unfold Nat.ModEq at hmod
  unfold onesSum
  split <;> omega

/-- The residue, and whether it is 0, determine the sum. -/
theorem onesSum_congr (hzero : v = 0 ↔ u = 0) (hmod : v ≡ u [MOD 2 ^ 16 - 1]) : onesSum v = onesSum u :=
  eq_onesSum (onesSum_lt v) (onesSum_eq_zero_iff.trans hzero) ((onesSum_modEq v).trans hmod)

/-- Below 2^32, folding twice is enough. -/
theorem fold_fold_eq (hu : u < 2 ^ 32) : fold (fold u) = onesSum u :=
  eq_onesSum (fold_fold_lt hu) (fold_eq_zero_iff.trans fold_eq_zero_iff) ((fold_modEq _).trans (fold_modEq u))

/-- One fold is enough for two numbers of 16 bits. -/
theorem fold_add_eq (hv : v < 2 ^ 16) (hw : w < 2 ^ 16) : fold (v + w) = onesSum (v + w) :=
  eq_onesSum (by rw [fold]; omega) fold_eq_zero_iff (fold_modEq _)

/-- The parts of the data can be summed one by one. -/
theorem onesSum_add (v w : ℕ) : onesSum (onesSum v + onesSum w) = onesSum (v + w) := by
  refine onesSum_congr ?_ ((onesSum_modEq v).add (onesSum_modEq w))
  rw [Nat.add_eq_zero_iff, Nat.add_eq_zero_iff, onesSum_eq_zero_iff, onesSum_eq_zero_iff]

/-- A part may be summed first. -/
theorem onesSum_add_left (v w : ℕ) : onesSum (onesSum v + w) = onesSum (v + w) := by
  refine onesSum_congr ?_ ((onesSum_modEq v).add_right w)
  rw [Nat.add_eq_zero_iff, Nat.add_eq_zero_iff, onesSum_eq_zero_iff]

/-- A factor may be summed first. -/
theorem onesSum_mul (v w : ℕ) : onesSum (v * onesSum w) = onesSum (v * w) := by
  refine onesSum_congr ?_ ((onesSum_modEq w).mul_left v)
  rw [Nat.mul_eq_zero, Nat.mul_eq_zero, onesSum_eq_zero_iff]

/-- All bits are set when the sum is zero modulo 2^16 - 1. -/
theorem onesSum_eq_ones_iff : onesSum u = 2 ^ 16 - 1 ↔ u ≠ 0 ∧ 2 ^ 16 - 1 ∣ u := by
  unfold onesSum
  split <;> omega

/-- Swapping the bytes of the words swaps those of the sum. -/
theorem onesSum_wordSum (l : List UInt8) : onesSum (256 * leWordSum l) = onesSum (wordSum l) := by
  refine onesSum_congr ?_ (wordSum_modEq l)
  have hzero := leWordSum_eq_zero_iff l
  omega

/-- And back. -/
theorem onesSum_leWordSum (l : List UInt8) : onesSum (256 * wordSum l) = onesSum (leWordSum l) := by
  have hmod := wordSum_modEq l
  have hzero := leWordSum_eq_zero_iff l
  refine onesSum_congr (by omega) ?_
  unfold Nat.ModEq at hmod ⊢
  omega

/-! ## Data in two parts -/

/-- Behind an even number of bytes, the words go on as they are. -/
theorem leWordSum_append_even {l l' : List UInt8} (h : l.length % 2 = 0) :
    leWordSum (l ++ l') = leWordSum l + leWordSum l' := by
  induction l using wordSum.induct with
  | case1 =>
      rw [List.nil_append, leWordSum, Nat.zero_add]
  | case2 a => cases h
  | case3 a b l ih =>
      rw [List.length_cons, List.length_cons] at h
      rw [List.cons_append, List.cons_append, leWordSum, leWordSum, ih (by omega), ← Nat.add_assoc]

/-- Behind an odd number of bytes, the bytes are in the other halves of their words. -/
theorem leWordSum_append_odd {l l' : List UInt8} (h : l.length % 2 = 1) :
    leWordSum (l ++ l') = leWordSum l + wordSum l' := by
  induction l using wordSum.induct with
  | case1 => cases h
  | case2 a =>
      cases l' with
      | nil => rfl
      | cons b l' => rw [List.singleton_append, leWordSum, leWordSum, wordSum_cons, Nat.add_assoc]
  | case3 a b l ih =>
      rw [List.length_cons, List.length_cons] at h
      rw [List.cons_append, List.cons_append, leWordSum, leWordSum, ih (by omega), ← Nat.add_assoc]

end BareMetal
