import Mathlib.Data.List.GetD
import Mathlib.Logic.Function.Basic
import Mathlib.Algebra.Order.Ring.Nat
import Mathlib.Tactic.Ring

/-! # Byte-addressed memory

A memory is a function from addresses to bytes. `loadLE m w a` reads the `w`-byte little-endian number
at `a` and `storeLE m w a v` writes one. What a proof about in-memory data structures needs is the round
trip (`loadLE_storeLE`), the frame (`loadLE_storeLE_of_disjoint`), and that a load depends on its own
bytes only (`loadLE_congr`). Runs of bytes are read and written as lists by `readBytes` and `writeBytes`. -/

namespace BareMetal

/-- A memory: one byte at every address. -/
abbrev ByteMem := ℕ → UInt8

/-- The `w`-byte little-endian number at address `a`. -/
def loadLE (m : ByteMem) : ℕ → ℕ → ℕ
  | 0, _ => 0
  | w + 1, a => (m a).toNat + 256 * loadLE m w (a + 1)

/-- Write `v` as a `w`-byte little-endian number at address `a`. -/
def storeLE (m : ByteMem) (w a v : ℕ) : ByteMem := fun x =>
  if a ≤ x ∧ x < a + w then UInt8.ofNat (v / 256 ^ (x - a)) else m x

/-- `m` and `m'` hold the same bytes in `[a, b)`. -/
def AgreeOn (m m' : ByteMem) (a b : ℕ) : Prop := ∀ x, a ≤ x → x < b → m x = m' x

/-- `m` and `m'` hold the same bytes outside `[a, b)`. -/
def AgreeOff (m m' : ByteMem) (a b : ℕ) : Prop := ∀ x, x < a ∨ b ≤ x → m x = m' x

variable {m m' m'' : ByteMem} {w w' a a' b b' v : ℕ}

/-- Agreeing is mutual. -/
theorem AgreeOn.symm (h : AgreeOn m m' a b) : AgreeOn m' m a b := fun x ha hb => (h x ha hb).symm

/-- A memory agrees with itself. -/
theorem AgreeOff.refl (m : ByteMem) (a b : ℕ) : AgreeOff m m a b := fun _ _ => rfl

/-- Two writes inside the same bounds. -/
theorem AgreeOff.trans (h : AgreeOff m m' a b) (h' : AgreeOff m' m'' a b) : AgreeOff m m'' a b :=
  fun x hx => (h x hx).trans (h' x hx)

/-- A change confined to a small range is confined to a larger one. -/
theorem AgreeOff.mono (h : AgreeOff m m' a b) (ha : a' ≤ a) (hb : b ≤ b') : AgreeOff m m' a' b' :=
  fun x hx => h x (by omega)

/-- A change confined to `[a, b)` leaves a disjoint range alone. -/
theorem AgreeOff.agreeOn (h : AgreeOff m m' a b) (hd : b' ≤ a ∨ b ≤ a') : AgreeOn m m' a' b' :=
  fun x ha hb => h x (by omega)

/-- A load reads its own bytes only. -/
theorem loadLE_congr (h : AgreeOn m m' a (a + w)) : loadLE m w a = loadLE m' w a := by
  induction w generalizing a with
  | zero => rfl
  | succ w ih =>
      rw [loadLE, loadLE, h a le_rfl (by omega), ih fun x hx hx' => h x (by omega) (by omega)]

/-- Bytes that are the digits of `v` load as `v`. -/
theorem loadLE_eq_of_digits (hv : v < 256 ^ w)
    (h : ∀ i < w, m (a + i) = UInt8.ofNat (v / 256 ^ i)) : loadLE m w a = v := by
  induction w generalizing a v with
  | zero => simp only [pow_zero, Nat.lt_one_iff] at hv; rw [loadLE, hv]
  | succ w ih =>
      rw [pow_succ] at hv
      have hrest : loadLE m w (a + 1) = v / 256 := by
        refine ih (by omega) fun i hi => ?_
        rw [show a + 1 + i = a + (i + 1) by ring, h (i + 1) (by omega), pow_succ', Nat.div_div_eq_div_mul]
      have h0 := h 0 (by omega)
      rw [Nat.add_zero, pow_zero, Nat.div_one] at h0
      rw [loadLE, hrest, h0, UInt8.toNat_ofNat']
      omega

/-- A load returns what was stored at its address and width. -/
theorem loadLE_storeLE (m : ByteMem) (hv : v < 256 ^ w) : loadLE (storeLE m w a v) w a = v := by
  refine loadLE_eq_of_digits hv fun i hi => ?_
  rw [storeLE, if_pos (by omega), Nat.add_sub_cancel_left]

/-- A store changes its own bytes only. -/
theorem storeLE_agreeOff (m : ByteMem) (w a v : ℕ) : AgreeOff m (storeLE m w a v) a (a + w) := by
  intro x hx
  rw [storeLE, if_neg (by omega)]

/-- A load of other bytes does not see a store. -/
theorem loadLE_storeLE_of_disjoint (m : ByteMem) (hd : a' + w' ≤ a ∨ a + w ≤ a') :
    loadLE (storeLE m w a v) w' a' = loadLE m w' a' :=
  (loadLE_congr ((storeLE_agreeOff m w a v).agreeOn hd)).symm

/-! ## Runs of bytes -/

/-- The `n` bytes at address `a`. -/
def readBytes (m : ByteMem) (a n : ℕ) : List UInt8 := (List.range n).map fun k => m (a + k)

/-- Write a list of bytes at address `a`. -/
def writeBytes (m : ByteMem) (a : ℕ) (bs : List UInt8) : ByteMem := fun x =>
  if a ≤ x then bs.getD (x - a) (m x) else m x

variable {bs : List UInt8} {n : ℕ}

/-- As many bytes as were asked for. -/
theorem length_readBytes (m : ByteMem) (a n : ℕ) : (readBytes m a n).length = n := by
  rw [readBytes, List.length_map, List.length_range]

/-- Reading depends on the bytes read only. -/
theorem readBytes_congr (h : AgreeOn m m' a (a + n)) : readBytes m a n = readBytes m' a n := by
  apply List.map_congr_left
  intro k hk
  have := List.mem_range.mp hk
  exact h _ (by omega) (by omega)

/-- Two reads one behind the other are one read. -/
theorem readBytes_add (m : ByteMem) (a n k : ℕ) :
    readBytes m a n ++ readBytes m (a + n) k = readBytes m a (n + k) := by
  rw [readBytes, readBytes, readBytes, List.range_add, List.map_append, List.map_map]
  refine congrArg _ (List.map_congr_left fun i _ => ?_)
  rw [Function.comp, Nat.add_assoc]

/-- The front of a read is a shorter read. -/
theorem take_readBytes (m : ByteMem) (a : ℕ) {k : ℕ} (hk : k ≤ n) :
    (readBytes m a n).take k = readBytes m a k := by
  rw [readBytes, ← List.map_take, List.take_range, Nat.min_eq_left hk]
  rfl

/-- A read of at most as many bytes as were written sees them. -/
theorem readBytes_writeBytes (m : ByteMem) (a : ℕ) (hn : n ≤ bs.length) :
    readBytes (writeBytes m a bs) a n = bs.take n := by
  apply List.ext_getElem
  · rw [length_readBytes, List.length_take, Nat.min_eq_left hn]
  · intro k hk _
    rw [length_readBytes] at hk
    simp only [readBytes, writeBytes, List.getElem_map, List.getElem_range, List.getElem_take,
      if_pos (Nat.le_add_right a k), Nat.add_sub_cancel_left]
    rw [List.getD_eq_getElem _ _ (by omega)]

/-- A write of bytes changes those bytes only. -/
theorem writeBytes_agreeOff (m : ByteMem) (a : ℕ) (bs : List UInt8) :
    AgreeOff m (writeBytes m a bs) a (a + bs.length) := by
  intro x hx
  rw [writeBytes]
  by_cases h : a ≤ x
  · rw [if_pos h, List.getD_eq_default _ _ (by omega)]
  · rw [if_neg h]

end BareMetal
