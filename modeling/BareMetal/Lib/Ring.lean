import Mathlib.Data.Nat.ModEq
import Mathlib.Logic.Function.Basic
import Mathlib.Algebra.Order.Ring.Nat

/-! # Rings of slots

A ring of `n` slots is used by a producer and a consumer that both count upwards: item `k` lives in
slot `k % n`. `Window slots n lo hi P` says that the items `lo ≤ k < hi` have the property `P k` in
their slots. A window moves by writing one slot: `Window.push` appends the item after the last one and
`Window.pop` gives up the first one; both need that the window is not longer than the ring. -/

namespace BareMetal

variable {α : Type*} {slots : ℕ → α} {n lo hi lo' hi' i j k : ℕ} {P Q : ℕ → α → Prop} {v : α}

/-- Items less than one round apart live in different slots. -/
theorem slot_ne (hij : i < j) (hj : j < i + n) : i % n ≠ j % n := by
  intro h
  have hdvd : n ∣ j - i := (Nat.modEq_iff_dvd' hij.le).mp h
  have := Nat.le_of_dvd (by omega) hdvd
  omega

/-- Going to the next slot, with the wrap of the last one to the first. -/
theorem next_slot (hn : 0 < n) (k : ℕ) :
    (if k % n < n - 1 then k % n + 1 else 0) = (k + 1) % n := by
  have hk := Nat.mod_lt k hn
  have hsucc : (k % n + 1) % n = (k + 1) % n := Nat.mod_add_mod k n 1
  rw [← hsucc]
  by_cases h : k % n < n - 1
  · rw [if_pos h, Nat.mod_eq_of_lt (show k % n + 1 < n by omega)]
  · rw [if_neg h, show k % n + 1 = n by omega, Nat.mod_self]

/-- The items `lo ≤ k < hi` have the property `P k` in their slots. -/
def Window (slots : ℕ → α) (n lo hi : ℕ) (P : ℕ → α → Prop) : Prop :=
  ∀ k, lo ≤ k → k < hi → P k (slots (k % n))

/-- A window without elements. -/
theorem Window.empty (h : hi ≤ lo) : Window slots n lo hi P := fun _ hl hh => by omega

/-- A part of a window is a window, and so is a window of a weaker property. -/
theorem Window.mono (h : Window slots n lo hi P) (hlo : lo ≤ lo') (hhi : hi' ≤ hi)
    (hPQ : ∀ k v, lo' ≤ k → k < hi' → P k v → Q k v) : Window slots n lo' hi' Q :=
  fun k hl hh => hPQ k _ hl hh (h k (hlo.trans hl) (hh.trans_le hhi))

/-- A write to a slot that holds no item of the window keeps the window. -/
theorem Window.update (h : Window slots n lo hi P) (hi' : ∀ k, lo ≤ k → k < hi → k % n ≠ i % n) :
    Window (Function.update slots (i % n) v) n lo hi P := by
  intro k hl hh
  rw [Function.update_of_ne (hi' k hl hh)]
  exact h k hl hh

/-- Append the next item. -/
theorem Window.push (h : Window slots n lo hi P) (hv : P hi v) (hroom : hi < lo + n) :
    Window (Function.update slots (hi % n) v) n lo (hi + 1) P := by
  intro k hl hh
  by_cases hk : k = hi
  · subst hk
    rw [Function.update_self]
    exact hv
  · rw [Function.update_of_ne (slot_ne (by omega) (by omega))]
    exact h k hl (by omega)

/-- Give up the first item; its slot may then hold anything. -/
theorem Window.pop (h : Window slots n lo hi P) (hlen : hi ≤ lo + n) :
    Window (Function.update slots (lo % n) v) n (lo + 1) hi P := by
  intro k hl hh
  rw [Function.update_of_ne (slot_ne (by omega) (by omega)).symm]
  exact h k (by omega) hh

end BareMetal
