import Mathlib.Data.List.Chain

/-! # Slices of a list

`slice l a b` is the part of the list from place `a` to in front of place `b`. Things with a range, from `lo` to
`hi`, tile a range when each begins where the one before it ends (`Tiles`). When each of them holds the slice of
its range, together they hold the slice of the whole (`Tiles.flatMap_eq`). Things in order that do not overlap
tile a range as soon as they cover it (`tiles_of_covers`). -/

namespace BareMetal

variable {α β : Type*} {l : List α} {a b c : ℕ}

/-- The elements from place `a` on, in front of place `b`. -/
def slice (l : List α) (a b : ℕ) : List α := (l.drop a).take (b - a)

/-- The length of a slice inside the list. -/
theorem length_slice (h : b ≤ l.length) : (slice l a b).length = b - a := by
  rw [slice, List.length_take, List.length_drop]
  omega

/-- An empty slice. -/
@[simp] theorem slice_self (l : List α) (a : ℕ) : slice l a a = [] := by
  rw [slice, Nat.sub_self, List.take_zero]

/-- The whole list. -/
theorem slice_all (l : List α) : slice l 0 l.length = l := by
  rw [slice, List.drop_zero, Nat.sub_zero, List.take_length]

/-- Behind the last element there is nothing more. -/
theorem slice_of_length_le (h : l.length ≤ b) (h' : l.length ≤ c) : slice l a b = slice l a c := by
  have hdrop : (l.drop a).length = l.length - a := List.length_drop
  rw [slice, slice, List.take_of_length_le (by omega), List.take_of_length_le (by omega)]

/-- Two slices, the one behind the other. -/
theorem slice_append (hab : a ≤ b) (hbc : b ≤ c) (l : List α) : slice l a b ++ slice l b c = slice l a c := by
  have hdrop : l.drop b = (l.drop a).drop (b - a) := by
    rw [List.drop_drop, Nat.add_sub_cancel' hab]
  have hlen : c - a = (b - a) + (c - b) := by omega
  rw [slice, slice, slice, hdrop, hlen, List.take_add]

/-! ## Tiling a range -/

/-- The things of the list follow each other without holes, from `a` to `b`. -/
def Tiles (lo hi : β → ℕ) : List β → ℕ → ℕ → Prop
  | [], a, b => a = b
  | x :: q, a, b => lo x = a ∧ Tiles lo hi q (hi x) b

variable {lo hi : β → ℕ} {x : β} {q q' : List β} {text : β → List α}

/-- A tiling goes from left to right. -/
theorem Tiles.le (h : Tiles lo hi q a b) (hle : ∀ x ∈ q, lo x ≤ hi x) : a ≤ b := by
  induction q generalizing a with
  | nil => exact Nat.le_of_eq h
  | cons x q ih =>
      obtain ⟨rfl, h⟩ := h
      exact Nat.le_trans (hle x List.mem_cons_self) (ih h fun y hy => hle y (List.mem_cons_of_mem x hy))

/-- What begins a list that tiles a range tiles a range itself. -/
theorem Tiles.of_append (h : Tiles lo hi (q ++ q') a c) : ∃ b, Tiles lo hi q a b ∧ Tiles lo hi q' b c := by
  induction q generalizing a with
  | nil => exact ⟨a, rfl, h⟩
  | cons x q ih =>
      obtain ⟨hx, h⟩ := h
      obtain ⟨b, hq, hq'⟩ := ih h
      exact ⟨b, ⟨hx, hq⟩, hq'⟩

/-- No tile begins before the tiling. -/
theorem Tiles.le_lo {y : β} (h : Tiles lo hi q a b) (hle : ∀ x ∈ q, lo x ≤ hi x) (hy : y ∈ q) : a ≤ lo y := by
  induction q generalizing a with
  | nil => exact absurd hy List.not_mem_nil
  | cons x q ih =>
      obtain ⟨rfl, h⟩ := h
      rcases List.mem_cons.mp hy with rfl | hy
      · exact Nat.le_refl _
      · have hrest := ih h (fun z hz => hle z (List.mem_cons_of_mem x hz)) hy
        exact (hle x List.mem_cons_self).trans hrest

/-- Two things of a tiling are the same, or one ends before the other begins. -/
theorem Tiles.apart {y : β} (h : Tiles lo hi q a b) (hle : ∀ x ∈ q, lo x ≤ hi x) (hx : x ∈ q) (hy : y ∈ q) :
    x = y ∨ hi x ≤ lo y ∨ hi y ≤ lo x := by
  induction q generalizing a with
  | nil => exact absurd hx List.not_mem_nil
  | cons z q ih =>
      obtain ⟨-, h⟩ := h
      have hle' : ∀ x ∈ q, lo x ≤ hi x := fun x hx => hle x (List.mem_cons_of_mem z hx)
      rcases List.mem_cons.mp hx with rfl | hx' <;> rcases List.mem_cons.mp hy with rfl | hy'
      · exact .inl rfl
      · exact .inr (.inl (h.le_lo hle' hy'))
      · exact .inr (.inr (h.le_lo hle' hx'))
      · exact ih h hle' hx' hy'

/-- A tiling covers its range. -/
theorem Tiles.covers {i : ℕ} (h : Tiles lo hi q a b) (ha : a ≤ i) (hb : i < b) : ∃ x ∈ q, lo x ≤ i ∧ i < hi x := by
  induction q generalizing a with
  | nil => exact absurd (h ▸ ha) (Nat.not_le_of_gt hb)
  | cons x q ih =>
      obtain ⟨rfl, h⟩ := h
      rcases Nat.lt_or_ge i (hi x) with hlt | hge
      · exact ⟨x, List.mem_cons_self, ha, hlt⟩
      · obtain ⟨y, hy, hrange⟩ := ih h hge
        exact ⟨y, List.mem_cons_of_mem x hy, hrange⟩

/-- What tiles a range holds the slice of the range. -/
theorem Tiles.flatMap_eq (h : Tiles lo hi q a b) (hle : ∀ x ∈ q, lo x ≤ hi x)
    (htext : ∀ x ∈ q, text x = slice l (lo x) (hi x)) : q.flatMap text = slice l a b := by
  induction q generalizing a with
  | nil =>
      obtain rfl : a = b := h
      rw [slice_self, List.flatMap_nil]
  | cons x q ih =>
      obtain ⟨rfl, h⟩ := h
      have hle' : ∀ y ∈ q, lo y ≤ hi y := fun y hy => hle y (List.mem_cons_of_mem x hy)
      rw [List.flatMap_cons, ih h hle' fun y hy => htext y (List.mem_cons_of_mem x hy), htext x List.mem_cons_self,
        slice_append (hle x List.mem_cons_self) (h.le hle')]

/-- Things without holes between them tile the range from the first one to the last one. -/
theorem exists_tiles (h : (x :: q).IsChain fun x y => hi x = lo y) (hle : ∀ y ∈ x :: q, lo y ≤ hi y) :
    ∃ b, Tiles lo hi (x :: q) (lo x) b ∧ (∀ y ∈ x :: q, hi y ≤ b) ∧ ∃ y ∈ x :: q, hi y = b := by
  induction q generalizing x with
  | nil =>
      refine ⟨hi x, ⟨rfl, rfl⟩, fun y hy => ?_, x, List.mem_cons_self, rfl⟩
      rw [List.mem_singleton.mp hy]
  | cons z q ih =>
      obtain ⟨hxz, h⟩ := List.isChain_cons_cons.mp h
      have hle' : ∀ y ∈ z :: q, lo y ≤ hi y := fun y hy => hle y (List.mem_cons_of_mem x hy)
      obtain ⟨b, htiles, hmax, y, hy, hyb⟩ := ih h hle'
      rw [← hxz] at htiles
      refine ⟨b, ⟨rfl, htiles⟩, fun w hw => ?_, y, List.mem_cons_of_mem x hy, hyb⟩
      rcases List.mem_cons.mp hw with rfl | hw
      · exact htiles.le hle'
      · exact hmax w hw

/-- Each tile begins where the one before it ends. -/
theorem Tiles.isChain (h : Tiles lo hi q a b) : q.IsChain fun x y => hi x = lo y := by
  induction q generalizing a with
  | nil => exact List.isChain_nil
  | cons x q ih =>
      cases q with
      | nil => exact List.isChain_singleton x
      | cons y q => exact List.isChain_cons_cons.mpr ⟨h.2.1.symm, ih h.2⟩

/-- Things in order tile the range that they cover. -/
theorem tiles_of_covers (hsorted : q.Pairwise fun x y => hi x ≤ lo y) (hlt : ∀ x ∈ q, lo x < hi x)
    (hlow : ∀ x ∈ q, a ≤ lo x) (hhigh : ∀ x ∈ q, hi x ≤ b) (hab : a ≤ b)
    (hcovers : ∀ i, a ≤ i → i < b → ∃ x ∈ q, lo x ≤ i ∧ i < hi x) : Tiles lo hi q a b := by
  induction q generalizing a with
  | nil =>
      rcases Nat.lt_or_eq_of_le hab with hlt' | rfl
      · obtain ⟨x, hx, -⟩ := hcovers a (Nat.le_refl a) hlt'
        exact absurd hx List.not_mem_nil
      · rfl
  | cons x q ih =>
      obtain ⟨hx, hsorted⟩ := List.pairwise_cons.mp hsorted
      have hxlt := hlt x List.mem_cons_self
      have hxlow := hlow x List.mem_cons_self
      have hxhigh := hhigh x List.mem_cons_self
      -- the first place is covered by the first thing
      obtain ⟨y, hy, hylo, hyhi⟩ := hcovers a (Nat.le_refl a) (by omega)
      have hxa : lo x = a := by
        rcases List.mem_cons.mp hy with rfl | hy
        · omega
        · have hle := hx y hy
          omega
      refine ⟨hxa, ih hsorted (fun y hy => hlt y (List.mem_cons_of_mem x hy)) hx
        (fun y hy => hhigh y (List.mem_cons_of_mem x hy)) hxhigh fun i hi₁ hi₂ => ?_⟩
      obtain ⟨y, hy, hylo, hyhi⟩ := hcovers i (by omega) hi₂
      rcases List.mem_cons.mp hy with rfl | hy
      · omega
      · exact ⟨y, hy, hylo, hyhi⟩

end BareMetal
