import Mathlib.Data.List.TakeWhile
import BareMetal.Lib.SerialNumber

/-! # Delta lists

A list of things to be done in time, each with the delay behind the one before it. Inserting and removing change one delay of
the others, so that all `deadlines` stay: in terms of these, a new thing is put behind those that are not due later
(`deadlines_insertDelay`), and one is taken out (`deadlines_removeDelay`). -/

namespace BareMetal

variable {α : Type*}

/-- The times at which the things are due, from the time `base` on. -/
def deadlines : ℕ → List (ℕ × α) → List (ℕ × α)
  | _, [] => []
  | base, (d, a) :: l => (base + d, a) :: deadlines (base + d) l

/-- Put `a` behind the things that are due in `d` or before. -/
def insertDelay (d : ℕ) (a : α) : List (ℕ × α) → List (ℕ × α)
  | [] => [(d, a)]
  | (e, b) :: l => if d < e then (d, a) :: (e - d, b) :: l else (e, b) :: insertDelay (d - e) a l

/-- Add to the first delay. -/
def addDelay (d : ℕ) : List (ℕ × α) → List (ℕ × α)
  | [] => []
  | (e, b) :: l => (e + d, b) :: l

/-- Take the first thing with `p` out. -/
def removeDelay (p : α → Bool) : List (ℕ × α) → List (ℕ × α)
  | [] => []
  | (d, a) :: l => if p a then addDelay d l else (d, a) :: removeDelay p l

variable {base d w : ℕ} {a : α} {l : List (ℕ × α)}

/-- A delay added to the first element puts off all of them. -/
theorem deadlines_addDelay (base d : ℕ) (l : List (ℕ × α)) : deadlines base (addDelay d l) = deadlines (base + d) l := by
  cases l with
  | nil => rfl
  | cons x l =>
      have hsum : base + (x.1 + d) = base + d + x.1 := by omega
      rw [addDelay, deadlines, deadlines, hsum]

/-- No deadline lies before the start. -/
theorem le_of_mem_deadlines {x : ℕ × α} (h : x ∈ deadlines base l) : base ≤ x.1 := by
  induction l generalizing base with
  | nil => cases h
  | cons y l ih =>
      rw [deadlines, List.mem_cons] at h
      obtain rfl | h := h
      · exact Nat.le_add_right base y.1
      · exact Nat.le_trans (Nat.le_add_right base y.1) (ih h)

/-- Time passes, up to the first deadline. -/
theorem deadlines_wait (hw : w ≤ d) : deadlines (base + w) ((d - w, a) :: l) = deadlines base ((d, a) :: l) := by
  have hsum : base + w + (d - w) = base + d := by omega
  rw [deadlines, deadlines, hsum]

section Place

variable {p : α → Bool} {x y : α} {l : List α}

/-- An element that stays in front. -/
theorem place_cons_of_pos (h : p y = true) : place p x (y :: l) = y :: place p x l := by
  rw [place, List.takeWhile_cons_of_pos h, List.dropWhile_cons_of_pos h, List.cons_append, place]

/-- The place is found. -/
theorem place_cons_of_neg (h : ¬p y = true) : place p x (y :: l) = x :: y :: l := by
  rw [place, List.takeWhile_cons_of_neg h, List.dropWhile_cons_of_neg h, List.nil_append]

/-- The place is behind all elements that stay in front. -/
theorem place_append (h : ∀ z ∈ l, p z = true) (l' : List α) : place p x (l ++ l') = l ++ place p x l' := by
  induction l with
  | nil => rfl
  | cons y l ih =>
      rw [List.cons_append, place_cons_of_pos (h y List.mem_cons_self), ih fun z hz => h z (List.mem_cons_of_mem y hz),
        List.cons_append]

/-- In a list that is sorted in the sense of `R`, a new thing is in its place when the ones in front of it come before it,
and the ones behind it come after it. -/
theorem pairwise_place_of {R : α → α → Prop} (h : l.Pairwise R) (hfront : ∀ y ∈ l.takeWhile p, R y x)
    (hbehind : ∀ y ∈ l.dropWhile p, R x y) : (place p x l).Pairwise R := by
  rw [← List.takeWhile_append_dropWhile (p := p) (l := l), List.pairwise_append] at h
  refine List.pairwise_append.mpr ⟨h.1, List.Pairwise.cons hbehind h.2.1, fun y hy z hz => ?_⟩
  obtain rfl | hz := List.mem_cons.mp hz
  · exact hfront y hy
  · exact h.2.2 y hy z hz

/-- Behind the elements of a sorted list with keys up to `k`, the keys are larger. -/
theorem lt_of_mem_dropWhile {key : α → ℕ} {k : ℕ} (h : l.Pairwise fun y z => key y ≤ key z)
    (hx : x ∈ l.dropWhile fun y => decide (key y ≤ k)) : k < key x := by
  induction l with
  | nil => cases hx
  | cons y l ih =>
      obtain ⟨hy, hl⟩ := List.pairwise_cons.mp h
      rw [List.dropWhile_cons] at hx
      split at hx
      · exact ih hl hx
      · rename_i hnot
        have hlt : k < key y := Nat.lt_of_not_le fun hle => hnot (decide_eq_true hle)
        obtain rfl | hx := List.mem_cons.mp hx
        · exact hlt
        · exact Nat.lt_of_lt_of_le hlt (hy x hx)

end Place

/-- Each element has one deadline. -/
theorem length_deadlines (base : ℕ) (l : List (ℕ × α)) : (deadlines base l).length = l.length := by
  induction l generalizing base with
  | nil => rfl
  | cons x l ih => rw [deadlines, List.length_cons, ih, List.length_cons]

/-- **Insertion** into the delta list is the insertion of the deadline, behind those that are as early. -/
theorem deadlines_insertDelay (base d : ℕ) (a : α) (l : List (ℕ × α)) :
    deadlines base (insertDelay d a l) = place (fun x => decide (x.1 ≤ base + d)) (base + d, a) (deadlines base l) := by
  induction l generalizing base d with
  | nil => rfl
  | cons x l ih =>
      by_cases hlt : d < x.1
      · rw [insertDelay, if_pos hlt, deadlines, deadlines_wait hlt.le]
        refine (place_cons_of_neg ?_).symm
        rw [decide_eq_true_iff]
        exact Nat.not_le_of_lt (Nat.add_lt_add_left hlt base)
      · have hle := Nat.le_of_not_lt hlt
        have hsum : base + x.1 + (d - x.1) = base + d := by omega
        rw [insertDelay, if_neg hlt, deadlines, ih, hsum]
        refine (place_cons_of_pos ?_).symm
        rw [decide_eq_true_iff]
        exact Nat.add_le_add_left hle base

/-- **Removal** from the delta list takes away one deadline and leaves the others. -/
theorem deadlines_removeDelay (base : ℕ) (p : α → Bool) (l : List (ℕ × α)) :
    deadlines base (removeDelay p l) = (deadlines base l).eraseP fun x => p x.2 := by
  induction l generalizing base with
  | nil => rfl
  | cons x l ih =>
      rw [removeDelay, deadlines, List.eraseP_cons]
      cases hp : p x.2 with
      | true => exact deadlines_addDelay base x.1 l
      | false =>
          rw [if_neg Bool.false_ne_true, deadlines, ih]
          rfl

end BareMetal
