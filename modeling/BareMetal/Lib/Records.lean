import Mathlib.Data.List.Basic
import Mathlib.Order.Defs.Unbundled

/-! # Records of a list

A loop that goes over a list and keeps the best element so far, where `R r x` says that `x` may take the
place of `r`, is a fold with `keepBest R`. It goes from one record of the list to the next: a record is
an element that may take the place of every record before it (`records`, the last one first). When `R` is
transitive the loop ends with the last record (`foldl_keepBest`), and when it is total as well that is a
greatest element of the whole list (`rel_of_foldl_keepBest`). -/

namespace BareMetal

variable {α : Type*} (R : α → α → Prop) [DecidableRel R] {x r : α} {l rs : List α}

/-- Take `x` in place of the best element so far if `R` allows it. -/
def keepBest (best : Option α) (x : α) : Option α :=
  match best with
  | none => some x
  | some r => if R r x then some x else some r

/-- `x` is a record after the records `rs` when it may take the place of all of them. -/
def addRecord (rs : List α) (x : α) : List α := if ∀ r ∈ rs, R r x then x :: rs else rs

/-- The records of a list, the last one first. -/
def records (l : List α) : List α := l.foldl (addRecord R) []

variable {R}

/-- Records come from the list. -/
theorem mem_of_mem_foldl_addRecord (h : x ∈ l.foldl (addRecord R) rs) : x ∈ rs ∨ x ∈ l := by
  induction l generalizing rs with
  | nil => exact .inl h
  | cons y l ih =>
      rw [List.foldl_cons, addRecord] at h
      split at h
      · rcases ih h with hrs | hl
        · rcases List.mem_cons.mp hrs with rfl | hrs
          · exact .inr List.mem_cons_self
          · exact .inl hrs
        · exact .inr (List.mem_cons_of_mem y hl)
      · exact (ih h).imp_right (List.mem_cons_of_mem y)

/-- A record is an element of the list. -/
theorem mem_of_mem_records (h : x ∈ records R l) : x ∈ l :=
  (mem_of_mem_foldl_addRecord h).resolve_left List.not_mem_nil

/-- The loop finds an element unless the list is empty. -/
theorem foldl_keepBest_eq_none_iff {best : Option α} :
    l.foldl (keepBest R) best = none ↔ best = none ∧ l = [] := by
  induction l generalizing best with
  | nil => simp
  | cons x l ih =>
      have hsome : keepBest R best x ≠ none := by
        cases best with
        | none => exact Option.some_ne_none x
        | some r =>
            rw [keepBest]
            split <;> exact Option.some_ne_none _
      rw [List.foldl_cons, ih]
      exact ⟨fun h => absurd h.1 hsome, fun h => absurd h.2 (List.cons_ne_nil x l)⟩

/-- The element that the loop ends with is the one it starts with or one of the list. -/
theorem mem_of_foldl_keepBest {best : Option α} (h : l.foldl (keepBest R) best = some r) :
    best = some r ∨ r ∈ l := by
  induction l generalizing best with
  | nil => exact .inl h
  | cons x l ih =>
      have hstep : keepBest R best x = some x ∨ keepBest R best x = best := by
        cases best with
        | none => exact .inl rfl
        | some b =>
            rw [keepBest]
            exact ite_eq_or_eq (R b x) (some x) (some b)
      rcases ih h with hx | hl
      · rcases hstep with hstep | hstep
        · exact .inr (List.mem_cons.mpr (.inl (Option.some.inj (hx.symm.trans hstep))))
        · exact .inl (hstep.symm.trans hx)
      · exact .inr (List.mem_cons_of_mem x hl)

section Trans

variable [IsTrans α R]

omit [DecidableRel R] in
/-- What the last record allows, all records allow. -/
theorem forall_rel_iff (hrs : ∀ r' ∈ rs, R r' r) (hr : r ∈ rs) : (∀ r' ∈ rs, R r' x) ↔ R r x :=
  ⟨fun h => h r hr, fun h r' hr' => trans_of R (hrs r' hr') h⟩

/-- When any two elements can be compared, the loop ends with a greatest element. -/
theorem rel_of_foldl_keepBest [Std.Total R] {best : Option α} (h : l.foldl (keepBest R) best = some r) :
    (∀ b, best = some b → R b r) ∧ ∀ x ∈ l, R x r := by
  induction l generalizing best with
  | nil =>
      refine ⟨fun b hb => ?_, fun x hx => absurd hx List.not_mem_nil⟩
      obtain rfl := Option.some.inj (hb.symm.trans h)
      exact (Std.Total.total b b).elim id id
  | cons y l ih =>
      obtain ⟨hbest, hl⟩ := ih h
      have hstep : R y r ∧ ∀ b, best = some b → R b r := by
        cases best with
        | none => exact ⟨hbest y rfl, fun b hb => nomatch hb⟩
        | some b =>
            rw [keepBest] at hbest
            by_cases hby : R b y
            · rw [if_pos hby] at hbest
              have hy := hbest y rfl
              exact ⟨hy, fun b' hb' => Option.some.inj hb' ▸ trans_of R hby hy⟩
            · rw [if_neg hby] at hbest
              have hb := hbest b rfl
              have hyb : R y b := (Std.Total.total b y).resolve_left hby
              exact ⟨trans_of R hyb hb, fun b' hb' => Option.some.inj hb' ▸ hb⟩
      refine ⟨hstep.2, fun x hx => ?_⟩
      rcases List.mem_cons.mp hx with rfl | hx
      · exact hstep.1
      · exact hl x hx

variable [Std.Refl R]

/-- The loop and the records in step. -/
theorem foldl_keepBest_aux (rs : List α) (hrs : ∀ r, rs.head? = some r → ∀ r' ∈ rs, R r' r) :
    l.foldl (keepBest R) rs.head? = (l.foldl (addRecord R) rs).head? ∧
      ∀ r, (l.foldl (addRecord R) rs).head? = some r → ∀ r' ∈ l.foldl (addRecord R) rs, R r' r := by
  induction l generalizing rs with
  | nil => exact ⟨rfl, hrs⟩
  | cons x l ih =>
      rw [List.foldl_cons, List.foldl_cons]
      have hstep : keepBest R rs.head? x = (addRecord R rs x).head? ∧
          ∀ r, (addRecord R rs x).head? = some r → ∀ r' ∈ addRecord R rs x, R r' r := by
        cases rs with
        | nil =>
            refine ⟨by simp [keepBest, addRecord], fun r hr r' hr' => ?_⟩
            simp only [addRecord, List.not_mem_nil, false_implies, implies_true, if_true, List.head?_cons,
              Option.some.injEq, List.mem_singleton] at hr hr'
            rw [← hr, hr']
            exact Std.Refl.refl x
        | cons r rs =>
            have hall := forall_rel_iff (x := x) (hrs r rfl) List.mem_cons_self
            by_cases hx : R r x
            · rw [addRecord, if_pos (hall.mpr hx), List.head?_cons, keepBest, if_pos hx]
              refine ⟨rfl, fun r₁ hr₁ r' hr' => ?_⟩
              obtain rfl := Option.some.inj hr₁
              rcases List.mem_cons.mp hr' with rfl | hr'
              · exact Std.Refl.refl _
              · exact hall.mpr hx r' hr'
            · rw [addRecord, if_neg fun h => hx (hall.mp h), List.head?_cons, keepBest, if_neg hx]
              exact ⟨rfl, hrs⟩
      rw [hstep.1]
      exact ih _ hstep.2

/-- The loop ends with the last record. -/
theorem foldl_keepBest (l : List α) : l.foldl (keepBest R) none = (records R l).head? :=
  (foldl_keepBest_aux [] fun _ h => nomatch h).1

/-- The last record may take the place of every record. -/
theorem rel_last (h : (records R l).head? = some r) (hx : x ∈ records R l) : R x r :=
  (foldl_keepBest_aux [] fun _ h => nomatch h).2 r h x hx

end Trans

end BareMetal
