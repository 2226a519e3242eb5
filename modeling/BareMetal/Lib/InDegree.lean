import Mathlib.Data.Finset.Card
import Mathlib.Logic.Function.Basic

/-! # In-degrees

`inDegree S next x` counts the nodes of a finite set `S` that `next` sends to `x`: the number of links to
`x` in a heap whose live nodes are `S`. The lemmas say what the edits of a heap change, one node or one link at
a time. -/

namespace BareMetal

variable {α : Type*} [DecidableEq α]

/-- The number of nodes of `S` whose link leads to `x`. -/
def inDegree (S : Finset α) (next : α → α) (x : α) : ℕ := (S.filter fun y => next y = x).card

variable {S : Finset α} {next next' : α → α} {x y c : α}

/-- Only the links out of the set count. -/
theorem inDegree_congr (h : ∀ y ∈ S, next y = next' y) (x : α) :
    inDegree S next x = inDegree S next' x := by
  refine congrArg Finset.card (Finset.filter_congr fun y hy => ?_)
  rw [h y hy]

/-- A new node links to its successor. -/
theorem inDegree_insert (hy : y ∉ S) (next : α → α) (x : α) :
    inDegree (insert y S) next x = inDegree S next x + if next y = x then 1 else 0 := by
  rw [inDegree, Finset.filter_insert]
  split
  · have hnot : y ∉ S.filter fun z => next z = x := fun hm => hy (Finset.mem_filter.mp hm).1
    rw [Finset.card_insert_of_notMem hnot, inDegree]
  · rfl

/-- A node that is taken away takes its link along. -/
theorem inDegree_erase (hy : y ∈ S) (next : α → α) (x : α) :
    inDegree S next x = inDegree (S.erase y) next x + if next y = x then 1 else 0 := by
  rw [← inDegree_insert (Finset.notMem_erase y S), Finset.insert_erase hy]

/-- Changing the link of `y` moves one link from its old target to the new one. -/
theorem inDegree_update (hy : y ∈ S) (next : α → α) (c x : α) :
    inDegree S (Function.update next y c) x + (if next y = x then 1 else 0) =
      inDegree S next x + if c = x then 1 else 0 := by
  have hrest : inDegree (S.erase y) (Function.update next y c) x = inDegree (S.erase y) next x :=
    inDegree_congr (fun z hz => Function.update_of_ne (Finset.ne_of_mem_erase hz) c next) x
  rw [inDegree_erase hy (Function.update next y c), inDegree_erase hy next, hrest, Function.update_self]
  omega

/-- Nothing points to the node. -/
theorem inDegree_eq_zero_iff : inDegree S next x = 0 ↔ ∀ y ∈ S, next y ≠ x := by
  rw [inDegree, Finset.card_eq_zero, Finset.filter_eq_empty_iff]

end BareMetal
