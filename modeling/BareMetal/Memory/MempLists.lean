import BareMetal.Memory.Memp

/-! # `memp_init` on records

The pools of control blocks and the like hold records, which the rest of the stack reads by their fields. Here
`memp_init` works on these records instead of on bytes: the link of a free element lies over the first word of its
record, and the free elements are a list. That this list is the one that the bytes hold is `path_mempInitLoop`. -/

namespace BareMetal

variable {β : Type*} {setNext : ℕ → β → β} {elems tab : List ℕ} {block : ℕ → β} {a : ℕ}

/-- The inner loop of `memp_init` over the elements of a pool: the records, and `memp_tab` as the list of the free
elements. `setNext v` is what `memp->next = v` does to a record. -/
def mempInitLoop (setNext : ℕ → β → β) : List ℕ → (ℕ → β) → List ℕ → (ℕ → β) × List ℕ
  | [], block, tab => (block, tab)
  | memp :: elems, block, tab =>
      mempInitLoop setNext elems (Function.update block memp (setNext (tab.headD 0) (block memp))) (memp :: tab)

/-- Every element is free, the last one first. -/
theorem mempInitLoop_tab : (mempInitLoop setNext elems block tab).2 = elems.reverse ++ tab := by
  induction elems generalizing block tab with
  | nil => rfl
  | cons memp elems ih => rw [mempInitLoop, ih, List.reverse_cons, List.append_assoc, List.singleton_append]

/-- What does not read the first word of a record stays as it is. -/
theorem mempInitLoop_keeps {γ : Type*} (f : β → γ) (hf : ∀ v b, f (setNext v b) = f b) :
    f ((mempInitLoop setNext elems block tab).1 a) = f (block a) := by
  induction elems generalizing block tab with
  | nil => rfl
  | cons memp elems ih =>
      rw [mempInitLoop, ih]
      by_cases ha : a = memp
      · rw [ha, Function.update_self, hf]
      · rw [Function.update_of_ne ha]

/-- What is not an element is not written. -/
theorem mempInitLoop_of_notMem (ha : a ∉ elems) : (mempInitLoop setNext elems block tab).1 a = block a := by
  induction elems generalizing block tab with
  | nil => rfl
  | cons memp elems ih =>
      obtain ⟨hne, hl⟩ := not_or.mp (List.mem_cons.not.mp ha)
      rw [mempInitLoop, ih hl, Function.update_of_ne hne]

/-- Every element gets a link: the first one to what was free before, the others to an element. -/
theorem mempInitLoop_of_mem (hnd : elems.Nodup) (ha : a ∈ elems) :
    ∃ v, (mempInitLoop setNext elems block tab).1 a = setNext v (block a) ∧
      ((elems.head? = some a ∧ v = tab.headD 0) ∨ (elems.head? ≠ some a ∧ v ∈ elems)) := by
  induction elems generalizing block tab with
  | nil => exact absurd ha List.not_mem_nil
  | cons memp elems ih =>
      obtain ⟨hnot, hnd⟩ := List.nodup_cons.mp hnd
      rw [mempInitLoop]
      by_cases heq : memp = a
      · subst heq
        rw [mempInitLoop_of_notMem hnot, Function.update_self]
        exact ⟨_, rfl, .inl ⟨rfl, rfl⟩⟩
      · obtain ⟨v, hv, hlink⟩ := @ih (memp :: tab) (Function.update block memp (setNext (tab.headD 0) (block memp)))
          hnd ((List.mem_cons.mp ha).resolve_left (Ne.symm heq))
        refine ⟨v, hv.trans (by rw [Function.update_of_ne (Ne.symm heq)]), .inr ⟨?_, ?_⟩⟩
        · exact fun hhead => heq (Option.some.inj hhead)
        · rcases hlink with ⟨-, rfl⟩ | ⟨-, hmem⟩
          · exact List.mem_cons_self
          · exact List.mem_cons_of_mem memp hmem

/-- The free elements are those that `memp_init` threads through the bytes of `memp_memory`. -/
theorem path_mempInitLoop {c : Memp.Config} {memp t : ℕ} (hfits : c.Fits memp) (mem : ByteMem) (ht : t < c.mempMax) :
    Path (Memp.next (Memp.mempInit c memp mem).mem) ((Memp.mempInit c memp mem).mempTab t)
      (mempInitLoop setNext (c.elements memp t) block []).2 0 := by
  rw [mempInitLoop_tab, List.append_nil]
  exact Memp.path_mempInit hfits mem ht

end BareMetal
