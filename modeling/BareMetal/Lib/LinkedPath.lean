import Mathlib.Data.List.Nodup
import Mathlib.Logic.Function.Basic

/-! # Linked lists as paths of a `next` function

`Path next a l b` says that following `next` from `a` meets exactly the nodes of `l`, in order, and
then arrives at `b`. With `b` a null pointer this is a singly linked list with head `a`; with `b` an
inner node it is a segment of one. A path to an address outside the list never repeats a node
(`Path.nodup`), so a well-ended list is acyclic, and it is the only one from its head
(`Path.unique`). The edits of list code are `Path.push`, `Path.concat`, `Path.insertAfter`, `Path.unlink`,
`Path.toFront`, `Path.cut` and `path_update`; its loops are `findNode`, `findPrev`, `lastNode`, `insertBefore` and `walk`,
which end on a list that ends in null (`findNode_eq`, `findPrev_eq`, `lastNode_eq`, `insertBefore_eq`,
`walk_eq`). -/

namespace BareMetal

variable {α : Type*}

/-- Following `next` from `a` meets the nodes `l` and arrives at `b`. -/
def Path (next : α → α) : α → List α → α → Prop
  | a, [], b => a = b
  | a, x :: l, b => a = x ∧ Path next (next x) l b

variable {next next' : α → α} {a b c x y p : α} {l l' l₁ l₂ : List α}

/-- A path without nodes stays where it is. -/
@[simp] theorem path_nil : Path next a [] b ↔ a = b := Iff.rfl

/-- The first node and the path behind it. -/
@[simp] theorem path_cons : Path next a (x :: l) b ↔ a = x ∧ Path next (next x) l b := Iff.rfl

/-- A path splits at every point. -/
theorem path_append : Path next a (l₁ ++ l₂) b ↔ ∃ c, Path next a l₁ c ∧ Path next c l₂ b := by
  induction l₁ generalizing a with
  | nil => simp
  | cons x l₁ ih => simp only [List.cons_append, path_cons, ih, and_assoc, exists_and_left]

/-- A path depends on `next` at its own nodes only. -/
theorem path_congr (h : ∀ x ∈ l, next x = next' x) : Path next a l b ↔ Path next' a l b := by
  induction l generalizing a with
  | nil => exact Iff.rfl
  | cons x l ih =>
      rw [path_cons, path_cons, h x List.mem_cons_self, ih fun y hy => h y (List.mem_cons_of_mem x hy)]

/-- Two paths from one head to one end that lies on neither of them are the same. -/
theorem Path.unique (h : Path next a l b) (h' : Path next a l' b) (hb : b ∉ l) (hb' : b ∉ l') :
    l = l' := by
  induction l generalizing a l' with
  | nil =>
      obtain rfl := path_nil.mp h
      cases l' with
      | nil => rfl
      | cons y l' => exact absurd (h'.1 ▸ List.mem_cons_self) hb'
  | cons x l ih =>
      cases l' with
      | nil =>
          obtain rfl := path_nil.mp h'
          exact absurd (h.1 ▸ List.mem_cons_self) hb
      | cons y l' =>
          obtain rfl : x = y := h.1.symm.trans h'.1
          rw [ih h.2 h'.2 (fun hm => hb (List.mem_cons_of_mem x hm))
            fun hm => hb' (List.mem_cons_of_mem x hm)]

/-- A path that does not meet the end of another one from the same head is the beginning of it. -/
theorem Path.prefix (h : Path next a l b) (h' : Path next a l' c) (hc : c ∉ l) :
    ∃ l₂, l' = l ++ l₂ ∧ Path next b l₂ c := by
  induction l generalizing a l' with
  | nil =>
      obtain rfl := path_nil.mp h
      exact ⟨l', rfl, h'⟩
  | cons x l ih =>
      cases l' with
      | nil =>
          obtain rfl := path_nil.mp h'
          exact absurd (h.1 ▸ List.mem_cons_self) hc
      | cons y l' =>
          obtain rfl : x = y := h.1.symm.trans h'.1
          obtain ⟨l₂, rfl, hrest⟩ := ih h.2 h'.2 fun hm => hc (List.mem_cons_of_mem x hm)
          exact ⟨l₂, rfl, hrest⟩

/-- A path that ends outside itself repeats no node. -/
theorem Path.nodup (h : Path next a l b) (hb : b ∉ l) : l.Nodup := by
  induction l generalizing a with
  | nil => exact List.nodup_nil
  | cons x l ih =>
      have hbl : b ∉ l := fun hm => hb (List.mem_cons_of_mem x hm)
      refine List.nodup_cons.mpr ⟨fun hx => ?_, ih h.2 hbl⟩
      -- a second visit of `x` would give a second, shorter path from `x`
      obtain ⟨l₁, l₂, rfl⟩ := List.append_of_mem hx
      obtain ⟨c, -, hc⟩ := path_append.mp h.2
      obtain rfl := hc.1
      have hlong : Path next c (c :: (l₁ ++ c :: l₂)) b := path_cons.mpr ⟨rfl, h.2⟩
      have := congrArg List.length
        (hlong.unique (path_cons.mpr ⟨rfl, hc.2⟩) hb fun hm => hbl (List.mem_append_right l₁ hm))
      simp at this
      omega

/-- A set of nodes closed under `next` that avoids `b` has no path to `b`. -/
theorem not_path_of_closed {S : Set α} (hS : ∀ x ∈ S, next x ∈ S) (hb : b ∉ S) (ha : a ∈ S) :
    ¬ Path next a l b := by
  induction l generalizing a with
  | nil => rintro rfl; exact hb ha
  | cons x l ih =>
      rintro ⟨rfl, h⟩
      exact ih (hS a ha) h

/-- A path begins with its first node. -/
theorem Path.head_eq (h : Path next a l b) : a = l.headD b := by
  cases l with
  | nil => exact h
  | cons x l => exact h.1

/-- The link of a node leads to the next one. -/
theorem Path.next_eq (h : Path next a (l₁ ++ x :: l₂) b) : next x = l₂.headD b := by
  obtain ⟨c, -, rfl, h₂⟩ := path_append.mp h
  exact h₂.head_eq

/-- A list that ends in `b` is empty when its head is `b`. -/
theorem Path.head_eq_iff (h : Path next a l b) (hb : b ∉ l) : a = b ↔ l = [] := by
  cases l with
  | nil => exact iff_of_true h rfl
  | cons x l => exact iff_of_false (fun heq => hb (heq ▸ h.1 ▸ List.mem_cons_self)) (List.cons_ne_nil x l)

/-- A path stays in a set that `next` leaves only at the end of the path. -/
theorem Path.subset {S : Set α} (h : Path next a l b) (hb : b ∉ l) (hS : ∀ x ∈ S, next x = b ∨ next x ∈ S)
    (ha : a ∈ S) : ∀ x ∈ l, x ∈ S := by
  induction l generalizing a with
  | nil => exact fun x hx => absurd hx List.not_mem_nil
  | cons y l ih =>
      obtain ⟨rfl, h⟩ := path_cons.mp h
      have hbl : b ∉ l := fun hm => hb (List.mem_cons_of_mem a hm)
      intro x hx
      rcases List.mem_cons.mp hx with rfl | hx
      · exact ha
      · rcases hS a ha with hnext | hnext
        · -- the path has ended
          cases l with
          | nil => exact absurd hx List.not_mem_nil
          | cons z l => exact absurd (hnext ▸ (path_cons.mp h).1 ▸ List.mem_cons_self) hbl
        · exact ih h hbl hnext x hx

/-- Every node but the first has a predecessor on the path. -/
theorem Path.exists_pred (h : Path next a l b) (hx : x ∈ l) (hne : a ≠ x) : ∃ p ∈ l, next p = x := by
  induction l generalizing a with
  | nil => exact absurd hx List.not_mem_nil
  | cons y l ih =>
      obtain ⟨rfl, h⟩ := path_cons.mp h
      have hx : x ∈ l := (List.mem_cons.mp hx).resolve_left (Ne.symm hne)
      by_cases hnext : next a = x
      · exact ⟨a, List.mem_cons_self, hnext⟩
      · obtain ⟨p, hp, hpx⟩ := ih h hx hnext
        exact ⟨p, List.mem_cons_of_mem a hp, hpx⟩

/-- The node that `next` leads to is the next one on the path. -/
theorem Path.split_of_next (h : Path next a l b) (hp : p ∈ l) (hnext : next p = x) (hx : x ≠ b) :
    ∃ l₁ l₂, l = l₁ ++ p :: x :: l₂ := by
  obtain ⟨l₁, l₂, rfl⟩ := List.append_of_mem hp
  obtain ⟨c, -, rfl, hrest⟩ := path_append.mp h
  cases l₂ with
  | nil => exact absurd (hnext.symm.trans (path_nil.mp hrest)) hx
  | cons y l₂ =>
      obtain rfl : y = x := (path_cons.mp hrest).1.symm.trans hnext
      exact ⟨l₁, l₂, rfl⟩

section Update

variable [DecidableEq α]

/-- Changing the link of a node that is not on the path keeps the path. -/
theorem path_update (hx : x ∉ l) : Path (Function.update next x c) a l b ↔ Path next a l b :=
  path_congr fun y hy => Function.update_of_ne (fun h : y = x => hx (h ▸ hy)) c next

/-- Link a new node in front. -/
theorem Path.push (h : Path next a l b) (hx : x ∉ l) : Path (Function.update next x a) x (x :: l) b := by
  rw [path_cons, Function.update_self]
  exact ⟨rfl, (path_update hx).mpr h⟩

/-- Lead the last node of a path elsewhere. -/
theorem Path.redirect (h : Path next a l b) (hb : b ∉ l) (hne : l ≠ [])
    (hnext : ∀ x ∈ l, next' x = if next x = b then c else next x) : Path next' a l c := by
  induction l generalizing a with
  | nil => exact absurd rfl hne
  | cons x l ih =>
      obtain ⟨rfl, h⟩ := path_cons.mp h
      refine path_cons.mpr ⟨rfl, ?_⟩
      rw [hnext a List.mem_cons_self]
      cases l with
      | nil => rw [if_pos (path_nil.mp h), path_nil]
      | cons y l =>
          have hbl : b ∉ y :: l := fun hm => hb (List.mem_cons_of_mem a hm)
          have hy : next a ≠ b := fun heq => hbl (heq ▸ (path_cons.mp h).1 ▸ List.mem_cons_self)
          rw [if_neg hy]
          exact ih h hbl (List.cons_ne_nil y l) fun x hx => hnext x (List.mem_cons_of_mem a hx)

/-- Lead the last node `p` of a list to the head of another one. -/
theorem Path.concat (h : Path next a (l ++ [p]) b) (h' : Path next c l' x) (hp : p ∉ l) (hp' : p ∉ l') :
    Path (Function.update next p c) a (l ++ [p] ++ l') x := by
  obtain ⟨d, h₁, rfl, -⟩ := path_append.mp h
  rw [List.append_assoc]
  refine path_append.mpr ⟨d, (path_update hp).mpr h₁, rfl, ?_⟩
  rw [Function.update_self]
  exact (path_update hp').mpr h'

/-- Link a new node in behind `p`. -/
theorem Path.insertAfter (h : Path next a (l₁ ++ p :: l₂) b) (hnd : (l₁ ++ p :: l₂).Nodup)
    (hx : x ∉ l₁ ++ p :: l₂) :
    Path (Function.update (Function.update next x (next p)) p x) a (l₁ ++ p :: x :: l₂) b := by
  obtain ⟨c, h₁, rfl, h₂⟩ := path_append.mp h
  have hp₁ : c ∉ l₁ := fun hm => (List.nodup_append.mp hnd).2.2 c hm c List.mem_cons_self rfl
  have hp₂ : c ∉ l₂ := (List.nodup_cons.mp (List.nodup_append.mp hnd).2.1).1
  have hx₁ : x ∉ l₁ := fun hm => hx (List.mem_append_left _ hm)
  have hx₂ : x ∉ l₂ := fun hm => hx (List.mem_append_right _ (List.mem_cons_of_mem c hm))
  have hxc : x ≠ c := by
    rintro rfl
    exact hx (List.mem_append_right _ List.mem_cons_self)
  refine path_append.mpr ⟨c, (path_update hp₁).mpr ((path_update hx₁).mpr h₁), rfl, ?_⟩
  rw [Function.update_self, path_cons, Function.update_of_ne hxc, Function.update_self]
  exact ⟨rfl, (path_update hp₂).mpr ((path_update hx₂).mpr h₂)⟩

/-- Link the node after `p` out. -/
theorem Path.unlink (h : Path next a (l₁ ++ p :: x :: l₂) b) (hnd : (l₁ ++ p :: x :: l₂).Nodup) :
    Path (Function.update next p (next x)) a (l₁ ++ p :: l₂) b := by
  obtain ⟨c, h₁, rfl, hx, h₂⟩ := path_append.mp h
  have hp₁ : c ∉ l₁ := fun hm => (List.nodup_append.mp hnd).2.2 c hm c List.mem_cons_self rfl
  have hp₂ : c ∉ l₂ := fun hm =>
    (List.nodup_cons.mp (List.nodup_append.mp hnd).2.1).1 (List.mem_cons_of_mem x hm)
  refine path_append.mpr ⟨c, (path_update hp₁).mpr h₁, rfl, ?_⟩
  rw [Function.update_self]
  exact (path_update hp₂).mpr h₂

/-- The nodes of a list up to `x`, or all of them. -/
def upTo (x : α) : List α → List α
  | [] => []
  | y :: l => if y = x then [x] else y :: upTo x l

/-- A part of the list. -/
theorem mem_of_mem_upTo (hy : y ∈ upTo x l) : y ∈ l := by
  induction l with
  | nil => exact hy
  | cons z l ih =>
      rw [upTo] at hy
      split at hy
      · next heq => exact List.mem_cons.mpr (.inl ((List.mem_singleton.mp hy).trans heq.symm))
      · rcases List.mem_cons.mp hy with rfl | hy
        · exact List.mem_cons_self
        · exact List.mem_cons_of_mem z (ih hy)

/-- The node itself is in it. -/
theorem mem_upTo_self (hx : x ∈ l) : x ∈ upTo x l := by
  induction l with
  | nil => exact hx
  | cons z l ih =>
      rw [upTo]
      split
      · exact List.mem_singleton_self x
      · next hne => exact List.mem_cons_of_mem z (ih ((List.mem_cons.mp hx).resolve_left (Ne.symm hne)))

/-- It is no longer than the list. -/
theorem length_upTo_le (x : α) (l : List α) : (upTo x l).length ≤ l.length := by
  induction l with
  | nil => exact Nat.le_refl 0
  | cons y l ih =>
      rw [upTo]
      split
      · exact Nat.succ_le_succ (Nat.zero_le _)
      · exact Nat.succ_le_succ ih

/-- A node that is not there cuts nothing off. -/
theorem upTo_of_notMem (hx : x ∉ l) : upTo x l = l := by
  induction l with
  | nil => rfl
  | cons y l ih =>
      obtain ⟨hne, hl⟩ := not_or.mp (List.mem_cons.not.mp hx)
      rw [upTo, if_neg (Ne.symm hne), ih hl]

/-- A list that loses the link of `x` ends there. -/
theorem Path.cut (h : Path next a l b) : Path (Function.update next x b) a (upTo x l) b := by
  induction l generalizing a with
  | nil => exact h
  | cons y l ih =>
      obtain ⟨rfl, h⟩ := path_cons.mp h
      rw [upTo]
      split
      · next heq => exact path_cons.mpr ⟨heq, path_nil.mpr (Function.update_self ..)⟩
      · next hne =>
          refine path_cons.mpr ⟨rfl, ?_⟩
          rw [Function.update_of_ne hne]
          exact ih h

/-- The path up to a node begins where the path does. -/
theorem Path.head_mem_upTo (h : Path next a l b) (hx : x ∈ l) : a ∈ upTo x l := by
  cases l with
  | nil => exact absurd hx List.not_mem_nil
  | cons y l =>
      rw [(path_cons.mp h).1, upTo]
      split <;> simp [*]

/-- In front of `x`, every link leads to a node up to `x`. -/
theorem Path.next_mem_upTo (h : Path next a l b) (hx : x ∈ l) (hy : y ∈ upTo x l) (hne : y ≠ x) :
    next y ∈ upTo x l := by
  induction l generalizing a with
  | nil => exact absurd hx List.not_mem_nil
  | cons z l ih =>
      obtain ⟨rfl, h⟩ := path_cons.mp h
      rw [upTo] at hy ⊢
      split at hy
      · exact absurd (List.mem_singleton.mp hy) hne
      · next hax =>
          have hxl := (List.mem_cons.mp hx).resolve_left (Ne.symm hax)
          rw [if_neg hax]
          rcases List.mem_cons.mp hy with rfl | hy
          · exact List.mem_cons_of_mem y (h.head_mem_upTo hxl)
          · exact List.mem_cons_of_mem a (ih h hxl hy)

/-- Linking a node of the list in front once more closes a ring, which does not lead to the end any more. -/
theorem Path.not_push (h : Path next a l b) (hb : b ∉ l) (hx : x ∈ l) (l' : List α) :
    ¬Path (Function.update next x a) x l' b := by
  refine not_path_of_closed (S := fun y => y ∈ upTo x l) (fun y hy => ?_) (fun hm => hb (mem_of_mem_upTo hm))
    (mem_upTo_self hx)
  by_cases hyx : y = x
  · rw [hyx, Function.update_self]
    exact h.head_mem_upTo hx
  · rw [Function.update_of_ne hyx]
    exact h.next_mem_upTo hx hy hyx

/-- Link the node after `p` out and in again in front. -/
theorem Path.toFront (h : Path next a (l₁ ++ p :: x :: l₂) b) (hnd : (l₁ ++ p :: x :: l₂).Nodup) :
    Path (Function.update (Function.update next p (next x)) x a) x (x :: (l₁ ++ p :: l₂)) b := by
  have hperm : (l₁ ++ p :: x :: l₂).Perm (x :: (l₁ ++ p :: l₂)) := by
    rw [List.append_cons, List.append_cons l₁ p l₂]
    exact List.perm_middle
  exact (h.unlink hnd).push (List.nodup_cons.mp (hperm.nodup hnd)).1

end Update

section Walk

variable [DecidableEq α] {null : α} {f : α → Bool} {fuel : ℕ}

/-- `for (x = a; x != null; x = next(x)) if (f(x)) return x;`, at most `fuel` times round; `none` when the
loop is still going then. -/
def findNode (null : α) (next : α → α) (f : α → Bool) : ℕ → α → Option (Option α)
  | 0, a => if a = null then some none else none
  | fuel + 1, a =>
      if a = null then some none
      else if f a then some (some a)
      else findNode null next f fuel (next a)

/-- `for (prev = null, x = a; x != null; prev = x, x = next(x)) if (f(x)) break;` with its two variables behind
the loop; `none` when the loop is still going after `fuel` rounds. -/
def findPrev (null : α) (next : α → α) (f : α → Bool) : ℕ → α → α → Option (α × α)
  | 0, prev, a => if a = null then some (prev, a) else none
  | fuel + 1, prev, a =>
      if a = null then some (prev, a)
      else if f a then some (prev, a)
      else findPrev null next f fuel a (next a)

/-- `for (cur = &a; *cur != null && !f(*cur); cur = &next(*cur)); next(x) = *cur; *cur = x;`: the head and the
links behind it. `cur` points to the head as long as there is no node before; `none` when the loop is still
going after `fuel` rounds. -/
def insertBefore (null : α) (next : α → α) (f : α → Bool) (fuel : ℕ) (x a : α) : Option (α × (α → α)) :=
  (findPrev null next f fuel null a).map fun ⟨prev, cur⟩ =>
    let next := Function.update next x cur
    if prev = null then (x, next) else (a, Function.update next prev x)

/-- `for (x = a; next(x) != null; x = next(x));` on a list that is not empty, null on the empty one; `none` when
the loop is still going after `fuel` rounds. -/
def lastNode (null : α) (next : α → α) (fuel : ℕ) (a : α) : Option α :=
  (findNode null next (fun x => next x == null) fuel a).map (·.getD null)

/-- The nodes that `for (x = a; x != null; x = next(x))` visits, at most `fuel` times round; `none` when
the loop is still going then. -/
def walk (null : α) (next : α → α) : ℕ → α → Option (List α)
  | 0, a => if a = null then some [] else none
  | fuel + 1, a => if a = null then some [] else (walk null next fuel (next a)).map (a :: ·)

/-- On a list that ends in null, the search comes to its end with the first node that satisfies `f`. -/
theorem findNode_eq (h : Path next a l null) (hnull : null ∉ l) (hfuel : l.length ≤ fuel) :
    findNode null next f fuel a = some (l.find? f) := by
  induction l generalizing a fuel with
  | nil =>
      obtain rfl := path_nil.mp h
      cases fuel <;> simp [findNode]
  | cons x l ih =>
      obtain ⟨rfl, h⟩ := path_cons.mp h
      obtain ⟨hne, hl⟩ := not_or.mp (List.mem_cons.not.mp hnull)
      obtain ⟨fuel, rfl⟩ := Nat.exists_eq_add_of_lt (Nat.lt_of_lt_of_le (Nat.succ_pos _) hfuel)
      rw [Nat.zero_add, findNode, if_neg (Ne.symm hne), List.find?_cons]
      cases f a with
      | true => rfl
      | false => exact ih h hl (by simpa using hfuel)

/-- On a list that ends in null, the search ends in null, or at the first node that satisfies `f` with the
node before it. -/
theorem findPrev_eq (h : Path next a l null) (hnull : null ∉ l) (hfuel : l.length ≤ fuel) (prev : α) :
    (l.find? f = none ∧ ∃ p, findPrev null next f fuel prev a = some (p, null)) ∨
      ∃ l₁ x l₂, l = l₁ ++ x :: l₂ ∧ l.find? f = some x ∧
        findPrev null next f fuel prev a = some (l₁.getLastD prev, x) := by
  induction l generalizing a fuel prev with
  | nil =>
      obtain rfl := path_nil.mp h
      refine .inl ⟨rfl, prev, ?_⟩
      cases fuel <;> simp [findPrev]
  | cons x l ih =>
      obtain ⟨rfl, h⟩ := path_cons.mp h
      obtain ⟨hne, hl⟩ := not_or.mp (List.mem_cons.not.mp hnull)
      obtain ⟨fuel, rfl⟩ := Nat.exists_eq_add_of_lt (Nat.lt_of_lt_of_le (Nat.succ_pos _) hfuel)
      rw [Nat.zero_add, findPrev, if_neg (Ne.symm hne), List.find?_cons]
      cases f a with
      | true => exact .inr ⟨[], a, l, rfl, rfl, rfl⟩
      | false =>
          rw [if_neg Bool.false_ne_true]
          refine (ih h hl (by simpa using hfuel) a).imp_right ?_
          rintro ⟨l₁, x, l₂, rfl, hfind, hrun⟩
          exact ⟨a :: l₁, x, l₂, rfl, hfind, by rw [hrun, List.getLastD_cons]⟩

/-- On a list without repetition, the search for the link to `x` finds the node before `x`. -/
theorem Path.find?_pred (h : Path next a (l₁ ++ p :: x :: l₂) b) (hnd : (l₁ ++ p :: x :: l₂).Nodup) :
    (l₁ ++ p :: x :: l₂).find? (fun y => next y == x) = some p := by
  obtain ⟨c, h₁, rfl, hpx⟩ := path_append.mp h
  have hdisj := (List.nodup_append.mp hnd).2.2
  have hx : x ∈ c :: x :: l₂ := List.mem_cons_of_mem c List.mem_cons_self
  have hbefore : l₁.find? (fun y => next y == x) = none := by
    refine List.find?_eq_none.mpr fun y hy hyx => ?_
    -- an earlier node with this link would have `x` behind it, before `c` or in its place
    obtain ⟨k₁, k₂, rfl⟩ := List.append_of_mem hy
    obtain ⟨d, -, rfl, hnext⟩ := path_append.mp h₁
    rw [beq_iff_eq.mp hyx] at hnext
    cases k₂ with
    | nil =>
        obtain rfl := path_nil.mp hnext
        exact (List.nodup_cons.mp (List.nodup_append.mp hnd).2.1).1 List.mem_cons_self
    | cons z k₂ =>
        obtain rfl := (path_cons.mp hnext).1
        exact hdisj x (by simp) x hx rfl
  rw [List.find?_append, hbefore, Option.none_or, List.find?_cons_of_pos (by simpa using (path_cons.mp hpx).1)]

/-- The last node of a list that ends in null is the one with the null link. -/
theorem Path.find?_next_eq_null (h : Path next a l null) (hnull : null ∉ l) :
    l.find? (fun x => next x == null) = l.getLast? := by
  induction l generalizing a with
  | nil => rfl
  | cons x l ih =>
      obtain ⟨rfl, h⟩ := path_cons.mp h
      have hl : null ∉ l := fun hm => hnull (List.mem_cons_of_mem a hm)
      cases l with
      | nil => simp [path_nil.mp h]
      | cons y l =>
          have hne : next a ≠ null := fun heq => hl (heq ▸ (path_cons.mp h).1 ▸ List.mem_cons_self)
          rw [List.find?_cons_of_neg (by simpa using hne), ih h hl, List.getLast?_cons_cons]

/-- On a list that ends in null, the loop ends on the last node. -/
theorem lastNode_eq (h : Path next a l null) (hnull : null ∉ l) (hfuel : l.length ≤ fuel) :
    lastNode null next fuel a = some (l.getLastD null) := by
  rw [lastNode, findNode_eq h hnull hfuel, h.find?_next_eq_null hnull, Option.map_some,
    List.getLastD_eq_getLast?]

/-- The two variables behind the search, in terms of the nodes that do not satisfy `f` and of the rest. -/
theorem findPrev_takeWhile (h : Path next a l null) (hnull : null ∉ l) (hfuel : l.length ≤ fuel) (prev : α) :
    findPrev null next f fuel prev a =
      some ((l.takeWhile (!f ·)).getLastD prev, (l.dropWhile (!f ·)).headD null) := by
  induction l generalizing a fuel prev with
  | nil =>
      obtain rfl := path_nil.mp h
      cases fuel <;> simp [findPrev]
  | cons x l ih =>
      obtain ⟨rfl, h⟩ := path_cons.mp h
      obtain ⟨hne, hl⟩ := not_or.mp (List.mem_cons.not.mp hnull)
      obtain ⟨fuel, rfl⟩ := Nat.exists_eq_add_of_lt (Nat.lt_of_lt_of_le (Nat.succ_pos _) hfuel)
      rw [Nat.zero_add, findPrev, if_neg (Ne.symm hne)]
      by_cases hf : f a = true
      · rw [if_pos hf, List.takeWhile_cons_of_neg (by simp [hf]), List.dropWhile_cons_of_neg (by simp [hf])]
        rfl
      · rw [if_neg hf, List.takeWhile_cons_of_pos (by simp [hf]), List.dropWhile_cons_of_pos (by simp [hf]),
          List.getLastD_cons]
        exact ih h hl (by simpa using hfuel) a

/-- On a list that ends in null, the new node comes to stand in front of the first one that satisfies `f`, and
only links of the list change. -/
theorem insertBefore_eq (h : Path next a l null) (hnull : null ∉ l) (hfuel : l.length ≤ fuel) (hx : x ∉ l) :
    ∃ head next', insertBefore null next f fuel x a = some (head, next') ∧
      Path next' head (l.takeWhile (!f ·) ++ x :: l.dropWhile (!f ·)) null ∧
      ∀ y, y ≠ x → y ∉ l → next' y = next y := by
  have hsplit : l.takeWhile (!f ·) ++ l.dropWhile (!f ·) = l := List.takeWhile_append_dropWhile
  rw [insertBefore, findPrev_takeWhile h hnull hfuel]
  generalize l.takeWhile (!f ·) = l₁ at hsplit ⊢
  generalize l.dropWhile (!f ·) = l₂ at hsplit ⊢
  subst hsplit
  obtain ⟨c, h₁, h₂⟩ := path_append.mp h
  have hc : l₂.headD null = c := by
    cases l₂ with
    | nil => exact (path_nil.mp h₂).symm
    | cons y l₂ => exact (path_cons.mp h₂).1.symm
  rw [hc]
  rcases List.eq_nil_or_concat' l₁ with rfl | ⟨l₁, p, rfl⟩
  · -- in front of the whole list
    obtain rfl := path_nil.mp h₁
    refine ⟨x, Function.update next x a, ?_, h₂.push hx, fun y hy _ => Function.update_of_ne hy _ _⟩
    simp
  · -- behind `p`
    rw [List.append_assoc, List.singleton_append] at h hnull hx
    have hpc : next p = c := by
      obtain ⟨d, -, rfl, hd⟩ := path_append.mp h₁
      exact path_nil.mp hd
    have hpn : p ≠ null := fun heq => hnull (heq ▸ List.mem_append_right _ List.mem_cons_self)
    have hins := h.insertAfter (h.nodup hnull) hx
    rw [hpc] at hins
    refine ⟨a, Function.update (Function.update next x c) p x, ?_, by simpa using hins, ?_⟩
    · simp [hpn]
    · intro y hyx hyl
      have hyp : y ≠ p := fun heq => hyl (heq ▸ by simp)
      rw [Function.update_of_ne hyp, Function.update_of_ne hyx]

/-- On a list that ends in null, the loop visits the nodes of the list. -/
theorem walk_eq (h : Path next a l null) (hnull : null ∉ l) (hfuel : l.length ≤ fuel) :
    walk null next fuel a = some l := by
  induction l generalizing a fuel with
  | nil =>
      obtain rfl := path_nil.mp h
      cases fuel <;> simp [walk]
  | cons x l ih =>
      obtain ⟨rfl, h⟩ := path_cons.mp h
      obtain ⟨hne, hl⟩ := not_or.mp (List.mem_cons.not.mp hnull)
      obtain ⟨fuel, rfl⟩ := Nat.exists_eq_add_of_lt (Nat.lt_of_lt_of_le (Nat.succ_pos _) hfuel)
      rw [Nat.zero_add, walk, if_neg (Ne.symm hne), ih h hl (by simpa using hfuel), Option.map_some]

end Walk

end BareMetal
