import Mathlib.Data.List.Chain
import BareMetal.Ip.Reass

/-! # The queue of a datagram

What `ip_reass_chain_frag_into_datagram_and_validate` does with a new fragment: it is freed when it overlaps one of the
queue, and otherwise goes between the fragments that begin before it and those that begin behind it
(`chainFrag_spec`). The queue is taken for a whole datagram when it has no holes, except that nothing is asked of the
place in front of a fragment which goes between two others (`validDatagram_iff`). -/

namespace BareMetal.Ip

/-- `b` begins where `a` ends. -/
def Frag.Touches (a b : Frag) : Prop := a.stop = b.start

/-- The test for an overlap. -/
def Frag.Collides (a new : Frag) : Prop :=
  a.start = new.start ∨ a.start < new.start ∧ new.start < a.stop ∨ new.start < a.start ∧ a.start < new.stop

variable {new f prev : Frag} {q front behind : List Frag} {valid v lastfrag : Bool} {before : Option Frag}

/-- One round of the loop. -/
theorem chainFrag_cons (new : Frag) (before : Option Frag) (valid : Bool) (f : Frag) (q : List Frag) :
    chainFrag new before valid (f :: q) =
      if new.start < f.start then
        if before.any fun prev => new.start < prev.stop || f.start < new.stop then none else some ([], f :: q, valid)
      else if new.start = f.start then none
      else if new.start < f.stop then none
      else
        (chainFrag new (some f) (valid && before.all fun prev => prev.stop == f.start) q).map
          fun r => (f :: r.1, r.2.1, r.2.2) := by
  cases before <;> rfl

/-- A fragment that is freed collides with one of the queue. -/
theorem chainFrag_none (hbefore : ∀ prev ∈ before, prev.stop ≤ new.start) (h : chainFrag new before valid q = none) :
    ∃ f ∈ q, f.Collides new := by
  induction q generalizing before valid with
  | nil => cases before <;> cases h
  | cons f q ih =>
      rw [chainFrag_cons] at h
      -- the place of the new fragment is in front of `f`
      by_cases hlt : new.start < f.start
      · rw [if_pos hlt] at h
        cases before with
        | none => cases h
        | some prev =>
            have hprev : decide (new.start < prev.stop) = false :=
              decide_eq_false (UInt16.not_lt.mpr (hbefore prev rfl))
            rw [Option.any_some, hprev, Bool.false_or] at h
            split at h
            · rename_i hover
              exact ⟨f, List.mem_cons_self, .inr (.inr ⟨hlt, of_decide_eq_true hover⟩)⟩
            · cases h
      rw [if_neg hlt] at h
      -- it begins where `f` begins
      by_cases heq : new.start = f.start
      · exact ⟨f, List.mem_cons_self, .inl heq.symm⟩
      rw [if_neg heq] at h
      -- it begins inside `f`
      by_cases hover : new.start < f.stop
      · have hle : f.start < new.start := UInt16.lt_of_le_of_ne (UInt16.not_lt.mp hlt) (Ne.symm heq)
        exact ⟨f, List.mem_cons_self, .inr (.inl ⟨hle, hover⟩)⟩
      -- it is behind `f`
      rw [if_neg hover, Option.map_eq_none_iff] at h
      have hstop : ∀ prev ∈ some f, prev.stop ≤ new.start := by
        rintro prev ⟨rfl⟩
        exact UInt16.not_lt.mp hover
      obtain ⟨g, hg, hcollides⟩ := ih hstop h
      exact ⟨g, List.mem_cons_of_mem f hg, hcollides⟩

/-- **The place of a fragment.** It comes behind the fragments that begin before it, and `valid` says that there are
no holes between these, nor behind them if there are no others. -/
theorem chainFrag_spec (h : chainFrag new before valid q = some (front, behind, v)) :
    q = front ++ behind ∧ (∀ f ∈ front, f.start < new.start) ∧ (∀ f ∈ behind.head?, new.start < f.start) ∧
      (v = true ↔ valid = true ∧ (before.toList ++ front).IsChain Frag.Touches ∧
        (behind = [] → ∀ f ∈ (before.toList ++ front).getLast?, f.Touches new)) := by
  induction q generalizing before valid front with
  | nil =>
      cases before with
      | none =>
          obtain ⟨rfl, hrest⟩ := Prod.mk.inj (Option.some.inj h)
          obtain ⟨rfl, rfl⟩ := Prod.mk.inj hrest
          simp
      | some prev =>
          obtain ⟨rfl, hrest⟩ := Prod.mk.inj (Option.some.inj h)
          obtain ⟨rfl, rfl⟩ := Prod.mk.inj hrest
          simp [Frag.Touches]
  | cons f q ih =>
      rw [chainFrag_cons] at h
      -- the place of the new fragment is in front of `f`
      by_cases hlt : new.start < f.start
      · rw [if_pos hlt] at h
        split at h
        · cases h
        · obtain ⟨rfl, hrest⟩ := Prod.mk.inj (Option.some.inj h)
          obtain ⟨rfl, rfl⟩ := Prod.mk.inj hrest
          refine ⟨rfl, fun g hg => absurd hg List.not_mem_nil, fun g hg => ?_, ?_⟩
          · obtain rfl := Option.some.inj hg
            exact hlt
          · cases before <;> simp
      rw [if_neg hlt] at h
      -- behind `f`, which it does not overlap
      by_cases heq : new.start = f.start
      · rw [if_pos heq] at h
        cases h
      rw [if_neg heq] at h
      split at h
      · cases h
      obtain ⟨⟨front', behind', v'⟩, hrec, hmap⟩ := Option.map_eq_some_iff.mp h
      obtain ⟨rfl, hrest⟩ := Prod.mk.inj hmap
      obtain ⟨rfl, rfl⟩ := Prod.mk.inj hrest
      obtain ⟨rfl, hfront, hbehind, hvalid⟩ := ih hrec
      refine ⟨rfl, fun g hg => ?_, hbehind, ?_⟩
      · rcases List.mem_cons.mp hg with rfl | hg
        · exact UInt16.lt_of_le_of_ne (UInt16.not_lt.mp hlt) (Ne.symm heq)
        · exact hfront g hg
      · rw [hvalid]
        cases before with
        | none => simp
        | some prev => simp [Frag.Touches, List.isChain_cons_cons, and_assoc]

/-- The loop behind the new fragment looks for a hole. -/
theorem noHoles_iff (f : Frag) (l : List Frag) : noHoles f l = true ↔ (f :: l).IsChain Frag.Touches := by
  induction l generalizing f with
  | nil => simp [noHoles]
  | cons g l ih =>
      rw [noHoles, List.isChain_cons_cons, ← ih g]
      by_cases hstop : f.stop = g.start
      · simp [hstop, Frag.Touches]
      · simp [hstop, Frag.Touches]

/-- The queue begins at the start of the datagram and has no holes, but perhaps in front of the new fragment. -/
theorem validDatagram_iff (h : chainFrag new none true q = some (front, behind, v)) :
    validDatagram lastfrag v new front behind = true ↔
      lastfrag = true ∧ (∃ f ∈ (front ++ [new]).head?, f.start = 0) ∧ front.IsChain Frag.Touches ∧
        (new :: behind).IsChain Frag.Touches ∧ (behind = [] → ∀ f ∈ front.getLast?, f.Touches new) := by
  obtain ⟨-, -, -, hvalid⟩ := chainFrag_spec h
  rw [Option.toList_none, List.nil_append] at hvalid
  simp only [validDatagram, Bool.and_eq_true, noHoles_iff, hvalid, true_and]
  cases hhead : (front ++ [new]).head? with
  | none => simp
  | some f =>
      simp only [Option.any_some, beq_iff_eq, Option.mem_def, Option.some.injEq, exists_eq_left']
      tauto

end BareMetal.Ip
