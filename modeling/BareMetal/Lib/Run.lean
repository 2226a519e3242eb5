import Mathlib.Data.List.Basic
import Mathlib.Data.Option.Basic
import Mathlib.Logic.Function.Basic

/-! # Runs of event-driven machines

A machine is a partial step function `step : σ → ε → Option σ`: `none` says that the event is not
enabled in the state. `run step s es` feeds a whole list of events to the machine, and
`RunMeets step G s es` says that every event of the list is taken in a state where the guard `G`
allows it. The two rules every development over such a machine uses are here: an invariant that one
step keeps is kept by a run (`run_invariant`), also when the step lemma needs the guard
(`run_invariant_of_meets`); `exists_run_of_meets` says in addition that the run gets to its end.
`runMeets_iff` is for a property that a run
loses exactly where the guard fails.

A counted loop `for (i = 0; i < n; ++i)` is `forLoop body n`, with its own rule
`forLoop_invariant`; `forLoop_update_apply` is for the loops that fill a table. -/

namespace BareMetal

variable {σ ε : Type*}

/-- Feed a list of events to the machine; `none` as soon as one of them is not enabled. -/
def run (step : σ → ε → Option σ) : σ → List ε → Option σ
  | s, [] => some s
  | s, e :: es => (step s e).bind fun s' => run step s' es

/-- Every event of the run is taken in a state where `G` allows it. -/
def RunMeets (step : σ → ε → Option σ) (G : σ → ε → Prop) : σ → List ε → Prop
  | _, [] => True
  | s, e :: es => G s e ∧ ∀ s', step s e = some s' → RunMeets step G s' es

variable {step : σ → ε → Option σ} {G : σ → ε → Prop} {s s' : σ} {e : ε} {es es' : List ε}

/-- A run without events. -/
@[simp] theorem run_nil (s : σ) : run step s [] = some s := rfl

/-- A run without events meets anything. -/
@[simp] theorem runMeets_nil (s : σ) : RunMeets step G s [] := trivial

/-- The first event and the run behind it. -/
theorem run_cons : run step s (e :: es) = (step s e).bind fun t => run step t es := rfl

/-- A run that starts with `e` is a step on `e` followed by a run. -/
theorem run_cons_eq_some :
    run step s (e :: es) = some s' ↔ ∃ t, step s e = some t ∧ run step t es = some s' := by
  rw [run_cons, Option.bind_eq_some_iff]

/-- Runs compose. -/
theorem run_append (s : σ) (es es' : List ε) :
    run step s (es ++ es') = (run step s es).bind fun t => run step t es' := by
  induction es generalizing s with
  | nil => rfl
  | cons e es ih =>
      rw [List.cons_append, run_cons, run_cons, Option.bind_assoc]
      exact congrArg _ (funext ih)

/-- **The invariant rule, with a guard.** What a guarded step preserves, a run whose steps all meet
the guard preserves. -/
theorem run_invariant_of_meets {I : σ → Prop}
    (hstep : ∀ s e s', I s → G s e → step s e = some s' → I s')
    (hI : I s) (hG : RunMeets step G s es) (hrun : run step s es = some s') : I s' := by
  induction es generalizing s with
  | nil =>
      obtain rfl := Option.some.inj hrun
      exact hI
  | cons e es ih =>
      obtain ⟨t, ht, hrest⟩ := run_cons_eq_some.mp hrun
      exact ih (hstep s e t hI hG.1 ht) (hG.2 t ht) hrest

/-- **The progress rule.** When a guarded step is always enabled and keeps the invariant, a run whose steps all
meet the guard goes through to its end. -/
theorem exists_run_of_meets {I : σ → Prop} (hstep : ∀ s e, I s → G s e → ∃ s', step s e = some s' ∧ I s')
    (hI : I s) (hG : RunMeets step G s es) : ∃ s', run step s es = some s' ∧ I s' := by
  induction es generalizing s with
  | nil => exact ⟨s, rfl, hI⟩
  | cons e es ih =>
      obtain ⟨t, ht, hIt⟩ := hstep s e hI hG.1
      obtain ⟨s', hrest, hI'⟩ := ih hIt (hG.2 t ht)
      exact ⟨s', run_cons_eq_some.mpr ⟨t, ht, hrest⟩, hI'⟩

/-- A guard on the events alone is a condition on the list of events. -/
theorem runMeets_of_forall {P : ε → Prop} (s : σ) (h : ∀ e ∈ es, P e) :
    RunMeets step (fun _ e => P e) s es := by
  induction es generalizing s with
  | nil => trivial
  | cons e es ih =>
      exact ⟨h e List.mem_cons_self, fun t _ => ih t fun e' he => h e' (List.mem_cons_of_mem e he)⟩

/-- Every run meets the trivial guard. -/
theorem runMeets_true (s : σ) (es : List ε) : RunMeets step (fun _ _ => True) s es :=
  runMeets_of_forall s fun _ _ => trivial

/-- **The invariant rule.** What every step preserves, every run preserves. -/
theorem run_invariant {I : σ → Prop} (hstep : ∀ s e s', I s → step s e = some s' → I s')
    (hI : I s) (hrun : run step s es = some s') : I s' :=
  run_invariant_of_meets (fun s e s' h _ => hstep s e s' h) hI (runMeets_true s es) hrun

/-- Along a run that is given, the guard is decided step by step. -/
instance decidableRunMeets [∀ s e, Decidable (G s e)] :
    (s : σ) → (es : List ε) → Decidable (RunMeets step G s es)
  | _, [] => isTrue trivial
  | s, e :: es =>
      match h : step s e with
      | none => decidable_of_iff (G s e)
          ⟨fun hG => ⟨hG, fun t ht => by rw [h] at ht; cases ht⟩, fun hm => hm.1⟩
      | some t =>
          have := decidableRunMeets t es
          decidable_of_iff (G s e ∧ RunMeets step G t es)
            ⟨fun hm => ⟨hm.1, fun t' ht => Option.some.inj (h.symm.trans ht) ▸ hm.2⟩, fun hm => ⟨hm.1, hm.2 t h⟩⟩

/-- **The exact guard of a property.** When a step from a state with `P` keeps `P` exactly if the guard
allows the step, and `P` does not come back, a run ends with `P` exactly if all its steps meet the guard.
`A` is what is assumed of the steps. -/
theorem runMeets_iff {A : σ → ε → Prop} {I P : σ → Prop}
    (hstep : ∀ s e s', I s → P s → A s e → step s e = some s' → I s' ∧ (P s' ↔ G s e))
    (hlost : ∀ s e s', I s → ¬P s → A s e → step s e = some s' → I s' ∧ ¬P s')
    (hI : I s) (hP : P s) (hA : RunMeets step A s es) (hrun : run step s es = some s') :
    P s' ↔ RunMeets step G s es := by
  induction es generalizing s with
  | nil =>
      obtain rfl := Option.some.inj hrun
      exact ⟨fun _ => trivial, fun _ => hP⟩
  | cons e es ih =>
      obtain ⟨t, ht, hrest⟩ := run_cons_eq_some.mp hrun
      obtain ⟨hIt, hPt⟩ := hstep s e t hI hP hA.1 ht
      by_cases hG : G s e
      · rw [ih hIt (hPt.mpr hG) (hA.2 t ht) hrest]
        constructor
        · intro hmeets
          refine ⟨hG, fun t' ht' => ?_⟩
          obtain rfl := Option.some.inj (ht.symm.trans ht')
          exact hmeets
        · exact fun hmeets => hmeets.2 t ht
      · -- the property is lost here, and stays lost
        have hnot : ¬P t := fun hp => hG (hPt.mp hp)
        have hend : I s' ∧ ¬P s' := by
          refine run_invariant_of_meets (I := fun s => I s ∧ ¬P s) ?_ ⟨hIt, hnot⟩ (hA.2 t ht) hrest
          intro s e s' hs hAs hse
          exact hlost s e s' hs.1 hs.2 hAs hse
        exact ⟨fun hp => absurd hp hend.2, fun hmeets => absurd hmeets.1 hG⟩

/-- Guards that agree in all states with an invariant are met by the same runs. -/
theorem runMeets_congr {G' : σ → ε → Prop} {I : σ → Prop}
    (hstep : ∀ s e s', I s → step s e = some s' → I s') (hG : ∀ s e, I s → (G s e ↔ G' s e))
    (hI : I s) : RunMeets step G s es ↔ RunMeets step G' s es := by
  induction es generalizing s with
  | nil => exact Iff.rfl
  | cons e es ih =>
      refine and_congr (hG s e hI) (forall_congr' fun t => forall_congr' fun ht => ?_)
      exact ih (hstep s e t hI ht)

/-- Guards that agree on the steps that are taken are met by the same runs. `A` is what is assumed of
the steps; the invariant only has to survive the steps that meet the guard. -/
theorem runMeets_congr_of_run {A G' : σ → ε → Prop} {I : σ → Prop}
    (hstep : ∀ s e s', I s → A s e → step s e = some s' → (G s e ↔ G' s e) ∧ (G' s e → I s'))
    (hI : I s) (hA : RunMeets step A s es) (hrun : run step s es = some s') :
    RunMeets step G s es ↔ RunMeets step G' s es := by
  induction es generalizing s with
  | nil => exact Iff.rfl
  | cons e es ih =>
      obtain ⟨t, ht, hrest⟩ := run_cons_eq_some.mp hrun
      obtain ⟨hGe, hkeep⟩ := hstep s e t hI hA.1 ht
      simp only [RunMeets, hGe, ht, Option.some.injEq, forall_eq']
      exact and_congr_right fun hG' => ih (hkeep hG') (hA.2 t ht) hrest

/-- `for (i = 0; i < n; ++i) body(i)`. -/
def forLoop (body : ℕ → σ → σ) : ℕ → σ → σ
  | 0, s => s
  | n + 1, s => body n (forLoop body n s)

/-- No round. -/
@[simp] theorem forLoop_zero (body : ℕ → σ → σ) (s : σ) : forLoop body 0 s = s := rfl

/-- The last round. -/
theorem forLoop_succ (body : ℕ → σ → σ) (n : ℕ) (s : σ) :
    forLoop body (n + 1) s = body n (forLoop body n s) := rfl

/-- **The loop rule.** What holds before the loop and is carried from each index to the next holds
after the loop. -/
theorem forLoop_invariant {body : ℕ → σ → σ} {n : ℕ} {s : σ} {I : ℕ → σ → Prop} (h0 : I 0 s)
    (hstep : ∀ i t, i < n → I i t → I (i + 1) (body i t)) : I n (forLoop body n s) := by
  induction n with
  | zero => exact h0
  | succ n ih =>
      exact hstep n _ n.lt_succ_self (ih fun i t hi => hstep i t (Nat.lt_succ_of_lt hi))

/-- A loop that rewrites one entry of a table at each index rewrites every entry below its bound once. -/
theorem forLoop_update_apply {α : Type*} (f : ℕ → α → α) {n i : ℕ} (table : ℕ → α) (hi : i < n) :
    forLoop (fun i t => Function.update t i (f i (t i))) n table i = f i (table i) := by
  let Filled (j : ℕ) (t : ℕ → α) : Prop := ∀ i, t i = if i < j then f i (table i) else table i
  have hloop : Filled n (forLoop (fun i t => Function.update t i (f i (t i))) n table) := by
    refine forLoop_invariant (fun i => (if_neg (Nat.not_lt_zero i)).symm) ?_
    intro j t _ ht i
    by_cases hij : i = j
    · rw [hij, Function.update_self, ht j, if_neg (Nat.lt_irrefl j), if_pos j.lt_succ_self]
    · rw [Function.update_of_ne hij, ht i]
      simp only [Nat.lt_succ_iff_lt_or_eq, hij, or_false]
  rw [hloop i, if_pos hi]

end BareMetal
