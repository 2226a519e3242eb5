import BareMetal.Lib.Run
import Mathlib.Data.List.DropRight
import Mathlib.Logic.Function.Iterate
import Mathlib.Algebra.Group.Nat.Defs

/-! # The tick counter of `asyn.c`

`SysTick_Handler` increments the 32-bit `jiffies`; `jiffies_before` tells how many ticks have passed
since a stored value. The interrupt may arrive between any two of the separate reads of `jiffies`
inside `jiffies_before`, so the call is a machine: a `cpu` event executes the next statement of the
function and a `tick` event is one `SysTick_Handler`.

The value is exact as long as the first read has not wrapped below the stored value. In the wrapped
branch the code adds the complement `~jiffies_bef`, which is `-jiffies_bef - 1`, so the answer is one
tick short, and it is still the count of some moment within the call only when a tick lands before
the last read (`jiffiesBefore_exact_iff`). -/

namespace BareMetal.Asyn

/-- `unsigned int` on the target. -/
abbrev UInt := BitVec 32

/-- `SysTick_Handler`: one interrupt of the tick timer. -/
def sysTickHandler (jiffies : UInt) : UInt := jiffies + 1

/-- `jiffies_get`. -/
def jiffiesGet (jiffies : UInt) : UInt := jiffies

/-- Where a call of `jiffies_before` stands, with the local `jiffies_tmp` where it is live. -/
inductive Pc
  /-- Before `jiffies_tmp = jiffies`, the first read. -/
  | entry
  /-- Before the comparison with `jiffies_bef`. -/
  | compare (jiffiesTmp : UInt)
  /-- In the `else` branch, before the second read. -/
  | wrapped
  /-- Before `return jiffies + (~jiffies_bef)`, the third read. -/
  | wrappedReturn (jiffiesTmp : UInt)
  /-- The function has returned this value. -/
  | done (ret : UInt)
  deriving DecidableEq, Repr

/-- The counter together with a call of `jiffies_before` in progress. -/
structure Call where
  jiffies : UInt
  pc : Pc
  deriving DecidableEq, Repr

/-- What can happen next: an interrupt, or the next statement of `jiffies_before`. -/
inductive Event
  | tick
  | cpu
  deriving DecidableEq, Repr

/-- `jiffies_before(jiffies_bef)`, one statement for each `cpu` event. -/
def jiffiesBeforeStep (jiffiesBef : UInt) (s : Call) : Event → Option Call
  | .tick => some { s with jiffies := sysTickHandler s.jiffies }
  | .cpu =>
      match s.pc with
      | .entry => some { s with pc := .compare s.jiffies }
      | .compare jiffiesTmp =>
          if jiffiesBef ≤ jiffiesTmp then some { s with pc := .done (jiffiesTmp - jiffiesBef) }
          else some { s with pc := .wrapped }
      | .wrapped => some { s with pc := .wrappedReturn (s.jiffies + ~~~jiffiesBef) }
      | .wrappedReturn _ => some { s with pc := .done (s.jiffies + ~~~jiffiesBef) }
      | .done _ => none

/-- The interrupts in a schedule. -/
def ticks (es : List Event) : ℕ := es.count .tick

/-- The interrupts that land inside the call before its first read of `jiffies`. -/
def ticksBeforeFirstRead (es : List Event) : ℕ := (es.takeWhile (· = .tick)).length

/-- The interrupts that land inside the call before the statement that returns. -/
def ticksBeforeReturn (es : List Event) : ℕ := ticks (es.rdropWhile (· = .tick))

/-! ## Schedules -/

/-- No event, no tick. -/
@[simp] theorem ticks_nil : ticks [] = 0 := rfl

/-- A tick counts. -/
@[simp] theorem ticks_tick (es : List Event) : ticks (.tick :: es) = ticks es + 1 := by
  simp [ticks]

/-- A statement does not. -/
@[simp] theorem ticks_cpu (es : List Event) : ticks (.cpu :: es) = ticks es := by
  simp [ticks]

/-- Ticks add up. -/
@[simp] theorem ticks_append (es es' : List Event) : ticks (es ++ es') = ticks es + ticks es' := by
  simp [ticks]

/-- A row of ticks. -/
@[simp] theorem ticks_replicate (b : ℕ) : ticks (List.replicate b .tick) = b := by
  simp [ticks]

/-- Every count of ticks up to the total is reached at some moment of the schedule. -/
theorem exists_prefix_ticks (es : List Event) {m : ℕ} (hm : m ≤ ticks es) :
    ∃ pre, pre <+: es ∧ ticks pre = m := by
  induction es generalizing m with
  | nil =>
      obtain rfl : m = 0 := Nat.le_zero.mp hm
      exact ⟨[], List.nil_prefix, rfl⟩
  | cons e es ih =>
      cases e with
      | tick =>
          cases m with
          | zero => exact ⟨[], List.nil_prefix, rfl⟩
          | succ m =>
              rw [ticks_tick] at hm
              obtain ⟨pre, hpre, hticks⟩ := ih (Nat.le_of_succ_le_succ hm)
              exact ⟨.tick :: pre, List.cons_prefix_cons.mpr ⟨rfl, hpre⟩, by simp [hticks]⟩
      | cpu =>
          rw [ticks_cpu] at hm
          obtain ⟨pre, hpre, hticks⟩ := ih hm
          exact ⟨.cpu :: pre, List.cons_prefix_cons.mpr ⟨rfl, hpre⟩, by simp [hticks]⟩

/-- There are no more ticks in a prefix. -/
theorem ticks_le_of_prefix {pre es : List Event} (h : pre <+: es) : ticks pre ≤ ticks es :=
  h.sublist.count_le _

/-- The moments of a schedule are exactly the counts `0, …, ticks es`. -/
theorem exists_prefix_ticks_eq_iff (es : List Event) (n r : ℕ) :
    (∃ pre, pre <+: es ∧ r = n + ticks pre) ↔ n ≤ r ∧ r ≤ n + ticks es := by
  constructor
  · rintro ⟨pre, hpre, rfl⟩
    have := ticks_le_of_prefix hpre
    omega
  · rintro ⟨hle, hge⟩
    obtain ⟨pre, hpre, hticks⟩ := exists_prefix_ticks es (m := r - n) (by omega)
    exact ⟨pre, hpre, by omega⟩

/-- The ticks before the first statement. -/
@[simp] theorem ticksBeforeFirstRead_replicate (b : ℕ) (es : List Event) :
    ticksBeforeFirstRead (List.replicate b .tick ++ .cpu :: es) = b := by
  induction b with
  | zero => simp [ticksBeforeFirstRead]
  | succ b ih => simp [ticksBeforeFirstRead, List.replicate_succ]

/-- Ticks after the returning statement do not count. -/
theorem ticksBeforeReturn_concat (es : List Event) (e : ℕ) :
    ticksBeforeReturn (es ++ .cpu :: List.replicate e .tick) = ticks es := by
  induction e with
  | zero => simp [ticksBeforeReturn]
  | succ e ih =>
      rw [List.replicate_succ', ← List.cons_append, ← List.append_assoc, ticksBeforeReturn,
        List.rdropWhile_concat_pos _ _ _ (by simp)]
      exact ih

/-! ## One call -/

/-- The counter after some ticks. -/
theorem sysTickHandler_iterate (n : ℕ) (j : UInt) : sysTickHandler^[n] j = j + BitVec.ofNat 32 n := by
  induction n generalizing j with
  | zero => simp
  | succ n ih =>
      rw [Function.iterate_succ_apply, ih, sysTickHandler, BitVec.add_assoc,
        Nat.add_comm n 1, BitVec.ofNat_add]
      rfl

variable {jiffiesBef r : UInt} {j j' : UInt} {pc : Pc} {es : List Event}

/-- Before the call returns, its schedule is some ticks, then one statement, then the rest. -/
theorem run_to_cpu (hpc : ∀ v, pc ≠ .done v)
    (hrun : run (jiffiesBeforeStep jiffiesBef) ⟨j, pc⟩ es = some ⟨j', .done r⟩) :
    ∃ b es' t, es = List.replicate b .tick ++ .cpu :: es' ∧
      jiffiesBeforeStep jiffiesBef ⟨j + BitVec.ofNat 32 b, pc⟩ .cpu = some t ∧
      run (jiffiesBeforeStep jiffiesBef) t es' = some ⟨j', .done r⟩ := by
  induction es generalizing j with
  | nil =>
      simp only [run_nil, Option.some.injEq, Call.mk.injEq] at hrun
      exact absurd hrun.2 (hpc r)
  | cons e es ih =>
      obtain ⟨t, ht, hrest⟩ := run_cons_eq_some.mp hrun
      cases e with
      | tick =>
          obtain rfl := Option.some.inj ht
          obtain ⟨b, es', t, rfl, hstep, hrun'⟩ := ih hrest
          refine ⟨b + 1, es', t, by simp [List.replicate_succ], ?_, hrun'⟩
          rw [← hstep]
          congr 2
          rw [← sysTickHandler_iterate, ← sysTickHandler_iterate, Function.iterate_succ_apply]
      | cpu => exact ⟨0, es, t, by simp, by simpa using ht, hrest⟩

/-- After the call has returned only ticks are left. -/
theorem run_done {v : UInt}
    (hrun : run (jiffiesBeforeStep jiffiesBef) ⟨j, .done v⟩ es = some ⟨j', .done r⟩) :
    v = r ∧ ∃ e, es = List.replicate e .tick := by
  induction es generalizing j with
  | nil =>
      simp only [run_nil, Option.some.injEq, Call.mk.injEq, Pc.done.injEq] at hrun
      exact ⟨hrun.2, 0, rfl⟩
  | cons e es ih =>
      obtain ⟨t, ht, hrest⟩ := run_cons_eq_some.mp hrun
      cases e with
      | tick =>
          obtain rfl := Option.some.inj ht
          obtain ⟨hv, e, rfl⟩ := ih hrest
          exact ⟨hv, e + 1, rfl⟩
      | cpu => cases ht

/-- How a returning call unfolds: `b` ticks before the first read and `c` before the comparison; if
the first read has wrapped below `jiffies_bef`, `d` more before the second read and `f` more before
the third, whose complement sum is returned. -/
theorem run_entry_done
    (hrun : run (jiffiesBeforeStep jiffiesBef) ⟨j, .entry⟩ es = some ⟨j', .done r⟩) :
    ∃ b c e, jiffiesBef ≤ j + BitVec.ofNat 32 b ∧ r = j + BitVec.ofNat 32 b - jiffiesBef ∧
        es = List.replicate b Event.tick ++ Event.cpu ::
          (List.replicate c Event.tick ++ Event.cpu :: List.replicate e Event.tick) ∨
      ∃ d f, ¬ jiffiesBef ≤ j + BitVec.ofNat 32 b ∧
        r = j + BitVec.ofNat 32 (b + c + d + f) + ~~~jiffiesBef ∧
        es = List.replicate b Event.tick ++ Event.cpu :: (List.replicate c Event.tick ++ Event.cpu ::
          (List.replicate d Event.tick ++ Event.cpu ::
            (List.replicate f Event.tick ++ Event.cpu :: List.replicate e Event.tick))) := by
  obtain ⟨b, es₁, t₁, rfl, h₁, hrun₁⟩ := run_to_cpu (fun v => by simp) hrun
  obtain rfl := Option.some.inj h₁
  obtain ⟨c, es₂, t₂, rfl, h₂, hrun₂⟩ := run_to_cpu (fun v => by simp) hrun₁
  by_cases hle : jiffiesBef ≤ j + BitVec.ofNat 32 b
  · simp only [jiffiesBeforeStep, if_pos hle, Option.some.injEq] at h₂
    subst h₂
    obtain ⟨rfl, e, rfl⟩ := run_done hrun₂
    exact ⟨b, c, e, Or.inl ⟨hle, rfl, rfl⟩⟩
  · simp only [jiffiesBeforeStep, if_neg hle, Option.some.injEq] at h₂
    subst h₂
    obtain ⟨d, es₃, t₃, rfl, h₃, hrun₃⟩ := run_to_cpu (fun v => by simp) hrun₂
    obtain rfl := Option.some.inj h₃
    obtain ⟨f, es₄, t₄, rfl, h₄, hrun₄⟩ := run_to_cpu (fun v => by simp) hrun₃
    obtain rfl := Option.some.inj h₄
    obtain ⟨rfl, e, rfl⟩ := run_done hrun₄
    refine ⟨b, c, e, Or.inr ⟨d, f, hle, ?_, rfl⟩⟩
    simp only [BitVec.ofNat_add, BitVec.add_assoc]

/-- The statements a call still has to execute at most. -/
def Pc.rank : Pc → ℕ
  | .entry => 4
  | .compare _ => 3
  | .wrapped => 2
  | .wrappedReturn _ => 1
  | .done _ => 0

/-- A call always returns: ticks cannot keep it, and it has at most four statements to execute. -/
theorem jiffiesBefore_returns {s s' : Call} (hrun : run (jiffiesBeforeStep jiffiesBef) s es = some s')
    (hcpu : s.pc.rank ≤ es.count .cpu) : ∃ v, s'.pc = .done v := by
  induction es generalizing s with
  | nil =>
      obtain rfl := Option.some.inj hrun
      obtain ⟨j, pc⟩ := s
      cases pc <;> simp [Pc.rank] at hcpu ⊢
  | cons e es ih =>
      obtain ⟨t, ht, hrest⟩ := run_cons_eq_some.mp hrun
      refine ih hrest ?_
      obtain ⟨j, pc⟩ := s
      cases e with
      | tick =>
          obtain rfl := Option.some.inj ht
          simpa using hcpu
      | cpu =>
          simp only [List.count_cons_self] at hcpu
          cases pc <;> simp only [jiffiesBeforeStep, reduceCtorEq] at ht
          case compare tmp =>
            split at ht <;> obtain rfl := Option.some.inj ht <;> simp only [Pc.rank] at hcpu ⊢ <;> omega
          all_goals
            obtain rfl := Option.some.inj ht
            simp only [Pc.rank] at hcpu ⊢
            omega

/-! ## When the answer is exact -/

/-- The wrapped branch loses one tick: the complement is `-jiffies_bef - 1`. -/
theorem toNat_add_complement (jiffies : UInt) {k : ℕ} (hwrap : 2 ^ 32 ≤ jiffies.toNat + k)
    (hk : k < 2 ^ 32) :
    (jiffies + BitVec.ofNat 32 k + ~~~jiffies).toNat = k - 1 := by
  have hlt := jiffies.isLt
  simp only [BitVec.toNat_add, BitVec.toNat_ofNat, BitVec.toNat_not]
  omega

/-- The first read is at least `jiffies_bef` exactly when the counter has not wrapped by then. -/
theorem le_add_ofNat_iff (jiffies : UInt) {k : ℕ} (hk : k < 2 ^ 32) :
    jiffies ≤ jiffies + BitVec.ofNat 32 k ↔ jiffies.toNat + k < 2 ^ 32 := by
  have hlt := jiffies.isLt
  simp only [BitVec.le_def, BitVec.toNat_add, BitVec.toNat_ofNat]
  omega

/-- **When `jiffies_before` is exact.** `jiffies_get` has read `jiffies`, `n` ticks follow, and then
`jiffies_before` of that value runs under the schedule `es`. The returned value is the number of
ticks between the `jiffies_get` and some moment of the call if and only if the counter has not
wrapped at the first read or a tick lands in the call before it returns. -/
theorem jiffiesBefore_exact_iff (jiffies : UInt) (n : ℕ) (es : List Event) (j' r : UInt)
    (hrun : run (jiffiesBeforeStep (jiffiesGet jiffies)) ⟨sysTickHandler^[n] jiffies, .entry⟩ es
      = some ⟨j', .done r⟩)
    (hn : n + ticks es < 2 ^ 32) :
    (∃ pre, pre <+: es ∧ r.toNat = n + ticks pre) ↔
      jiffies.toNat + n + ticksBeforeFirstRead es < 2 ^ 32 ∨ 0 < ticksBeforeReturn es := by
  rw [exists_prefix_ticks_eq_iff]
  rw [sysTickHandler_iterate, jiffiesGet] at hrun
  obtain ⟨b, c, e, ⟨hle, rfl, rfl⟩ | ⟨d, f, hle, rfl, rfl⟩⟩ := run_entry_done hrun
  · -- not wrapped at the first read: the difference is the count at that read
    simp only [ticks_append, ticks_replicate, ticks_cpu] at hn ⊢
    rw [BitVec.add_assoc, ← BitVec.ofNat_add] at hle ⊢
    rw [le_add_ofNat_iff _ (by omega)] at hle
    have hr : (jiffies + BitVec.ofNat 32 (n + b) - jiffies).toNat = n + b := by
      rw [BitVec.add_comm, BitVec.add_sub_cancel, BitVec.toNat_ofNat]
      omega
    rw [hr, ticksBeforeFirstRead_replicate]
    omega
  · -- wrapped: the answer is one less than the count at the third read
    rw [show List.replicate b Event.tick ++ .cpu :: (List.replicate c .tick ++ .cpu ::
          (List.replicate d .tick ++ .cpu ::
            (List.replicate f .tick ++ .cpu :: List.replicate e .tick))) =
        (List.replicate b Event.tick ++ .cpu :: (List.replicate c .tick ++ .cpu ::
          (List.replicate d .tick ++ .cpu :: List.replicate f .tick))) ++
            .cpu :: List.replicate e .tick by simp, ticksBeforeReturn_concat]
    simp only [ticks_append, ticks_replicate, ticks_cpu, List.append_assoc, List.cons_append,
      ticksBeforeFirstRead_replicate] at hn ⊢
    rw [BitVec.add_assoc jiffies, ← BitVec.ofNat_add] at hle ⊢
    rw [le_add_ofNat_iff _ (by omega)] at hle
    rw [toNat_add_complement jiffies (by omega) (by omega)]
    omega

/-- One tick after `jiffies_get` returned the largest value, an undisturbed call returns `0`. -/
theorem jiffiesBefore_exact_max :
    (∃ pre, pre <+: [Event.cpu, .cpu, .cpu, .cpu] ∧ (0 : UInt).toNat = 1 + ticks pre) ↔
      (0xFFFFFFFF : UInt).toNat + 1 + ticksBeforeFirstRead [Event.cpu, .cpu, .cpu, .cpu] < 2 ^ 32 ∨
        0 < ticksBeforeReturn [Event.cpu, .cpu, .cpu, .cpu] :=
  jiffiesBefore_exact_iff 0xFFFFFFFF 1 [.cpu, .cpu, .cpu, .cpu] 0 0 (by decide) (by decide)

/-- The answer is not exact for every schedule: the largest counter value, one tick, and then a call
that no tick disturbs returns `0` although one tick has elapsed at every moment of the call. -/
theorem jiffiesBefore_not_exact :
    ¬ ∀ (jiffies : UInt) (n : ℕ) (es : List Event) (j' r : UInt),
      run (jiffiesBeforeStep (jiffiesGet jiffies)) ⟨sysTickHandler^[n] jiffies, .entry⟩ es
        = some ⟨j', .done r⟩ →
      n + ticks es < 2 ^ 32 → ∃ pre, pre <+: es ∧ r.toNat = n + ticks pre := by
  intro h
  obtain ⟨pre, -, hpre⟩ := h 0xFFFFFFFF 1 [.cpu, .cpu, .cpu, .cpu] 0 0 (by decide) (by decide)
  rw [show ((0 : UInt).toNat) = 0 from rfl] at hpre
  omega

end BareMetal.Asyn
