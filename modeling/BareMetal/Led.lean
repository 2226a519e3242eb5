import BareMetal.Asyn
import Mathlib.Data.List.Chain

/-! # The blinking LED

`led_run_proc` is polled by the main loop: it switches the LED off once 100 ticks have passed since it
last did so and on once 50 have passed. The ticks are counted by `jiffies_before`, whose answer is one
short while the counter stands below the stored value, so the LED is a tick late in the period in which
`jiffies` wraps (`led_blinks_iff`). -/

namespace BareMetal.Blink

open Asyn

/-- `LED_ON` and `LED_OFF`. -/
inductive Level
  | on
  | off
  deriving DecidableEq, Repr

/-- The tick counter, `led_run_time` (an `unsigned long` of 32 bits) and the LED. -/
structure Led where
  jiffies : UInt
  ledRunTime : UInt
  led : Level
  deriving DecidableEq, Repr

/-- `jiffies_before` in one piece, for a call that no tick disturbs. -/
def jiffiesBefore (jiffies jiffiesBef : UInt) : UInt :=
  if jiffiesBef ≤ jiffies then jiffies - jiffiesBef else jiffies + ~~~jiffiesBef

/-- `led_run_proc`, with no tick inside it. -/
def ledRunProc (s : Led) : Led :=
  if 100 ≤ jiffiesBefore s.jiffies s.ledRunTime then
    { s with led := .off, ledRunTime := jiffiesGet s.jiffies }
  else if 50 ≤ jiffiesBefore s.jiffies s.ledRunTime then { s with led := .on }
  else s

/-- An interrupt of the tick timer, or a poll by the main loop. -/
inductive Event
  | tick
  | poll
  deriving DecidableEq, Repr

/-- The program together with what an observer keeps: the ticks since the first `LED_OFF`, and whether
there was a poll since the last tick. -/
structure Watch where
  prog : Led
  since : Option ℕ
  polled : Bool
  deriving DecidableEq, Repr

def Watch.tick (s : Watch) : Watch where
  prog := { s.prog with jiffies := sysTickHandler s.prog.jiffies }
  since := s.since.map (· + 1)
  polled := false

/-- A poll; the observer starts to count at the first one that executes `LED_OFF`. -/
def Watch.poll (s : Watch) : Watch where
  prog := ledRunProc s.prog
  since := if s.since = none ∧ 100 ≤ jiffiesBefore s.prog.jiffies s.prog.ledRunTime then some 0
    else s.since
  polled := true

def step (s : Watch) : Event → Option Watch
  | .tick => some s.tick
  | .poll => some s.poll

/-- `led_run_time` is `0` at start-up; the counter and the LED are as they happen to be. -/
def start (jiffies : UInt) (led : Level) : Watch := ⟨⟨jiffies, 0, led⟩, none, true⟩

/-- The LED is polled between any two consecutive ticks. -/
def Polled (es : List Event) : Prop := es.IsChain fun e e' => e = .tick → e' = .poll

/-- Off for 50 ticks and then on for 50 ticks, in every period of 100. -/
def scheduled (n : ℕ) : Level := if n % 100 < 50 then .off else .on

/-- The LED is as scheduled once the first `LED_OFF` has been executed. -/
def Watch.OnSchedule (s : Watch) : Prop := ∀ n ∈ s.since, s.prog.led = scheduled n

/-- The poll leaves the LED as scheduled. -/
def Blinks (s : Watch) : Event → Prop
  | .tick => True
  | .poll => s.poll.OnSchedule

/-- The counter stands below `led_run_time`, half a period or a whole one after `led_run_time`. -/
def Led.Late (s : Led) : Prop :=
  s.jiffies < s.ledRunTime ∧ (s.jiffies - s.ledRunTime = 50 ∨ s.jiffies - s.ledRunTime = 100)

/-- The counter has not wrapped since `led_run_time` when half a period or a whole one is over. -/
def InTime (s : Watch) : Event → Prop
  | .tick => True
  | .poll => ¬s.prog.Late

instance (s : Led) : Decidable s.Late := inferInstanceAs (Decidable (_ ∧ _))

instance (s : Watch) : Decidable s.OnSchedule := inferInstanceAs (Decidable (∀ n ∈ s.since, _))

instance (s : Watch) : (e : Event) → Decidable (Blinks s e)
  | .tick => isTrue trivial
  | .poll => inferInstanceAs (Decidable s.poll.OnSchedule)

/-! ## One poll -/

/-- A call of `jiffies_before` that no tick disturbs is `jiffiesBefore`. -/
theorem run_eq_jiffiesBefore {j j' bef r : UInt} {es : List Asyn.Event} (hquiet : ticks es = 0)
    (hrun : run (jiffiesBeforeStep bef) ⟨j, .entry⟩ es = some ⟨j', .done r⟩) :
    r = jiffiesBefore j bef := by
  obtain ⟨b, c, e, ⟨hle, rfl, rfl⟩ | ⟨d, f, hle, rfl, rfl⟩⟩ := run_entry_done hrun
  · obtain rfl : b = 0 := by simp at hquiet; omega
    simp only [BitVec.add_zero] at hle ⊢
    rw [jiffiesBefore, if_pos hle]
  · obtain ⟨rfl, rfl, rfl, rfl⟩ : b = 0 ∧ c = 0 ∧ d = 0 ∧ f = 0 := by simp at hquiet; omega
    simp only [BitVec.add_zero, Nat.add_zero] at hle ⊢
    rw [jiffiesBefore, if_neg hle]

/-- The ticks since `led_run_time`. -/
def Led.elapsed (s : Led) : ℕ := (s.jiffies - s.ledRunTime).toNat

/-- The answer is the elapsed ticks, less one when the counter has wrapped. -/
theorem jiffiesBefore_toNat (s : Led) :
    (jiffiesBefore s.jiffies s.ledRunTime).toNat =
      if s.jiffies < s.ledRunTime then s.elapsed - 1 else s.elapsed := by
  have hj := s.jiffies.isLt
  have ht := s.ledRunTime.isLt
  unfold jiffiesBefore Led.elapsed
  by_cases hlt : s.jiffies < s.ledRunTime
  · have hle : ¬s.ledRunTime ≤ s.jiffies := BitVec.not_le.mpr hlt
    rw [if_neg hle, if_pos hlt]
    simp only [BitVec.lt_def, BitVec.toNat_add, BitVec.toNat_not, BitVec.toNat_sub] at hlt ⊢
    omega
  · rw [if_pos (BitVec.not_lt.mp hlt), if_neg hlt]

/-- When the LED is late: the counter has wrapped, at one of the two times. -/
theorem late_iff (s : Led) :
    s.Late ↔ s.jiffies < s.ledRunTime ∧ (s.elapsed = 50 ∨ s.elapsed = 100) := by
  simp only [Led.Late, Led.elapsed, ← BitVec.toNat_inj]
  rfl

/-- The two comparisons of a poll that is not late come out as if the answers were exact. -/
theorem thresholds_of_not_late {s : Led} (hlate : ¬s.Late) (he : s.elapsed ≤ 100) :
    (100 ≤ jiffiesBefore s.jiffies s.ledRunTime ↔ s.elapsed = 100) ∧
      (50 ≤ jiffiesBefore s.jiffies s.ledRunTime ↔ 50 ≤ s.elapsed) := by
  have hanswer := jiffiesBefore_toNat s
  rw [late_iff] at hlate
  rw [BitVec.le_def, BitVec.le_def, hanswer]
  change (100 ≤ _ ↔ _) ∧ (50 ≤ _ ↔ _)
  split <;> rename_i hwrap
  · have : ¬(s.elapsed = 50 ∨ s.elapsed = 100) := fun h => hlate ⟨hwrap, h⟩
    omega
  · omega

/-- A late poll sees one tick less than have passed. -/
theorem thresholds_of_late {s : Led} (hlate : s.Late) :
    ¬100 ≤ jiffiesBefore s.jiffies s.ledRunTime ∧
      (50 ≤ jiffiesBefore s.jiffies s.ledRunTime ↔ s.elapsed = 100) := by
  have hanswer := jiffiesBefore_toNat s
  obtain ⟨hwrap, he⟩ := (late_iff s).mp hlate
  rw [if_pos hwrap] at hanswer
  rw [BitVec.le_def, BitVec.le_def, hanswer]
  change ¬100 ≤ _ ∧ (50 ≤ _ ↔ _)
  omega

/-! ## The invariant -/

/-- Where the LED stands after the first `LED_OFF`: the observer's count agrees with the elapsed ticks,
and the LED is as scheduled now, or, with a tick since the last poll, one tick ago. -/
structure Inv (s : Watch) : Prop where
  before : s.since = none → s.prog.ledRunTime = 0
  count : ∀ n ∈ s.since, n % 100 = s.prog.elapsed % 100
  polled : ∀ n ∈ s.since, s.polled = true →
    s.prog.elapsed < 100 ∧ s.prog.led = scheduled s.prog.elapsed ∧ ¬s.prog.Late
  ticked : ∀ n ∈ s.since, s.polled = false →
    0 < s.prog.elapsed ∧ s.prog.elapsed ≤ 100 ∧ s.prog.led = scheduled (s.prog.elapsed - 1)

/-- The invariant at the start. -/
theorem inv_start (jiffies : UInt) (led : Level) : Inv (start jiffies led) :=
  ⟨fun _ => rfl, nofun, nofun, nofun⟩

/-- A tick is one more elapsed tick, as long as there is room for it. -/
theorem elapsed_tick {s : Watch} (he : s.prog.elapsed < 100) :
    s.tick.prog.elapsed = s.prog.elapsed + 1 := by
  unfold Led.elapsed at he ⊢
  simp only [Watch.tick, sysTickHandler]
  have hadd : s.prog.jiffies + 1 - s.prog.ledRunTime = s.prog.jiffies - s.prog.ledRunTime + 1 := by
    rw [BitVec.sub_eq_add_neg, BitVec.sub_eq_add_neg, BitVec.add_assoc, BitVec.add_assoc,
      BitVec.add_comm 1]
  have hone : (1 : UInt).toNat = 1 := rfl
  rw [hadd, BitVec.toNat_add]
  omega

/-- A tick after a poll keeps it. -/
theorem Inv.tick {s : Watch} (hs : Inv s) (hpolled : s.polled = true) : Inv s.tick := by
  have helapsed : ∀ n ∈ s.since, s.tick.prog.elapsed = s.prog.elapsed + 1 := fun n hn =>
    elapsed_tick (hs.polled n hn hpolled).1
  constructor
  · intro hnone
    exact hs.before (Option.map_eq_none_iff.mp hnone)
  · intro m hm
    obtain ⟨n, hn, rfl⟩ := Option.map_eq_some_iff.mp hm
    have := hs.count n hn
    rw [helapsed n hn]
    omega
  · exact fun _ _ h => nomatch h
  · intro m hm _
    obtain ⟨n, hn, rfl⟩ := Option.map_eq_some_iff.mp hm
    obtain ⟨hlt, hled, -⟩ := hs.polled n hn hpolled
    rw [helapsed n hn]
    exact ⟨Nat.succ_pos _, hlt, hled⟩

/-- Whether there was a tick since the last poll or not, at most a whole period has passed. -/
theorem Inv.elapsed_le {s : Watch} (hs : Inv s) {n : ℕ} (hn : n ∈ s.since) : s.prog.elapsed ≤ 100 := by
  cases hp : s.polled with
  | true => exact Nat.le_of_lt (hs.polled n hn hp).1
  | false => exact (hs.ticked n hn hp).2.1

/-- The time is counted from the restart. -/
@[simp] theorem elapsed_restart (j : UInt) (led : Level) : (Led.mk j j led).elapsed = 0 := by
  simp [Led.elapsed]

/-- Right after a restart it cannot be late. -/
theorem not_late_of_elapsed_zero {s : Led} (h : s.elapsed = 0) : ¬s.Late := by
  rw [late_iff]
  omega

/-- The poll with the first `LED_OFF` starts the count, and every other one before it changes
nothing the observer looks at. -/
theorem Inv.poll_before {s : Watch} (hs : Inv s) (hnone : s.since = none) :
    Inv s.poll ∧ s.poll.OnSchedule ∧ ¬s.prog.Late := by
  -- before the first restart the start value is 0, and the counter is not below it
  have hzero := hs.before hnone
  have hlate : ¬s.prog.Late := by
    rintro ⟨hlt, -⟩
    rw [hzero] at hlt
    exact BitVec.not_lt_zero hlt
  -- the poll restarts the count, or leaves all as it is
  by_cases hoff : 100 ≤ jiffiesBefore s.prog.jiffies s.prog.ledRunTime
  · have hpoll : s.poll = ⟨⟨s.prog.jiffies, s.prog.jiffies, .off⟩, some 0, true⟩ := by
      rw [Watch.poll, ledRunProc, if_pos hoff, if_pos ⟨hnone, hoff⟩]
      rfl
    rw [hpoll]
    refine ⟨⟨nofun, ?_, ?_, nofun⟩, ?_, hlate⟩
    · rintro n ⟨⟩
      simp
    · rintro n ⟨⟩ -
      simp [scheduled, not_late_of_elapsed_zero]
    · rintro n ⟨⟩
      rfl
  · have hsince : s.poll.since = none := by
      rw [Watch.poll, if_neg fun h => hoff h.2]
      exact hnone
    have htime : s.poll.prog.ledRunTime = 0 := by
      simp only [Watch.poll, ledRunProc, if_neg hoff]
      split <;> exact hzero
    refine ⟨⟨fun _ => htime, ?_, ?_, ?_⟩, ?_, hlate⟩
    all_goals
      intro n hn
      rw [hsince] at hn
      cases hn

/-- After the first `LED_OFF`, a poll that is not late leaves the LED as scheduled. -/
theorem Inv.poll_inTime {s : Watch} (hs : Inv s) {n : ℕ} (hn : n ∈ s.since) (hlate : ¬s.prog.Late) :
    Inv s.poll ∧ s.poll.OnSchedule := by
  have hle := hs.elapsed_le hn
  obtain ⟨hoff, hon⟩ := thresholds_of_not_late hlate hle
  have hcount := hs.count n hn
  by_cases hend : s.prog.elapsed = 100
  · -- the period is over: the LED goes off and the next period starts
    have hpoll : s.poll = ⟨⟨s.prog.jiffies, s.prog.jiffies, .off⟩, some n, true⟩ := by
      rw [Watch.poll, ledRunProc, if_pos (hoff.mpr hend), if_neg (by simp [Option.mem_def.mp hn]),
        Option.mem_def.mp hn]
      rfl
    have hmod : n % 100 = 0 := by omega
    rw [hpoll]
    refine ⟨⟨nofun, ?_, ?_, nofun⟩, ?_⟩
    · rintro m ⟨⟩
      simp [hmod]
    · rintro m ⟨⟩ -
      simp [scheduled, not_late_of_elapsed_zero]
    · rintro m ⟨⟩
      simp [scheduled, hmod]
  · -- within the period the LED only follows the schedule
    have hlt : s.prog.elapsed < 100 := by omega
    have hled : (ledRunProc s.prog).led = scheduled s.prog.elapsed := by
      have hlevel : s.prog.elapsed < 50 → s.prog.led = .off := by
        intro hhalf
        cases hp : s.polled with
        | true => rw [(hs.polled n hn hp).2.1, scheduled, if_pos (by omega)]
        | false => rw [(hs.ticked n hn hp).2.2, scheduled, if_pos (by omega)]
      rw [ledRunProc, if_neg (hoff.not.mpr hend), scheduled, Nat.mod_eq_of_lt hlt]
      by_cases hhalf : s.prog.elapsed < 50
      · rw [if_neg (hon.not.mpr (by omega)), if_pos hhalf, hlevel hhalf]
      · rw [if_pos (hon.mpr (by omega)), if_neg hhalf]
    have hpoll : s.poll = ⟨{ s.prog with led := scheduled s.prog.elapsed }, some n, true⟩ := by
      rw [← hled, Watch.poll, if_neg (by simp [Option.mem_def.mp hn]), Option.mem_def.mp hn]
      congr 1
      rw [ledRunProc, if_neg (hoff.not.mpr hend)]
      split <;> rfl
    rw [hpoll]
    refine ⟨⟨nofun, ?_, ?_, nofun⟩, ?_⟩
    · rintro m ⟨⟩
      exact hcount
    · rintro m ⟨⟩ -
      exact ⟨hlt, rfl, hlate⟩
    · rintro m ⟨⟩
      simp only [scheduled, hcount]

/-- A late poll misses the switch that is due. -/
theorem Inv.poll_late {s : Watch} (hs : Inv s) {n : ℕ} (hn : n ∈ s.since) (hlate : s.prog.Late) :
    ¬s.poll.OnSchedule := by
  obtain ⟨hoff, hon⟩ := thresholds_of_late hlate
  have hpolled : s.polled = false := by
    by_contra hp
    exact (hs.polled n hn (Bool.not_eq_false _ ▸ hp)).2.2 hlate
  have hcount := hs.count n hn
  have hsince : n ∈ s.poll.since := by
    rw [Watch.poll, if_neg fun h => hoff h.2]
    exact hn
  intro hschedule
  have hled : (ledRunProc s.prog).led = scheduled n := hschedule n hsince
  rw [ledRunProc, if_neg hoff, scheduled, hcount] at hled
  rcases ((late_iff _).mp hlate).2 with he | he
  · -- half a period is over, but the LED stays off
    rw [if_neg (hon.not.mpr (by omega)), (hs.ticked n hn hpolled).2.2, he] at hled
    exact absurd hled (by decide)
  · -- a whole period is over, but the LED stays on
    rw [if_pos (hon.mpr he), he] at hled
    cases hled

/-! ## Whole runs -/

/-- There was a poll since the last tick. -/
def TickAfterPoll (s : Watch) : Event → Prop
  | .tick => s.polled = true
  | .poll => True

/-- In a run that polls between any two consecutive ticks, each tick finds a poll since the last one. -/
theorem meets_tickAfterPoll {es : List Event} {s : Watch} (hes : Polled es)
    (hhead : s.polled = true ∨ es.head? ≠ some .tick) : RunMeets step TickAfterPoll s es := by
  induction es generalizing s with
  | nil => trivial
  | cons e es ih =>
      obtain ⟨hnext, hrest⟩ := List.isChain_cons.mp hes
      cases e with
      | tick =>
          refine ⟨hhead.resolve_right (by simp), fun t ht => ih hrest (Or.inr fun htick => ?_)⟩
          exact nomatch hnext .tick htick rfl
      | poll =>
          refine ⟨trivial, fun t ht => ih hrest (Or.inl ?_)⟩
          obtain rfl := Option.some.inj ht
          rfl

/-- Every step is enabled. -/
theorem exists_run (s : Watch) (es : List Event) : ∃ s', run step s es = some s' := by
  induction es generalizing s with
  | nil => exact ⟨s, rfl⟩
  | cons e es ih =>
      cases e with
      | tick => exact ih s.tick
      | poll => exact ih s.poll

/-- **When the LED blinks.** From any counter value, in a run that polls between any two consecutive
ticks, every poll from the first `LED_OFF` onwards leaves the LED as scheduled if and only if no poll
finds the counter wrapped below `led_run_time` when half a period or a whole one is over. -/
theorem led_blinks_iff (jiffies : UInt) (led : Level) (es : List Event) (hes : Polled es) :
    RunMeets step Blinks (start jiffies led) es ↔ RunMeets step InTime (start jiffies led) es := by
  obtain ⟨s', hrun⟩ := exists_run (start jiffies led) es
  have hticks := meets_tickAfterPoll hes (s := start jiffies led) (Or.inl rfl)
  refine runMeets_congr_of_run ?_ (inv_start jiffies led) hticks hrun
  intro s e t hs he ht
  cases e with
  | tick =>
      obtain rfl := Option.some.inj ht
      exact ⟨Iff.rfl, fun _ => hs.tick he⟩
  | poll =>
      obtain rfl := Option.some.inj ht
      cases hsince : s.since with
      | none =>
          obtain ⟨hinv, hschedule, hlate⟩ := hs.poll_before hsince
          exact ⟨iff_of_true hschedule hlate, fun _ => hinv⟩
      | some n =>
          by_cases hlate : s.prog.Late
          · exact ⟨iff_of_false (hs.poll_late hsince hlate) (not_not.mpr hlate),
              fun h => absurd hlate h⟩
          · obtain ⟨hinv, hschedule⟩ := hs.poll_inTime hsince hlate
            exact ⟨iff_of_true hschedule hlate, fun _ => hinv⟩

/-- `n` ticks, each followed by a poll. -/
def tickAndPoll (n : ℕ) : List Event := (List.replicate n [.tick, .poll]).flatten

/-- A run that polls after each tick. -/
theorem polled_tickAndPoll (n : ℕ) : Polled (.poll :: tickAndPoll n) := by
  refine List.isChain_cons.mpr ⟨nofun, ?_⟩
  induction n with
  | zero => exact List.isChain_nil
  | succ n ih =>
      rw [tickAndPoll, List.replicate_succ, List.flatten_cons]
      refine List.isChain_cons.mpr ⟨?_, List.isChain_cons.mpr ⟨nofun, ih⟩⟩
      rintro e ⟨⟩ -
      rfl

/-- A run of more than a period that starts with the counter at `1000`. -/
theorem led_blinks_thousand :
    RunMeets step Blinks (start 1000 .on) (.poll :: tickAndPoll 120) ↔
      RunMeets step InTime (start 1000 .on) (.poll :: tickAndPoll 120) :=
  led_blinks_iff 1000 .on _ (polled_tickAndPoll 120)

/-- It does not blink so in every run: with the first `LED_OFF` at the largest counter value the LED is
still off 50 ticks later. -/
theorem led_not_blinks :
    ¬ ∀ (jiffies : UInt) (led : Level) (es : List Event), Polled es →
      RunMeets step Blinks (start jiffies led) es := by
  intro h
  exact absurd (h 0xFFFFFFFF .on (.poll :: tickAndPoll 50) (polled_tickAndPoll 50)) (by decide +kernel)

end BareMetal.Blink
