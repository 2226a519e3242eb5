import BareMetal.Sys.Timeouts

/-! # Cyclic timers

The timers of `timers.c` that set themselves again when they expire, in the configuration of `opt.h`: those of `ip_reass_tmr`
and `etharp_tmr`, which always run, and that of `tcp_tmr`, which runs while there are control blocks. There is one element of
`MEMP_SYS_TIMEOUT` for each. None of the timers that always run is ever lost or late (`cyclic_of_run`). -/

namespace BareMetal.Sys

/-! ## The functions -/

/-- `IP_TMR_INTERVAL`. -/
def ipTmrInterval : UInt32 := 1000

/-- `ARP_TMR_INTERVAL`. -/
def arpTmrInterval : UInt32 := 5000

/-- `TCP_TMR_INTERVAL`. -/
def tcpTmrInterval : UInt32 := 250

/-- `MEMP_NUM_SYS_TIMEOUT`: `LWIP_TCP + IP_REASSEMBLY + LWIP_ARP`. -/
def mempNumSysTimeout : ℕ := 3

/-- `ip_reass_timer`. -/
def ipReassTimer : ℕ := 1

/-- `arp_timer`. -/
def arpTimer : ℕ := 2

/-- `tcpip_tcp_timer`. -/
def tcpipTcpTimer : ℕ := 3

/-- The timeouts, and `tcpip_tcp_timer_active`. -/
structure CyclicTimers where
  timeouts : Timeouts
  tcpipTcpTimerActive : Bool
  deriving DecidableEq, Repr

/-- `sys_timeout(msecs, handler, NULL)`. -/
def CyclicTimers.sysTimeout (s : CyclicTimers) (msecs : UInt32) (handler : ℕ) : CyclicTimers :=
  { s with timeouts := s.timeouts.sysTimeout msecs handler 0 }

/-- `handler(NULL)`; `pcbs` says that there are active blocks or blocks in TIME_WAIT behind `tcp_tmr`. -/
def CyclicTimers.call (s : CyclicTimers) (pcbs : Bool) (handler : ℕ) : CyclicTimers :=
  if handler = ipReassTimer then s.sysTimeout ipTmrInterval ipReassTimer
  else if handler = arpTimer then s.sysTimeout arpTmrInterval arpTimer
  else if handler = tcpipTcpTimer then
    if pcbs then s.sysTimeout tcpTmrInterval tcpipTcpTimer else { s with tcpipTcpTimerActive := false }
  else s

/-- `tcp_timer_needed`; `pcbs` says that there are active blocks or blocks in TIME_WAIT. -/
def CyclicTimers.tcpTimerNeeded (s : CyclicTimers) (pcbs : Bool) : CyclicTimers :=
  if !s.tcpipTcpTimerActive && pcbs then
    { s with tcpipTcpTimerActive := true }.sysTimeout tcpTmrInterval tcpipTcpTimer
  else s

/-- `sys_timeouts_init`. -/
def sysTimeoutsInit : CyclicTimers :=
  (CyclicTimers.sysTimeout ⟨Timeouts.init mempNumSysTimeout, false⟩ ipTmrInterval ipReassTimer).sysTimeout
    arpTmrInterval arpTimer

/-- A call of `tcp_timer_needed`, or a round of `sys_timeouts_mbox_fetch`. -/
inductive CyclicEvent
  | tcpTimerNeeded (pcbs : Bool)
  | fetchRound (fetched : Option UInt32) (pcbs : Bool)

def CyclicTimers.step (s : CyclicTimers) : CyclicEvent → Option CyclicTimers
  | .tcpTimerNeeded pcbs => some (s.tcpTimerNeeded pcbs)
  | .fetchRound fetched pcbs =>
      (s.timeouts.fetchRound fetched).map fun r =>
        match r.2 with
        | none => { s with timeouts := r.1 }
        | some c => CyclicTimers.call { s with timeouts := r.1 } pcbs c.h

/-- `sys_arch_mbox_fetch` waits no longer than it was asked to. -/
def CyclicTimers.Accurate (s : CyclicTimers) : CyclicEvent → Prop
  | .tcpTimerNeeded _ => True
  | .fetchRound fetched _ => s.timeouts.Accurate (.fetchRound fetched)

/-! ## The timeouts of one handler -/

/-- The times of the timeouts of a handler. -/
def timesOf (h : ℕ) (l : List (ℕ × Callback)) : List ℕ := (l.filter fun x => x.2.h == h).map Prod.fst

section TimesOf

variable {h : ℕ} {x : ℕ × Callback} {l : List (ℕ × Callback)}

/-- The times of two parts. -/
theorem timesOf_append (h : ℕ) (l l' : List (ℕ × Callback)) : timesOf h (l ++ l') = timesOf h l ++ timesOf h l' := by
  rw [timesOf, List.filter_append, List.map_append, timesOf, timesOf]

/-- A timeout of the handler in front. -/
theorem timesOf_cons_self (hx : x.2.h = h) (l : List (ℕ × Callback)) : timesOf h (x :: l) = x.1 :: timesOf h l := by
  simp [timesOf, hx]

/-- A timeout of another handler in front. -/
theorem timesOf_cons_of_ne (hx : x.2.h ≠ h) (l : List (ℕ × Callback)) : timesOf h (x :: l) = timesOf h l := by
  simp [timesOf, hx]

/-- A timeout of another handler in its place. -/
theorem timesOf_place_of_ne (hx : x.2.h ≠ h) (p : ℕ × Callback → Bool) (l : List (ℕ × Callback)) :
    timesOf h (place p x l) = timesOf h l := by
  rw [place, timesOf_append, timesOf_cons_of_ne hx, ← timesOf_append, List.takeWhile_append_dropWhile]

/-- The only timeout of the handler in its place. -/
theorem timesOf_place_self (hx : x.2.h = h) (p : ℕ × Callback → Bool) (hl : timesOf h l = []) :
    timesOf h (place p x l) = [x.1] := by
  rw [← List.takeWhile_append_dropWhile (p := p) (l := l), timesOf_append, List.append_eq_nil_iff] at hl
  rw [place, timesOf_append, timesOf_cons_self hx, hl.1, hl.2, List.nil_append]

end TimesOf

/-- When timeouts of the handler are due. -/
def Timeouts.dues (s : Timeouts) (h : ℕ) : List ℕ := timesOf h s.pending

/-- When timeouts of the handler have expired. -/
def Timeouts.times (s : Timeouts) (h : ℕ) : List ℕ := timesOf h s.expired

/-- The handler was called every `p` milliseconds, and is next. -/
def Timeouts.Periodic (s : Timeouts) (h p : ℕ) : Prop :=
  ∃ i, s.times h = (List.range i).map (fun k => p * (k + 1)) ∧ s.dues h = [p * (i + 1)]

section Timeouts

variable {s s' : Timeouts} {h h' p : ℕ} {c : Callback}

/-- With a free element, the timeout becomes pending at its time. -/
theorem pending_sysTimeout (hfree : s.free ≠ 0) (msecs : UInt32) (handler arg : ℕ) :
    (s.sysTimeout msecs handler arg).pending =
      place (fun y => decide (y.1 ≤ s.waited + msecs.toNat)) (s.waited + msecs.toNat, ⟨handler, arg, s.set.length⟩)
        s.pending := by
  rw [Timeouts.sysTimeout, if_neg hfree, Timeouts.pending, delays_insertTimeout, deadlines_insertDelay]
  rfl

/-- Nothing expires in `sys_timeout`. -/
theorem expired_sysTimeout (msecs : UInt32) (handler arg : ℕ) : (s.sysTimeout msecs handler arg).expired = s.expired := by
  unfold Timeouts.sysTimeout
  split <;> rfl

/-- The timeouts of other handlers stay. -/
theorem dues_sysTimeout_of_ne (hfree : s.free ≠ 0) (msecs : UInt32) (arg : ℕ) (hne : h' ≠ h) :
    (s.sysTimeout msecs h' arg).dues h = s.dues h := by
  rw [Timeouts.dues, pending_sysTimeout hfree]
  exact timesOf_place_of_ne hne _ _

/-- A handler without a timeout is due at the time that was asked for. -/
theorem dues_sysTimeout (hfree : s.free ≠ 0) (msecs : UInt32) (arg : ℕ) (hnone : s.dues h = []) :
    (s.sysTimeout msecs h arg).dues h = [s.waited + msecs.toNat] := by
  rw [Timeouts.dues, pending_sysTimeout hfree]
  exact timesOf_place_self (h := h) rfl _ hnone

/-- Only the times of the handler count. -/
theorem Timeouts.Periodic.congr (hp : s.Periodic h p) (hdues : s'.dues h = s.dues h) (htimes : s'.times h = s.times h) :
    s'.Periodic h p := by
  unfold Timeouts.Periodic
  rw [hdues, htimes]
  exact hp

/-- A timeout of another handler does not disturb it. -/
theorem Timeouts.Periodic.sysTimeout (hp : s.Periodic h p) (hfree : s.free ≠ 0) (msecs : UInt32) (arg : ℕ) (hne : h' ≠ h) :
    (s.sysTimeout msecs h' arg).Periodic h p :=
  hp.congr (dues_sysTimeout_of_ne hfree msecs arg hne) (congrArg (timesOf h) (expired_sysTimeout msecs h' arg))

/-- What the expiry of a timeout of the handler `c.h` does: it goes from the front of those that are due to the end of those
that have expired. -/
structure Timeouts.Expires (s s' : Timeouts) (c : Callback) : Prop where
  dues : s.dues c.h = s'.waited :: s'.dues c.h
  times : s'.times c.h = s.times c.h ++ [s'.waited]
  dues_of_ne : ∀ h, c.h ≠ h → s'.dues h = s.dues h
  times_of_ne : ∀ h, c.h ≠ h → s'.times h = s.times h
  free : s'.free ≠ 0
  mem : (s'.waited, c) ∈ s.pending
  subset : ∀ x ∈ s'.pending, x ∈ s.pending

/-- What a round calls has expired in it. -/
theorem expires_of_round (hround : s.Round s' (some c)) : s.Expires s' c := by
  obtain ⟨t, l, hlist⟩ := hround
  have hpending : s.pending = (s.waited + t.time.toNat, t.callback) :: deadlines (s.waited + t.time.toNat) (delays l) := by
    rw [Timeouts.pending, hlist]
    rfl
  constructor
  · rw [Timeouts.dues, hpending]
    exact timesOf_cons_self rfl _
  · refine (timesOf_append _ _ _).trans (congrArg _ ?_)
    exact timesOf_cons_self rfl []
  · intro h hne
    rw [Timeouts.dues, Timeouts.dues, hpending]
    exact (timesOf_cons_of_ne hne _).symm
  · intro h hne
    refine (timesOf_append _ _ _).trans ?_
    rw [timesOf_cons_of_ne hne]
    exact List.append_nil _
  · exact Nat.succ_ne_zero _
  · rw [hpending]
    exact List.mem_cons_self
  · intro x hx
    rw [hpending]
    exact List.mem_cons_of_mem _ hx

/-- A handler that sets its timeout again goes on. -/
theorem Timeouts.Periodic.again {msecs : UInt32} (hp : s.Periodic c.h msecs.toNat) (he : s.Expires s' c) (arg : ℕ) :
    (s'.sysTimeout msecs c.h arg).Periodic c.h msecs.toNat := by
  obtain ⟨i, htimes, hdues⟩ := hp
  have hfront := he.dues.symm.trans hdues
  have hwaited : s'.waited = msecs.toNat * (i + 1) := List.head_eq_of_cons_eq hfront
  have hnone : s'.dues c.h = [] := List.tail_eq_of_cons_eq hfront
  refine ⟨i + 1, ?_, ?_⟩
  · refine (congrArg (timesOf c.h) (expired_sysTimeout msecs c.h arg)).trans ?_
    rw [List.range_succ, List.map_append, ← htimes]
    refine he.times.trans ?_
    rw [hwaited]
    rfl
  · rw [dues_sysTimeout he.free msecs arg hnone, hwaited, Nat.mul_add _ (i + 1) 1, Nat.mul_one]

/-- While a message is waited for, nothing changes. -/
theorem pending_of_wait (hround : s.Round s' none) : s'.pending = s.pending ∧ s'.expired = s.expired := by
  cases hround with
  | waits l timeNeeded hpending hlen => exact ⟨hpending, rfl⟩

end Timeouts

/-! ## The timers -/

/-- A handler of the three. -/
def IsCyclic (h : ℕ) : Prop := h = ipReassTimer ∨ h = arpTimer ∨ h = tcpipTcpTimer

instance : DecidablePred IsCyclic := fun h => inferInstanceAs (Decidable (h = ipReassTimer ∨ h = arpTimer ∨ h = tcpipTcpTimer))

/-- **The timers go on.** The two that always run are called at every multiple of their interval; that of TCP is set once
when it is active, and there is nothing else. -/
structure CyclicTimers.GoOn (s : CyclicTimers) : Prop where
  laws : s.timeouts.Laws mempNumSysTimeout
  ipReass : s.timeouts.Periodic ipReassTimer ipTmrInterval.toNat
  arp : s.timeouts.Periodic arpTimer arpTmrInterval.toNat
  tcp : (s.timeouts.dues tcpipTcpTimer).length = if s.tcpipTcpTimerActive then 1 else 0
  only : ∀ x ∈ s.timeouts.pending, IsCyclic x.2.h

/-- The handlers are different. -/
theorem length_timesOf (l : List (ℕ × Callback)) (honly : ∀ x ∈ l, IsCyclic x.2.h) :
    l.length = (timesOf ipReassTimer l).length + (timesOf arpTimer l).length + (timesOf tcpipTcpTimer l).length := by
  induction l with
  | nil => rfl
  | cons x l ih =>
      have ih := ih fun y hy => honly y (List.mem_cons_of_mem x hy)
      obtain hx | hx | hx := honly x List.mem_cons_self
      · rw [timesOf_cons_self hx, timesOf_cons_of_ne (by rw [hx]; decide), timesOf_cons_of_ne (by rw [hx]; decide),
          List.length_cons, List.length_cons, ih]
        omega
      · rw [timesOf_cons_of_ne (by rw [hx]; decide), timesOf_cons_self hx, timesOf_cons_of_ne (by rw [hx]; decide),
          List.length_cons, List.length_cons, ih]
        omega
      · rw [timesOf_cons_of_ne (by rw [hx]; decide), timesOf_cons_of_ne (by rw [hx]; decide), timesOf_cons_self hx,
          List.length_cons, List.length_cons, ih]
        omega

section Steps

variable {s : CyclicTimers} {t : Timeouts} {c : Callback}

/-- There is an element for the timer of TCP when it is not active. -/
theorem CyclicTimers.GoOn.free (h : s.GoOn) (hidle : s.tcpipTcpTimerActive = false) : s.timeouts.free ≠ 0 := by
  have hpool := h.laws.pool
  have htcp := h.tcp
  have hlen := length_timesOf s.timeouts.pending h.only
  obtain ⟨i, -, hip⟩ := h.ipReass
  obtain ⟨j, -, harp⟩ := h.arp
  have hip' := congrArg List.length hip
  have harp' := congrArg List.length harp
  rw [hidle, if_neg Bool.false_ne_true] at htcp
  rw [length_pending] at hlen
  unfold Timeouts.dues at htcp hip' harp'
  rw [List.length_singleton] at hip' harp'
  unfold mempNumSysTimeout at hpool
  omega

/-- Only timeouts of the three handlers are set. -/
theorem only_sysTimeout (hfree : t.free ≠ 0) (msecs : UInt32) {h : ℕ} (hh : IsCyclic h)
    (honly : ∀ x ∈ t.pending, IsCyclic x.2.h) : ∀ x ∈ (t.sysTimeout msecs h 0).pending, IsCyclic x.2.h := by
  intro x hx
  rw [pending_sysTimeout hfree] at hx
  obtain hx | hx := List.mem_append.mp ((perm_place _ _ _).subset hx)
  · exact honly x hx
  · obtain rfl := List.mem_singleton.mp hx
    exact hh

/-- `tcp_timer_needed` sets the TCP timer when it is not set. -/
theorem goOn_tcpTimerNeeded (h : s.GoOn) (pcbs : Bool) : (s.tcpTimerNeeded pcbs).GoOn := by
  unfold CyclicTimers.tcpTimerNeeded
  split
  · rename_i hneeded
    have hidle : s.tcpipTcpTimerActive = false := by
      rw [Bool.and_eq_true_iff, Bool.not_eq_true'] at hneeded
      exact hneeded.1
    have hfree := h.free hidle
    have htcp := h.tcp
    rw [hidle, if_neg Bool.false_ne_true] at htcp
    exact {
      laws := h.laws.sysTimeout _ _ _
      ipReass := h.ipReass.sysTimeout hfree _ _ (by decide)
      arp := h.arp.sysTimeout hfree _ _ (by decide)
      tcp := congrArg List.length (dues_sysTimeout hfree _ _ (List.eq_nil_of_length_eq_zero htcp))
      only := only_sysTimeout hfree _ (.inr (.inr rfl)) h.only }
  · exact h

/-- A timer expires, and its handler is called. -/
theorem goOn_call (h : s.GoOn) (he : s.timeouts.Expires t c) (hlaws : t.Laws mempNumSysTimeout) (pcbs : Bool) :
    (CyclicTimers.call { s with timeouts := t } pcbs c.h).GoOn := by
  have honly : ∀ x ∈ t.pending, IsCyclic x.2.h := fun x hx => h.only x (he.subset x hx)
  have hother : ∀ {k p : ℕ}, c.h ≠ k → s.timeouts.Periodic k p → t.Periodic k p := fun hne hp =>
    hp.congr (he.dues_of_ne _ hne) (he.times_of_ne _ hne)
  have htcp : c.h ≠ tcpipTcpTimer → (t.dues tcpipTcpTimer).length = if s.tcpipTcpTimerActive then 1 else 0 := fun hne => by
    rw [he.dues_of_ne _ hne]
    exact h.tcp
  have hip := h.ipReass
  have harp := h.arp
  obtain hc | hc | hc := h.only _ he.mem
  · -- `ip_reass_timer` sets itself again
    have hne : c.h ≠ tcpipTcpTimer := by rw [hc]; decide
    have hagain : (t.sysTimeout ipTmrInterval ipReassTimer 0).Periodic ipReassTimer ipTmrInterval.toNat := by
      rw [← hc] at hip ⊢
      exact hip.again he 0
    rw [CyclicTimers.call, if_pos hc]
    exact {
      laws := hlaws.sysTimeout _ _ _
      ipReass := hagain
      arp := (hother (by rw [hc]; decide) harp).sysTimeout he.free _ _ (by decide)
      tcp := (congrArg List.length (dues_sysTimeout_of_ne he.free _ _ (by decide))).trans (htcp hne)
      only := only_sysTimeout he.free _ (.inl rfl) honly }
  · -- `arp_timer` sets itself again
    have hne : c.h ≠ tcpipTcpTimer := by rw [hc]; decide
    have hagain : (t.sysTimeout arpTmrInterval arpTimer 0).Periodic arpTimer arpTmrInterval.toNat := by
      rw [← hc] at harp ⊢
      exact harp.again he 0
    rw [CyclicTimers.call, if_neg (by rw [hc]; decide), if_pos hc]
    exact {
      laws := hlaws.sysTimeout _ _ _
      ipReass := (hother (by rw [hc]; decide) hip).sysTimeout he.free _ _ (by decide)
      arp := hagain
      tcp := (congrArg List.length (dues_sysTimeout_of_ne he.free _ _ (by decide))).trans (htcp hne)
      only := only_sysTimeout he.free _ (.inr (.inl rfl)) honly }
  · -- `tcpip_tcp_timer` was the only one of its handler
    have hnone : t.dues tcpipTcpTimer = [] := by
      have hdues := he.dues
      have hlen := h.tcp
      rw [hc] at hdues
      rw [hdues, List.length_cons] at hlen
      refine List.eq_nil_of_length_eq_zero ?_
      split at hlen <;> omega
    have hactive : s.tcpipTcpTimerActive = true := by
      have hdues := he.dues
      have hlen := h.tcp
      rw [hc] at hdues
      rw [hdues, List.length_cons] at hlen
      by_contra hidle
      rw [if_neg hidle] at hlen
      omega
    have hipt := hother (k := ipReassTimer) (by rw [hc]; decide) hip
    have harpt := hother (k := arpTimer) (by rw [hc]; decide) harp
    rw [CyclicTimers.call, if_neg (by rw [hc]; decide), if_neg (by rw [hc]; decide), if_pos hc]
    cases pcbs with
    | true =>
        rw [if_pos rfl]
        refine ⟨hlaws.sysTimeout _ _ _, hipt.sysTimeout he.free _ _ (by decide), harpt.sysTimeout he.free _ _ (by decide), ?_,
          only_sysTimeout he.free _ (.inr (.inr rfl)) honly⟩
        show (Timeouts.dues _ tcpipTcpTimer).length = if s.tcpipTcpTimerActive then 1 else 0
        rw [hactive, if_pos rfl]
        exact congrArg List.length (dues_sysTimeout he.free _ _ hnone)
    | false => exact ⟨hlaws, hipt, harpt, congrArg List.length hnone, honly⟩

end Steps

/-- `sys_timeouts_init` starts the timers. -/
theorem goOn_init : sysTimeoutsInit.GoOn where
  laws := ((laws_init mempNumSysTimeout).sysTimeout _ _ _).sysTimeout _ _ _
  ipReass := ⟨0, by decide, by decide⟩
  arp := ⟨0, by decide, by decide⟩
  tcp := by decide
  only := by decide

/-- **The cyclic timers.** In every run, the timers of `ip_reass_tmr` and `etharp_tmr` are called at each multiple of their
interval up to now and are set for the next one, that of `tcp_tmr` is set once when it is needed, and memory never runs out. -/
theorem cyclic_of_run {s : CyclicTimers} {es : List CyclicEvent}
    (haccurate : RunMeets CyclicTimers.step CyclicTimers.Accurate sysTimeoutsInit es)
    (hrun : run CyclicTimers.step sysTimeoutsInit es = some s) : s.GoOn := by
  refine run_invariant_of_meets (I := CyclicTimers.GoOn) (fun s e s' h hacc hstep => ?_) goOn_init haccurate hrun
  cases e with
  | tcpTimerNeeded pcbs =>
      obtain rfl := Option.some.inj hstep
      exact goOn_tcpTimerNeeded h pcbs
  | fetchRound fetched pcbs =>
      obtain ⟨⟨t, c⟩, hfetch, rfl⟩ := Option.map_eq_some_iff.mp hstep
      have hround := round_fetchRound hacc hfetch
      have hlaws := h.laws.round hround
      cases c with
      | some c => exact goOn_call h (expires_of_round hround) hlaws pcbs
      | none =>
          obtain ⟨hpending, hexpired⟩ := pending_of_wait hround
          have hdues : ∀ k, t.dues k = s.timeouts.dues k := fun k => congrArg (timesOf k) hpending
          have htimes : ∀ k, t.times k = s.timeouts.times k := fun k => congrArg (timesOf k) hexpired
          exact ⟨hlaws, h.ipReass.congr (hdues _) (htimes _), h.arp.congr (hdues _) (htimes _),
            (congrArg List.length (hdues _)).trans h.tcp, fun x hx => h.only x (hpending ▸ hx)⟩

instance (s : CyclicTimers) (e : CyclicEvent) : Decidable (s.Accurate e) :=
  match e with
  | .tcpTimerNeeded _ => isTrue trivial
  | .fetchRound fetched _ => inferInstanceAs (Decidable (s.timeouts.Accurate (.fetchRound fetched)))

/-- A connection is there for the first 500 ms, and then a message comes. -/
def firstSecond : List CyclicEvent :=
  [.tcpTimerNeeded true, .fetchRound none true, .fetchRound none false, .fetchRound (some 100) false, .fetchRound none false]

/-- What `firstSecond` leaves. -/
def afterFirstSecond : CyclicTimers where
  timeouts :=
    { nextTimeout := [⟨1000, ipReassTimer, 0, 4⟩, ⟨3000, arpTimer, 0, 1⟩]
      free := 1
      waited := 1000
      set :=
        [(1000, ⟨ipReassTimer, 0, 0⟩), (5000, ⟨arpTimer, 0, 1⟩), (250, ⟨tcpipTcpTimer, 0, 2⟩),
          (500, ⟨tcpipTcpTimer, 0, 3⟩), (2000, ⟨ipReassTimer, 0, 4⟩)]
      removed := []
      expired := [(250, ⟨tcpipTcpTimer, 0, 2⟩), (500, ⟨tcpipTcpTimer, 0, 3⟩), (1000, ⟨ipReassTimer, 0, 0⟩)] }
  tcpipTcpTimerActive := false

/-- The clock of the run is accurate. -/
theorem accurate_firstSecond : RunMeets CyclicTimers.step CyclicTimers.Accurate sysTimeoutsInit firstSecond := by decide

/-- The first second behind `sys_timeouts_init`. -/
theorem cyclic_of_run_firstSecond : afterFirstSecond.GoOn := cyclic_of_run accurate_firstSecond (by decide)

end BareMetal.Sys
