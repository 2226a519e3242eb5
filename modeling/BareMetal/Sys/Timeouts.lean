import BareMetal.Lib.DeltaList
import BareMetal.Lib.Run
import Mathlib.Algebra.Group.Nat.Defs

/-! # Timeouts

`sys_timeout`, `sys_untimeout` and `sys_timeouts_mbox_fetch` of `timers.c`. The list `next_timeout` is a delta list: each
timeout has its time behind the one before it, in milliseconds of 32 bits. The clock is the time that was waited in
`sys_arch_mbox_fetch`. In every run, each timeout expires at its time by this clock, not before and not later, in the order of
the times and, at one time, in the order of the calls (`timeouts_of_run`). -/

namespace BareMetal.Sys

/-- `struct sys_timeo`, with the number of the call of `sys_timeout` that made it. -/
structure SysTimeo where
  time : UInt32
  h : ℕ
  arg : ℕ
  call : ℕ
  deriving DecidableEq, Repr

/-- What a timeout is for: the handler with its argument, and the number of the call. -/
structure Callback where
  h : ℕ
  arg : ℕ
  call : ℕ
  deriving DecidableEq, Repr

/-- `next_timeout`, the number of free elements of `MEMP_SYS_TIMEOUT`, the time that was waited, and the history: the
timeouts with their times, as they were set, as they were removed, and as they have expired. -/
structure Timeouts where
  nextTimeout : List SysTimeo
  free : ℕ
  waited : ℕ
  set : List (ℕ × Callback)
  removed : List (ℕ × Callback)
  expired : List (ℕ × Callback)
  deriving DecidableEq, Repr

/-! ## The functions -/

/-- The loop of `sys_timeout`, which is at `t` in front of `l`. -/
def insertLoop (timeout : SysTimeo) : SysTimeo → List SysTimeo → List SysTimeo
  | t, [] => [t, { timeout with time := timeout.time - t.time }]
  | t, next :: l =>
      let left := timeout.time - t.time
      if left < next.time then t :: { timeout with time := left } :: { next with time := next.time - left } :: l
      else t :: insertLoop { timeout with time := left } next l

/-- `sys_timeout`, when there is memory for `timeout`. -/
def insertTimeout (timeout : SysTimeo) : List SysTimeo → List SysTimeo
  | [] => [timeout]
  | t :: l =>
      if timeout.time < t.time then timeout :: { t with time := t.time - timeout.time } :: l
      else insertLoop timeout t l

/-- The callback of an element. -/
def SysTimeo.callback (t : SysTimeo) : Callback := ⟨t.h, t.arg, t.call⟩

/-- `sys_timeout(msecs, handler, arg)`. -/
def Timeouts.sysTimeout (s : Timeouts) (msecs : UInt32) (handler arg : ℕ) : Timeouts :=
  if s.free = 0 then s
  else
    { s with
      nextTimeout := insertTimeout ⟨msecs, handler, arg, s.set.length⟩ s.nextTimeout
      free := s.free - 1
      set := s.set ++ [(s.waited + msecs.toNat, ⟨handler, arg, s.set.length⟩)] }

/-- `(t->h == handler) && (t->arg == arg)`. -/
def Callback.isFor (handler arg : ℕ) (c : Callback) : Bool := c.h == handler && c.arg == arg

/-- The end of `sys_untimeout`: the time of the element that is removed goes to the next one. -/
def giveTime (time : UInt32) : List SysTimeo → List SysTimeo
  | [] => []
  | next :: l => { next with time := next.time + time } :: l

/-- The loop of `sys_untimeout`. -/
def removeLoop (handler arg : ℕ) : List SysTimeo → List SysTimeo
  | [] => []
  | t :: l => if t.callback.isFor handler arg then giveTime t.time l else t :: removeLoop handler arg l

/-- The list with its times as numbers. -/
def delays (l : List SysTimeo) : List (ℕ × Callback) := l.map fun t => (t.time.toNat, t.callback)

/-- The timeouts that are set, with the times at which they expire. -/
def Timeouts.pending (s : Timeouts) : List (ℕ × Callback) := deadlines s.waited (delays s.nextTimeout)

/-- `sys_untimeout(handler, arg)`. -/
def Timeouts.sysUntimeout (s : Timeouts) (handler arg : ℕ) : Timeouts :=
  match s.pending.find? fun x => x.2.isFor handler arg with
  | none => s
  | some x =>
      { s with
        nextTimeout := removeLoop handler arg s.nextTimeout
        free := s.free + 1
        removed := s.removed ++ [x] }

/-- The timeout `t` in front of `l` expires. -/
def Timeouts.expire (s : Timeouts) (t : SysTimeo) (l : List SysTimeo) : Timeouts :=
  { s with nextTimeout := l, free := s.free + 1, expired := s.expired ++ [(s.waited, t.callback)] }

/-- A round of `sys_timeouts_mbox_fetch`, with the callback that is called at its end. `fetched` is what
`sys_arch_mbox_fetch` returns: the time that was waited for the message, or nothing for `SYS_ARCH_TIMEOUT`. Without a timeout, it
waits until there is a message. -/
def Timeouts.fetchRound (s : Timeouts) (fetched : Option UInt32) : Option (Timeouts × Option Callback) :=
  match s.nextTimeout, fetched with
  | [], none => none
  | [], some timeNeeded => some ({ s with waited := s.waited + timeNeeded.toNat }, none)
  | t :: l, fetched =>
      if 0 < t.time then
        match fetched with
        | none => some ({ s with waited := s.waited + t.time.toNat }.expire t l, some t.callback)
        | some timeNeeded =>
            some
              ({ s with
                nextTimeout := { t with time := if timeNeeded < t.time then t.time - timeNeeded else 0 } :: l
                waited := s.waited + timeNeeded.toNat }, none)
      else some (s.expire t l, some t.callback)

/-- A call of `sys_timeout` or `sys_untimeout`, of a handler or another one, or a round of `sys_timeouts_mbox_fetch`. -/
inductive TimeoutEvent
  | sysTimeout (msecs : UInt32) (handler arg : ℕ)
  | sysUntimeout (handler arg : ℕ)
  | fetchRound (fetched : Option UInt32)

def Timeouts.step (s : Timeouts) : TimeoutEvent → Option Timeouts
  | .sysTimeout msecs handler arg => some (s.sysTimeout msecs handler arg)
  | .sysUntimeout handler arg => some (s.sysUntimeout handler arg)
  | .fetchRound fetched => (s.fetchRound fetched).map Prod.fst

/-- Before the first call, with `n` elements in the pool. -/
def Timeouts.init (n : ℕ) : Timeouts := ⟨[], n, 0, [], [], []⟩

/-- `sys_arch_mbox_fetch` waits no longer than it was asked to. -/
def Timeouts.Accurate (s : Timeouts) : TimeoutEvent → Prop
  | .fetchRound (some timeNeeded) => ∀ t ∈ s.nextTimeout.head?, timeNeeded ≤ t.time
  | _ => True

/-! ## The list and its times -/

section Delays

variable {timeout t : SysTimeo} {l : List SysTimeo}

/-- The delays of a list, one by one. -/
theorem delays_cons (t : SysTimeo) (l : List SysTimeo) : delays (t :: l) = (t.time.toNat, t.callback) :: delays l := rfl

/-- The loop of `sys_timeout` is the insertion into a delta list. -/
theorem delays_insertLoop (hle : t.time ≤ timeout.time) :
    delays (insertLoop timeout t l) = insertDelay timeout.time.toNat timeout.callback (delays (t :: l)) := by
  induction l generalizing timeout t with
  | nil =>
      have hnot : ¬timeout.time.toNat < t.time.toNat := Nat.not_lt_of_le (UInt32.le_iff_toNat_le.mp hle)
      rw [delays_cons, insertDelay, if_neg hnot, ← UInt32.toNat_sub_of_le _ _ hle]
      rfl
  | cons next l ih =>
      have hnot : ¬timeout.time.toNat < t.time.toNat := Nat.not_lt_of_le (UInt32.le_iff_toNat_le.mp hle)
      have hleft := UInt32.toNat_sub_of_le timeout.time t.time hle
      rw [delays_cons, insertDelay, if_neg hnot, insertLoop, ← hleft]
      by_cases hlt : timeout.time - t.time < next.time
      · have htime := UInt32.toNat_sub_of_le next.time (timeout.time - t.time) (UInt32.le_of_lt hlt)
        rw [if_pos hlt, delays_cons next, insertDelay, if_pos (UInt32.lt_iff_toNat_lt.mp hlt), ← htime]
        rfl
      · have hnext : next.time ≤ timeout.time - t.time := UInt32.not_lt.mp hlt
        rw [if_neg hlt, delays_cons]
        exact congrArg _ (ih hnext)

/-- `sys_timeout` inserts into the delta list. -/
theorem delays_insertTimeout (timeout : SysTimeo) (l : List SysTimeo) :
    delays (insertTimeout timeout l) = insertDelay timeout.time.toNat timeout.callback (delays l) := by
  cases l with
  | nil => rfl
  | cons t l =>
      rw [insertTimeout]
      by_cases hlt : timeout.time < t.time
      · rw [if_pos hlt, delays_cons t, insertDelay, if_pos (UInt32.lt_iff_toNat_lt.mp hlt),
          ← UInt32.toNat_sub_of_le t.time timeout.time (UInt32.le_of_lt hlt)]
        rfl
      · rw [if_neg hlt]
        exact delays_insertLoop (UInt32.not_lt.mp hlt)

/-- `sys_untimeout` removes from the delta list. No time is as large as 2^32 from `start` on, so the addition in it does not
go round. -/
theorem delays_removeLoop {start base : ℕ} (handler arg : ℕ) (hbase : start ≤ base)
    (h : ∀ x ∈ deadlines base (delays l), x.1 < start + 2 ^ 32) :
    delays (removeLoop handler arg l) = removeDelay (Callback.isFor handler arg) (delays l) := by
  induction l generalizing base with
  | nil => rfl
  | cons t l ih =>
      have htail : ∀ x ∈ deadlines (base + t.time.toNat) (delays l), x.1 < start + 2 ^ 32 := fun x hx =>
        h x (List.mem_cons_of_mem _ hx)
      rw [removeLoop, delays_cons, removeDelay]
      split
      · cases l with
        | nil => rfl
        | cons next l =>
            have hnext : base + t.time.toNat + next.time.toNat < start + 2 ^ 32 := htail _ List.mem_cons_self
            have hsum : (next.time + t.time).toNat = next.time.toNat + t.time.toNat := by
              rw [UInt32.toNat_add, Nat.mod_eq_of_lt (by omega)]
            rw [giveTime, delays_cons, delays_cons, addDelay, hsum]
            rfl
      · rw [delays_cons, ih (Nat.le_trans hbase (Nat.le_add_right _ _)) htail]

end Delays

/-! ## The laws -/

/-- `x` expires before `y`: its time is before, or it is the same and the call was before. -/
def ExpiresBefore (x y : ℕ × Callback) : Prop := x.1 < y.1 ∨ x.1 = y.1 ∧ x.2.call < y.2.call

/-- **The laws of the timeouts**, with `n` elements in the pool. Each timeout that was set has expired at its time, or is
pending, or was removed; what has expired and what is pending is in order, and no pending one is late. -/
structure Timeouts.Laws (n : ℕ) (s : Timeouts) : Prop where
  accounted : (s.expired ++ s.pending ++ s.removed).Perm s.set
  ordered : (s.expired ++ s.pending).Pairwise ExpiresBefore
  past : ∀ x ∈ s.expired, x.1 ≤ s.waited
  due : ∀ x ∈ s.pending, s.waited ≤ x.1
  near : ∀ x ∈ s.pending, x.1 < s.waited + 2 ^ 32
  call_lt : ∀ x ∈ s.set, x.2.call < s.set.length
  pool : s.free + s.nextTimeout.length = n

/-- Nothing is set, and the whole pool is free. -/
theorem laws_init (n : ℕ) : (Timeouts.init n).Laws n where
  accounted := List.Perm.nil
  ordered := List.Pairwise.nil
  past := fun _ h => absurd h List.not_mem_nil
  due := fun _ h => absurd h List.not_mem_nil
  near := fun _ h => absurd h List.not_mem_nil
  call_lt := fun _ h => absurd h List.not_mem_nil
  pool := rfl

section Steps

variable {n : ℕ} {s s' : Timeouts}

/-- An element may be counted at the end. -/
theorem perm_append_middle {α : Type} (l₁ l₂ l₃ : List α) (x : α) :
    (l₁ ++ (l₂ ++ [x]) ++ l₃).Perm (l₁ ++ l₂ ++ l₃ ++ [x]) := by
  rw [← List.append_assoc l₁ l₂ [x], List.append_assoc (l₁ ++ l₂) [x] l₃, List.append_assoc (l₁ ++ l₂) l₃ [x]]
  exact List.perm_append_comm.append_left _

/-- Each element of the list is a pending timeout. -/
theorem length_pending (s : Timeouts) : s.pending.length = s.nextTimeout.length := by
  rw [Timeouts.pending, length_deadlines, delays, List.length_map]

/-- Only timeouts that were set expire or are pending. -/
theorem Timeouts.Laws.mem_set (h : s.Laws n) {x : ℕ × Callback} (hx : x ∈ s.expired ++ s.pending) : x ∈ s.set :=
  h.accounted.subset (List.mem_append_left _ hx)

/-- What has expired and what is pending are in the order of their times. -/
theorem Timeouts.Laws.sorted (h : s.Laws n) : (s.expired ++ s.pending).Pairwise fun x y => x.1 ≤ y.1 :=
  h.ordered.imp fun hxy => hxy.elim Nat.le_of_lt fun heq => heq.1.le

/-- `sys_timeout` keeps the laws. -/
theorem Timeouts.Laws.sysTimeout (h : s.Laws n) (msecs : UInt32) (handler arg : ℕ) :
    (s.sysTimeout msecs handler arg).Laws n := by
  unfold Timeouts.sysTimeout
  split
  · exact h
  rename_i hfree
  have hmsecs := msecs.toNat_lt
  -- the new timeout, and where it is put
  let x : ℕ × Callback := (s.waited + msecs.toNat, ⟨handler, arg, s.set.length⟩)
  let p : ℕ × Callback → Bool := fun y => decide (y.1 ≤ s.waited + msecs.toNat)
  have hpending : deadlines s.waited (delays (insertTimeout ⟨msecs, handler, arg, s.set.length⟩ s.nextTimeout)) =
      place p x s.pending := by
    rw [delays_insertTimeout, deadlines_insertDelay]
    rfl
  have hall : s.expired ++ place p x s.pending = place p x (s.expired ++ s.pending) :=
    (place_append (fun y hy => decide_eq_true (Nat.le_trans (h.past y hy) (Nat.le_add_right _ _))) _).symm
  have hmem : ∀ y ∈ place p x s.pending, y ∈ s.pending ∨ y = x := fun y hy =>
    (List.mem_append.mp ((perm_place p x s.pending).subset hy)).imp_right List.mem_singleton.mp
  have hset : ∀ y ∈ s.expired ++ s.pending, y.2.call < s.set.length := fun y hy => h.call_lt y (h.mem_set hy)
  constructor
  · show (s.expired ++ deadlines s.waited (delays (insertTimeout _ s.nextTimeout)) ++ s.removed).Perm (s.set ++ [x])
    rw [hpending]
    exact ((((perm_place p x s.pending).append_left _).append_right _).trans (perm_append_middle _ _ _ x)).trans
      (h.accounted.append_right [x])
  · show (s.expired ++ deadlines s.waited (delays (insertTimeout _ s.nextTimeout))).Pairwise ExpiresBefore
    rw [hpending, hall]
    refine pairwise_place_of h.ordered (fun y hy => ?_) fun y hy => ?_
    · have hp : p y = true := List.mem_takeWhile_imp hy
      have hle : y.1 ≤ s.waited + msecs.toNat := of_decide_eq_true hp
      obtain hlt | heq := Nat.lt_or_eq_of_le hle
      · exact .inl hlt
      · exact .inr ⟨heq, hset y ((List.takeWhile_sublist p).subset hy)⟩
    · exact .inl (lt_of_mem_dropWhile h.sorted hy)
  · exact h.past
  · exact fun y hy => le_of_mem_deadlines hy
  · intro y hy
    have hy' : y ∈ place p x s.pending := hpending ▸ hy
    obtain hy' | rfl := hmem y hy'
    · exact h.near y hy'
    · exact Nat.add_lt_add_left hmsecs s.waited
  · intro y hy
    have hlen : (s.set ++ [x]).length = s.set.length + 1 := List.length_append
    rw [hlen]
    obtain hy | hy := List.mem_append.mp hy
    · exact Nat.lt_succ_of_lt (h.call_lt y hy)
    · obtain rfl := List.mem_singleton.mp hy
      exact Nat.lt_succ_self _
  · have hlen : (insertTimeout ⟨msecs, handler, arg, s.set.length⟩ s.nextTimeout).length = s.nextTimeout.length + 1 := by
      have hperm := (perm_place p x s.pending).length_eq
      rw [← hpending, length_deadlines, delays, List.length_map, List.length_append, length_pending] at hperm
      exact hperm
    have hpool := h.pool
    show s.free - 1 + (insertTimeout _ s.nextTimeout).length = n
    rw [hlen]
    omega

/-- `sys_untimeout` keeps the laws. -/
theorem Timeouts.Laws.sysUntimeout (h : s.Laws n) (handler arg : ℕ) : (s.sysUntimeout handler arg).Laws n := by
  unfold Timeouts.sysUntimeout
  split
  · exact h
  rename_i x hfind
  obtain ⟨hx, front, behind, hsplit, hfront⟩ := List.find?_eq_some_iff_append.mp hfind
  -- the search stops at the first entry for the handler and its argument: only that one leaves the list
  have hpending : deadlines s.waited (delays (removeLoop handler arg s.nextTimeout)) = front ++ behind := by
    have hnot : ∀ y ∈ front, ¬(y.2.isFor handler arg = true) := fun y hy => by
      have hy' := hfront y hy
      rw [Bool.not_eq_true'] at hy'
      exact Bool.eq_false_iff.mp hy'
    have hdeadlines : deadlines s.waited (delays s.nextTimeout) = front ++ x :: behind := hsplit
    rw [delays_removeLoop handler arg (Nat.le_refl s.waited) h.near, deadlines_removeDelay, hdeadlines,
      List.eraseP_append_right _ hnot]
    exact congrArg _ (List.eraseP_cons_of_pos (p := fun y : ℕ × Callback => y.2.isFor handler arg) hx)
  have hsub : (front ++ behind).Sublist s.pending := by
    rw [hsplit]
    exact (List.sublist_cons_self x behind).append_left front
  constructor
  · -- it goes from those that are pending to those that were removed
    show (s.expired ++ deadlines s.waited (delays (removeLoop handler arg s.nextTimeout)) ++
      (s.removed ++ [x])).Perm s.set
    have hmiddle : (front ++ x :: behind).Perm (front ++ behind ++ [x]) :=
      List.perm_middle.trans (List.perm_append_singleton x _).symm
    have haccounted := h.accounted
    rw [hsplit] at haccounted
    rw [hpending, ← List.append_assoc]
    refine List.Perm.trans ?_ haccounted
    refine (perm_append_middle _ _ _ x).symm.trans ?_
    exact (hmiddle.symm.append_left _).append_right _
  · show (s.expired ++ deadlines s.waited (delays (removeLoop handler arg s.nextTimeout))).Pairwise ExpiresBefore
    rw [hpending]
    exact h.ordered.sublist (hsub.append_left _)
  · exact h.past
  · exact fun y hy => le_of_mem_deadlines hy
  · intro y hy
    exact h.near y (hsub.subset (hpending ▸ hy))
  · exact h.call_lt
  · have hlen := congrArg List.length hpending
    have hlen' := congrArg List.length hsplit
    rw [length_deadlines, delays, List.length_map, List.length_append] at hlen
    rw [length_pending, List.length_append, List.length_cons] at hlen'
    have hpool := h.pool
    show s.free + 1 + (removeLoop handler arg s.nextTimeout).length = n
    omega

/-- The first timeout expires when it is due. -/
theorem Timeouts.Laws.expire {t : SysTimeo} {l : List SysTimeo} (h : s.Laws n) (hlist : s.nextTimeout = t :: l) :
    ({ s with waited := s.waited + t.time.toNat }.expire t l).Laws n := by
  have hpending : s.pending = (s.waited + t.time.toNat, t.callback) :: deadlines (s.waited + t.time.toNat) (delays l) := by
    rw [Timeouts.pending, hlist]
    rfl
  have hall : s.expired ++ s.pending =
      s.expired ++ [(s.waited + t.time.toNat, t.callback)] ++ deadlines (s.waited + t.time.toNat) (delays l) := by
    rw [hpending, List.append_assoc]
    rfl
  constructor
  · show (s.expired ++ [(s.waited + t.time.toNat, t.callback)] ++ deadlines (s.waited + t.time.toNat) (delays l) ++
      s.removed).Perm s.set
    rw [← hall]
    exact h.accounted
  · show (s.expired ++ [(s.waited + t.time.toNat, t.callback)] ++
      deadlines (s.waited + t.time.toNat) (delays l)).Pairwise ExpiresBefore
    rw [← hall]
    exact h.ordered
  · intro y hy
    obtain hy | hy := List.mem_append.mp hy
    · exact Nat.le_trans (h.past y hy) (Nat.le_add_right _ _)
    · obtain rfl := List.mem_singleton.mp hy
      exact Nat.le_refl _
  · exact fun y hy => le_of_mem_deadlines hy
  · intro y hy
    have hnear := h.near y (hpending ▸ List.mem_cons_of_mem _ hy)
    show y.1 < s.waited + t.time.toNat + 2 ^ 32
    omega
  · exact h.call_lt
  · have hpool := h.pool
    rw [hlist, List.length_cons] at hpool
    show s.free + 1 + l.length = n
    omega

/-- A message comes before the first timeout is due. -/
theorem Timeouts.Laws.wait {l : List SysTimeo} {timeNeeded : ℕ} (h : s.Laws n)
    (hpending : deadlines (s.waited + timeNeeded) (delays l) = s.pending) (hlen : l.length = s.nextTimeout.length) :
    { s with nextTimeout := l, waited := s.waited + timeNeeded }.Laws n := by
  constructor
  · show (s.expired ++ deadlines (s.waited + timeNeeded) (delays l) ++ s.removed).Perm s.set
    rw [hpending]
    exact h.accounted
  · show (s.expired ++ deadlines (s.waited + timeNeeded) (delays l)).Pairwise ExpiresBefore
    rw [hpending]
    exact h.ordered
  · exact fun y hy => Nat.le_trans (h.past y hy) (Nat.le_add_right _ _)
  · exact fun y hy => le_of_mem_deadlines hy
  · intro y hy
    have hnear := h.near y (hpending ▸ hy)
    show y.1 < s.waited + timeNeeded + 2 ^ 32
    omega
  · exact h.call_lt
  · show s.free + l.length = n
    rw [hlen]
    exact h.pool

/-- What a round does: the first timeout expires, or a message comes before. -/
inductive Timeouts.Round (s : Timeouts) : Timeouts → Option Callback → Prop
  | expires (t : SysTimeo) (l : List SysTimeo) (hlist : s.nextTimeout = t :: l) :
      Round s ({ s with waited := s.waited + t.time.toNat }.expire t l) (some t.callback)
  | waits (l : List SysTimeo) (timeNeeded : ℕ)
      (hpending : deadlines (s.waited + timeNeeded) (delays l) = s.pending) (hlen : l.length = s.nextTimeout.length) :
      Round s { s with nextTimeout := l, waited := s.waited + timeNeeded } none

/-- A round waits up to the first timeout at most, or makes it expire. -/
theorem round_fetchRound {fetched : Option UInt32} {c : Option Callback}
    (haccurate : s.Accurate (.fetchRound fetched)) (hround : s.fetchRound fetched = some (s', c)) : s.Round s' c := by
  unfold Timeouts.fetchRound at hround
  split at hround
  · cases hround
  · rename_i timeNeeded hlist
    cases hround
    refine .waits s.nextTimeout _ ?_ rfl
    rw [Timeouts.pending, hlist]
    rfl
  · rename_i t l hlist
    split at hround
    · split at hround
      · cases hround
        exact .expires t l hlist
      · rename_i timeNeeded
        cases hround
        have hle : timeNeeded ≤ t.time := haccurate t (by rw [hlist]; rfl)
        have htime : (if timeNeeded < t.time then t.time - timeNeeded else 0).toNat = t.time.toNat - timeNeeded.toNat := by
          split
          · exact UInt32.toNat_sub_of_le _ _ hle
          · rename_i hnot
            have hge := UInt32.le_iff_toNat_le.mp (UInt32.not_lt.mp hnot)
            exact (Nat.sub_eq_zero_of_le hge).symm
        refine .waits _ _ ?_ (by rw [hlist, List.length_cons, List.length_cons])
        rw [delays_cons, htime, deadlines_wait (UInt32.le_iff_toNat_le.mp hle), Timeouts.pending, hlist]
        rfl
    · rename_i hzero
      cases hround
      have htime : t.time.toNat = 0 := Nat.eq_zero_of_not_pos fun hpos => hzero (UInt32.lt_iff_toNat_lt.mpr hpos)
      have hexpires := Timeouts.Round.expires t l hlist
      rw [htime, Nat.add_zero] at hexpires
      exact hexpires

/-- A round keeps the laws. -/
theorem Timeouts.Laws.round {c : Option Callback} (h : s.Laws n) (hround : s.Round s' c) : s'.Laws n := by
  cases hround with
  | expires t l hlist => exact h.expire hlist
  | waits l timeNeeded hpending hlen => exact h.wait hpending hlen

end Steps

/-- **Timeouts.** At the end of every run, whatever is set and removed in between, each timeout has expired when it was
due, in the order of the times and of the calls, or it was removed, or it is still to come. -/
theorem timeouts_of_run (n : ℕ) {s : Timeouts} {es : List TimeoutEvent}
    (haccurate : RunMeets Timeouts.step Timeouts.Accurate (Timeouts.init n) es)
    (hrun : run Timeouts.step (Timeouts.init n) es = some s) : s.Laws n := by
  refine run_invariant_of_meets (I := Timeouts.Laws n) (fun s e s' h hacc hstep => ?_) (laws_init n) haccurate hrun
  cases e with
  | sysTimeout msecs handler arg =>
      obtain rfl := Option.some.inj hstep
      exact h.sysTimeout msecs handler arg
  | sysUntimeout handler arg =>
      obtain rfl := Option.some.inj hstep
      exact h.sysUntimeout handler arg
  | fetchRound fetched =>
      obtain ⟨⟨s', c⟩, hround, rfl⟩ := Option.map_eq_some_iff.mp hstep
      exact h.round (round_fetchRound hacc hround)

instance (s : Timeouts) (e : TimeoutEvent) : Decidable (s.Accurate e) :=
  match e with
  | .sysTimeout .. => isTrue trivial
  | .sysUntimeout .. => isTrue trivial
  | .fetchRound none => isTrue trivial
  | .fetchRound (some timeNeeded) => inferInstanceAs (Decidable (∀ t ∈ s.nextTimeout.head?, timeNeeded ≤ t.time))

/-- Three timeouts, two of them for the same time. The first one expires, a message comes, and one of the others is removed
before it is due. -/
def threeTimeouts : List TimeoutEvent :=
  [.sysTimeout 1000 1 0, .sysTimeout 250 2 0, .sysTimeout 1000 3 0, .fetchRound none, .fetchRound (some 100),
    .sysUntimeout 1 0, .fetchRound none]

/-- What `threeTimeouts` leaves. -/
def threeExpired : Timeouts where
  nextTimeout := []
  free := 3
  waited := 1000
  set := [(1000, ⟨1, 0, 0⟩), (250, ⟨2, 0, 1⟩), (1000, ⟨3, 0, 2⟩)]
  removed := [(1000, ⟨1, 0, 0⟩)]
  expired := [(250, ⟨2, 0, 1⟩), (1000, ⟨3, 0, 2⟩)]

/-- The clock of the run is accurate. -/
theorem accurate_threeTimeouts : RunMeets Timeouts.step Timeouts.Accurate (Timeouts.init 3) threeTimeouts := by decide

/-- Three timeouts, which expire in another order than they were set in. -/
theorem timeouts_of_run_threeTimeouts : threeExpired.Laws 3 := timeouts_of_run 3 accurate_threeTimeouts (by decide)

end BareMetal.Sys
