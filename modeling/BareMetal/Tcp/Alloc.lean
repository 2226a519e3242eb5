import Mathlib.Order.Basic
import BareMetal.Lib.Records
import BareMetal.Tcp.Ownership
import BareMetal.Tcp.PcbLists

/-! # Allocating a control block

`tcp_alloc` of `tcp.c` with its two fallbacks `tcp_kill_timewait` and `tcp_kill_prio`. The first evicts the
oldest block in TIME_WAIT. The second is said to evict the block that was inactive longest among those
of no higher priority, but it narrows the priority to that of its best candidate so far: what it evicts is the
last record of the list (`records`), and `tcpAlloc_meets_iff` says when this is the right block. -/

namespace BareMetal.Tcp

variable {s s' : Store} {nodes : ListName → List ℕ} {l : ListName} {a b v x : ℕ} {fuel : ℕ}

/-- `TCP_PRIO_MAX`. -/
def tcpPrioMax : UInt8 := 127

/-- `(u32_t)(tcp_ticks - pcb->tmr)`. -/
def Store.inactivity (s : Store) (a : ℕ) : UInt32 := s.tcpTicks - (s.block a).pcb.tmr

/-- `pcb->prio`. -/
def Store.prio (s : Store) (a : ℕ) : UInt8 := (s.block a).prio

/-- `memp_malloc`. -/
def Store.mempMalloc (s : Store) (p : Pool) : Option (ℕ × Store) :=
  match s.free p with
  | [] => none
  | a :: rest => some (a, { s with free := Function.update s.free p rest })

/-- `memp_free`. -/
def Store.mempFree (s : Store) (p : Pool) (a : ℕ) : Store :=
  { s with free := Function.update s.free p (a :: s.free p) }

/-- The connection of the block `a`. -/
def Store.conn (s : Store) (a : ℕ) (home : Home) : Conn where
  pcb := (s.block a).pcb
  home := home
  inputPcb := s.tcpInputPcb == a
  activePcbsChanged := s.tcpActivePcbsChanged
  ticks := s.tcpTicks
  timerCtr := s.tcpTimerCtr
  app := (s.block a).app
  pcbUseAfterFree := false
  calls := []

variable (c : Config) (m : Mem)

/-- The block is given back to its pool, with `conn` as it was left. -/
def Store.release (s : Store) (a : ℕ) (conn : Conn) : Store :=
  { (s.onBlock a fun pcb => { pcb with pcb := conn.pcb, app := conn.app }).mempFree .tcpPcb a with
    tcpActivePcbsChanged := conn.activePcbsChanged }

/-- `tcp_abort(pcb)`: the block leaves its list, is purged and goes back to the pool, and its error callback
runs. -/
def Store.tcpAbort (fuel : ℕ) (s : Store) (a : ℕ) : Option Store :=
  let timeWait := (s.block a).pcb.state == .timeWait
  let conn := Tcp.tcpAbort c m (s.conn a (if timeWait then .timeWait else .active))
  (s.tcpRmv fuel (if timeWait then .timeWait else .active) a).map fun s => s.release a conn

/-- `inactivity` and `inactive` in the loop of `tcp_kill_timewait`. -/
structure Oldest where
  inactivity : UInt32 := 0
  inactive : Option ℕ := none

/-- The body of the loop of `tcp_kill_timewait`. -/
def Store.oldestStep (s : Store) (st : Oldest) (a : ℕ) : Oldest :=
  if st.inactivity ≤ s.inactivity a then { inactivity := s.inactivity a, inactive := some a } else st

/-- `tcp_kill_timewait`. -/
def Store.tcpKillTimewait (fuel : ℕ) (s : Store) : Option Store := do
  let pcbs ← walk 0 s.next fuel (s.head .timeWait)
  match (pcbs.foldl s.oldestStep {}).inactive with
  | some a => s.tcpAbort c m fuel a
  | none => some s

/-- `inactivity`, `inactive` and `mprio` in the loop of `tcp_kill_prio`. -/
structure Victim where
  inactivity : UInt32 := 0
  inactive : Option ℕ := none
  mprio : UInt8 := tcpPrioMax

/-- The body of the loop of `tcp_kill_prio`. -/
def Store.victimStep (s : Store) (prio : UInt8) (st : Victim) (a : ℕ) : Victim :=
  if s.prio a ≤ prio ∧ s.prio a ≤ st.mprio ∧ st.inactivity ≤ s.inactivity a then
    { inactivity := s.inactivity a, inactive := some a, mprio := s.prio a }
  else st

/-- `tcp_kill_prio(prio)`. -/
def Store.tcpKillPrio (fuel : ℕ) (s : Store) (prio : UInt8) : Option Store := do
  let pcbs ← walk 0 s.next fuel (s.head .active)
  match (pcbs.foldl (s.victimStep prio) {}).inactive with
  | some a => s.tcpAbort c m fuel a
  | none => some s

/-- The three tries of `tcp_alloc` to get a block. -/
def Store.obtainPcb (fuel : ℕ) (s : Store) (prio : UInt8) : Option (Option ℕ × Store) :=
  match s.mempMalloc .tcpPcb with
  | some (a, s) => some (some a, s)
  | none => do
      let s ← s.tcpKillTimewait c m fuel
      match s.mempMalloc .tcpPcb with
      | some (a, s) => some (some a, s)
      | none => do
          let s ← s.tcpKillPrio c m fuel prio
          match s.mempMalloc .tcpPcb with
          | some (a, s) => some (some a, s)
          | none => some (none, s)

/-- The part of `tcp_alloc` that fills in the new block. -/
def Store.initPcb (s : Store) (prio : UInt8) (a : ℕ) : Store :=
  let iss := s.iss + s.tcpTicks
  { s with
    iss := iss
    block := Function.update s.block a
      { next := 0, prio := prio, localIp := 0, remoteIp := 0, localPort := 0, remotePort := 0
        pcb := Tcp.tcpAlloc c iss s.tcpTicks s.tcpTimerCtr
        app := (s.block a).app } }

/-- `tcp_alloc(prio)`. -/
def Store.tcpAlloc (fuel : ℕ) (s : Store) (prio : UInt8) : Option (Option ℕ × Store) :=
  (s.obtainPcb c m fuel prio).map fun
    | (some a, s) => (some a, s.initPcb c prio a)
    | (none, s) => (none, s)

/-! ## The two selection loops -/

/-- `b` was inactive at least as long as `a`. -/
def Store.Older (s : Store) (a b : ℕ) : Prop := s.inactivity a ≤ s.inactivity b

/-- `b` was inactive at least as long as `a` and has no higher priority. -/
def Store.Outranks (s : Store) (a b : ℕ) : Prop := s.prio b ≤ s.prio a ∧ s.inactivity a ≤ s.inactivity b

instance (s : Store) : DecidableRel s.Older := fun a b => inferInstanceAs (Decidable (s.inactivity a ≤ s.inactivity b))

instance (s : Store) : DecidableRel s.Outranks := fun a b =>
  inferInstanceAs (Decidable (s.prio b ≤ s.prio a ∧ s.inactivity a ≤ s.inactivity b))

instance (s : Store) : IsTrans ℕ s.Older := ⟨fun _ _ _ h₁ h₂ => UInt32.le_trans h₁ h₂⟩

instance (s : Store) : Std.Total s.Older := ⟨fun _ _ => UInt32.le_total _ _⟩

instance (s : Store) : IsTrans ℕ s.Outranks :=
  ⟨fun _ _ _ h₁ h₂ => ⟨UInt8.le_trans h₂.1 h₁.1, UInt32.le_trans h₁.2 h₂.2⟩⟩

instance (s : Store) : Std.Refl s.Outranks := ⟨fun _ => ⟨UInt8.le_refl _, UInt32.le_refl _⟩⟩

/-- The state of the loop of `tcp_kill_timewait` with the best block so far. -/
def Store.oldestAt (s : Store) (best : Option ℕ) : Oldest where
  inactivity := best.elim 0 s.inactivity
  inactive := best

/-- The loop of `tcp_kill_timewait` keeps the oldest block so far. -/
theorem foldl_oldestStep (s : Store) (l : List ℕ) :
    (l.foldl s.oldestStep {}).inactive = l.foldl (keepBest s.Older) none := by
  have hstep : ∀ best a, s.oldestStep (s.oldestAt best) a = s.oldestAt (keepBest s.Older best a) := by
    intro best a
    cases best with
    | none => exact if_pos UInt32.zero_le
    | some r =>
        rw [Store.oldestStep, keepBest]
        by_cases h : s.Older r a
        · rw [if_pos h]
          exact if_pos h
        · rw [if_neg h]
          exact if_neg h
  have hfold : l.foldl s.oldestStep (s.oldestAt none) = s.oldestAt (l.foldl (keepBest s.Older) none) :=
    List.foldl_hom s.oldestAt hstep
  exact congrArg Oldest.inactive hfold

/-- `tcp_kill_prio` can see the block: its priority is not above `prio`, nor above `TCP_PRIO_MAX`. -/
def Store.Evictable (s : Store) (prio : UInt8) (a : ℕ) : Prop := s.prio a ≤ prio ∧ s.prio a ≤ tcpPrioMax

instance (s : Store) (prio : UInt8) : DecidablePred (s.Evictable prio) := fun a =>
  inferInstanceAs (Decidable (s.prio a ≤ prio ∧ s.prio a ≤ tcpPrioMax))

/-- The state of the loop of `tcp_kill_prio` with the best block so far. -/
def Store.victimAt (s : Store) (best : Option ℕ) : Victim where
  inactivity := best.elim 0 s.inactivity
  inactive := best
  mprio := best.elim tcpPrioMax s.prio

/-- One step of the loop of `tcp_kill_prio`: only an evictable block can take the place of the best. -/
theorem victimStep_victimAt (s : Store) (prio : UInt8) (best : Option ℕ) (a : ℕ)
    (hbest : ∀ r, best = some r → s.Evictable prio r) :
    s.victimStep prio (s.victimAt best) a =
      s.victimAt (if s.Evictable prio a then keepBest s.Outranks best a else best) := by
  cases best with
  | none =>
      by_cases h : s.Evictable prio a
      · rw [if_pos h]
        exact if_pos ⟨h.1, h.2, UInt32.zero_le⟩
      · rw [if_neg h]
        exact if_neg fun hc => h ⟨hc.1, hc.2.1⟩
  | some r =>
      by_cases h : s.prio a ≤ prio ∧ s.Outranks r a
      · have hle : s.prio a ≤ tcpPrioMax := UInt8.le_trans h.2.1 (hbest r rfl).2
        rw [if_pos ⟨h.1, hle⟩, keepBest, if_pos h.2]
        exact if_pos h
      · have hkeep : (if s.Evictable prio a then keepBest s.Outranks (some r) a else some r) = some r := by
          split
          · rename_i ha
            exact if_neg fun hr => h ⟨ha.1, hr⟩
          · rfl
        rw [hkeep]
        exact if_neg h

/-- The loop of `tcp_kill_prio` goes from record to record of the evictable blocks. -/
theorem foldl_victimStep (s : Store) (prio : UInt8) (l : List ℕ) :
    (l.foldl (s.victimStep prio) {}).inactive = (records s.Outranks (l.filter (s.Evictable prio))).head? := by
  have haux : ∀ best, (∀ r, best = some r → s.Evictable prio r) →
      l.foldl (s.victimStep prio) (s.victimAt best) =
        s.victimAt ((l.filter (s.Evictable prio)).foldl (keepBest s.Outranks) best) := by
    induction l with
    | nil => exact fun _ _ => rfl
    | cons a l ih =>
        intro best hbest
        rw [List.foldl_cons, victimStep_victimAt s prio best a hbest]
        by_cases ha : s.Evictable prio a
        · rw [if_pos ha, List.filter_cons, if_pos (decide_eq_true ha), List.foldl_cons]
          apply ih
          intro r hr
          cases best with
          | none => exact Option.some.inj hr ▸ ha
          | some b =>
              rw [keepBest] at hr
              split at hr
              · exact Option.some.inj hr ▸ ha
              · exact hbest r hr
        · rw [if_neg ha, List.filter_cons, if_neg (by simpa using ha)]
          exact ih best hbest
  rw [← foldl_keepBest]
  exact congrArg Victim.inactive (haux none fun r h => absurd h.symm (Option.some_ne_none r))

/-! ## Eviction -/

/-- The lists without the evicted block. -/
def remaining (nodes : ListName → List ℕ) (evicted : Option ℕ) (l : ListName) : List ℕ :=
  match evicted with
  | none => nodes l
  | some v => (nodes l).erase v

/-- `s'` is `s` without the evicted block: it is on no list, and the others are as before, as is the pool of the
listening blocks. -/
structure Kept (s s' : Store) (nodes : ListName → List ℕ) (evicted : Option ℕ) : Prop where
  linked : Linked s' (remaining nodes evicted)
  others : ∀ b, evicted ≠ some b → s'.block b = { s.block b with next := s'.next b }
  listenPool : s'.free .tcpPcbListen = s.free .tcpPcbListen

/-- Freeing a block leaves the links of the lists alone. -/
theorem next_release (s : Store) (a : ℕ) (conn : Conn) : (s.release a conn).next = s.next :=
  next_onBlock s a fun pcb => { pcb with pcb := conn.pcb, app := conn.app }

/-- And their heads. -/
theorem head_release (s : Store) (a : ℕ) (conn : Conn) : (s.release a conn).head = s.head := rfl

/-- And the other blocks. -/
theorem block_release_of_ne (s : Store) (conn : Conn) (hne : b ≠ a) : (s.release a conn).block b = s.block b :=
  Function.update_of_ne hne _ _

/-- The block is the next one to be handed out. -/
theorem free_release (s : Store) (a : ℕ) (conn : Conn) :
    (s.release a conn).free = Function.update s.free .tcpPcb (a :: s.free .tcpPcb) := rfl

/-- `tcp_abort` of a block on the list that its state tells takes it off that list alone and puts it into
the pool. -/
theorem Linked.tcpAbort (h : Linked s nodes)
    (hl : (if (s.block v).pcb.state == .timeWait then ListName.timeWait else .active) = l) (hv : v ∈ nodes l)
    (hfuel : (nodes l).length ≤ fuel) (hone : ∀ l', l' ≠ l → ∀ b ∈ nodes l, b ∉ nodes l') :
    ∃ s', s.tcpAbort c m fuel v = some s' ∧ Kept s s' nodes (some v) ∧
      s'.free .tcpPcb = v :: s.free .tcpPcb := by
  obtain ⟨t, hrmv, hrel, hlinked⟩ := h.tcpRmv hfuel hv hone
  refine ⟨t.release v _, by rw [Store.tcpAbort, hl, hrmv]; rfl, ⟨⟨fun l => ?_, hlinked.ne_null⟩, fun b hb => ?_, ?_⟩, ?_⟩
  · rw [next_release, head_release]
    exact hlinked.path l
  · have hne : b ≠ v := fun heq => hb (congrArg some heq.symm)
    rw [block_release_of_ne _ _ hne, next_release]
    exact hrel.block_eq b
  · rw [free_release, Function.update_of_ne (by decide), hrel.free_eq]
  · rw [free_release, Function.update_self, hrel.free_eq]

/-- `tcp_abort` evicts the block and puts it into the pool. -/
theorem tcpAbort_spec (h : Axioms s nodes) (hfuel : ∀ l, (nodes l).length ≤ fuel)
    (hv : v ∈ nodes .timeWait ∨ v ∈ nodes .active) :
    ∃ s', s.tcpAbort c m fuel v = some s' ∧ Kept s s' nodes (some v) ∧
      s'.free .tcpPcb = v :: s.free .tcpPcb := by
  -- the state of the block tells which list it is on
  have hlist : v ∈ nodes (if (s.block v).pcb.state == .timeWait then .timeWait else .active) := by
    rcases hv with hv | hv
    · rwa [h.timeWait_state v hv]
    · have hne := (h.active_state v hv).2.2
      rwa [beq_false_of_ne hne]
  exact h.toLinked.tcpAbort c m rfl hlist (hfuel _) fun l' hl' b hb hb' => hl' (h.one_list _ _ b hb' hb)

/-- `tcp_kill_timewait` evicts the oldest block in TIME_WAIT. -/
theorem tcpKillTimewait_spec (h : Axioms s nodes) (hfuel : ∀ l, (nodes l).length ≤ fuel) :
    (nodes .timeWait = [] ∧ s.tcpKillTimewait c m fuel = some s) ∨
      ∃ v ∈ nodes .timeWait, (nodes .timeWait).foldl (keepBest s.Older) none = some v ∧
        (∀ x ∈ nodes .timeWait, s.inactivity x ≤ s.inactivity v) ∧
        ∃ s', s.tcpKillTimewait c m fuel = some s' ∧ Kept s s' nodes (some v) ∧
          s'.free .tcpPcb = v :: s.free .tcpPcb := by
  have hloop : s.tcpKillTimewait c m fuel =
      match (nodes .timeWait).foldl (keepBest s.Older) none with
      | some a => s.tcpAbort c m fuel a
      | none => some s := by
    rw [Store.tcpKillTimewait, walk_eq (h.path .timeWait) (h.ne_null .timeWait) (hfuel .timeWait),
      ← foldl_oldestStep]
    rfl
  rw [hloop]
  cases hbest : (nodes .timeWait).foldl (keepBest s.Older) none with
  | none => exact .inl ⟨(foldl_keepBest_eq_none_iff.mp hbest).2, rfl⟩
  | some v =>
      have hv : v ∈ nodes .timeWait :=
        (mem_of_foldl_keepBest hbest).resolve_left (Option.some_ne_none v).symm
      exact .inr ⟨v, hv, rfl, (rel_of_foldl_keepBest hbest).2, tcpAbort_spec c m h hfuel (.inl hv)⟩

/-- `tcp_kill_prio` evicts the last record of the evictable blocks. -/
theorem tcpKillPrio_spec (h : Axioms s nodes) (hfuel : ∀ l, (nodes l).length ≤ fuel) (prio : UInt8) :
    ((nodes .active).filter (s.Evictable prio) = [] ∧ s.tcpKillPrio c m fuel prio = some s) ∨
      ∃ v, (records s.Outranks ((nodes .active).filter (s.Evictable prio))).head? = some v ∧
        ∃ s', s.tcpKillPrio c m fuel prio = some s' ∧ Kept s s' nodes (some v) ∧
          s'.free .tcpPcb = v :: s.free .tcpPcb := by
  have hloop : s.tcpKillPrio c m fuel prio =
      match (records s.Outranks ((nodes .active).filter (s.Evictable prio))).head? with
      | some a => s.tcpAbort c m fuel a
      | none => some s := by
    rw [Store.tcpKillPrio, walk_eq (h.path .active) (h.ne_null .active) (hfuel .active), ← foldl_victimStep]
    rfl
  rw [hloop]
  cases hlast : (records s.Outranks ((nodes .active).filter (s.Evictable prio))).head? with
  | none =>
      rw [← foldl_keepBest] at hlast
      exact .inl ⟨(foldl_keepBest_eq_none_iff.mp hlast).2, rfl⟩
  | some v =>
      have hv : v ∈ nodes .active :=
        (List.mem_filter.mp (mem_of_mem_records (List.mem_of_mem_head? hlast))).1
      exact .inr ⟨v, rfl, tcpAbort_spec c m h hfuel (.inr hv)⟩

/-! ## The allocation -/

/-- The pool is empty. -/
theorem mempMalloc_nil (hfree : s.free .tcpPcb = []) : s.mempMalloc .tcpPcb = none := by
  rw [Store.mempMalloc, hfree]

/-- Taking an element from the pool changes the pool only. -/
theorem Kept.mempMalloc {evicted : Option ℕ} {rest : List ℕ} (h : Kept s s' nodes evicted)
    (hfree : s'.free .tcpPcb = a :: rest) :
    ∃ t, s'.mempMalloc .tcpPcb = some (a, t) ∧ Kept s t nodes evicted ∧ t.free .tcpPcb = rest := by
  refine ⟨{ s' with free := Function.update s'.free .tcpPcb rest }, by rw [Store.mempMalloc, hfree],
    ⟨⟨h.linked.path, h.linked.ne_null⟩, h.others, ?_⟩, by simp only [Function.update_self]⟩
  have hne : Pool.tcpPcbListen ≠ .tcpPcb := by decide
  simp only [Function.update_of_ne hne]
  exact h.listenPool

/-- Nobody was given up. -/
theorem kept_refl (h : Linked s nodes) : Kept s s nodes none := ⟨h, fun _ _ => rfl, rfl⟩

/-- How `tcp_alloc` gets its block: the block, the store and what was evicted. -/
inductive Obtained (s : Store) (nodes : ListName → List ℕ) (prio : UInt8) :
    Option ℕ → Store → Option ℕ → Prop
  | free (a : ℕ) (t : Store) (hpool : s.free .tcpPcb = a :: t.free .tcpPcb) (hkept : Kept s t nodes none) :
      Obtained s nodes prio (some a) t none
  | oldest (v : ℕ) (t : Store) (hempty : s.free .tcpPcb = []) (hv : v ∈ nodes .timeWait)
      (hold : ∀ x ∈ nodes .timeWait, s.inactivity x ≤ s.inactivity v) (hpool : t.free .tcpPcb = [])
      (hkept : Kept s t nodes (some v)) : Obtained s nodes prio (some v) t (some v)
  | victim (v : ℕ) (t : Store) (hempty : s.free .tcpPcb = []) (htw : nodes .timeWait = [])
      (hv : (records s.Outranks ((nodes .active).filter (s.Evictable prio))).head? = some v)
      (hpool : t.free .tcpPcb = []) (hkept : Kept s t nodes (some v)) :
      Obtained s nodes prio (some v) t (some v)
  | nothing (hempty : s.free .tcpPcb = []) (htw : nodes .timeWait = [])
      (hnone : (nodes .active).filter (s.Evictable prio) = []) (hkept : Kept s s nodes none) :
      Obtained s nodes prio none s none

/-- The block that `tcp_alloc` evicts, if any. -/
def Store.evictee (s : Store) (nodes : ListName → List ℕ) (prio : UInt8) : Option ℕ :=
  if s.free .tcpPcb = [] then
    ((nodes .timeWait).foldl (keepBest s.Older) none).or
      (records s.Outranks ((nodes .active).filter (s.Evictable prio))).head?
  else none

/-- The three tries end in one of the four ways. -/
theorem obtainPcb_spec (h : Axioms s nodes) (hfuel : ∀ l, (nodes l).length ≤ fuel) (prio : UInt8) :
    ∃ r t evicted, s.obtainPcb c m fuel prio = some (r, t) ∧ Obtained s nodes prio r t evicted ∧
      evicted = s.evictee nodes prio := by
  rw [Store.obtainPcb]
  cases hfree : s.free .tcpPcb with
  | cons a rest =>
      obtain ⟨t, hmalloc, hkept, hrest⟩ := (kept_refl h.toLinked).mempMalloc hfree
      rw [hmalloc]
      refine ⟨some a, t, none, rfl, .free a t (hrest ▸ hfree) hkept, ?_⟩
      rw [Store.evictee, hfree, if_neg (List.cons_ne_nil a rest)]
  | nil =>
      rw [mempMalloc_nil hfree, Store.evictee, if_pos hfree]
      rcases tcpKillTimewait_spec c m h hfuel with ⟨htw, hkill⟩ | ⟨v, hv, hbest, hold, t, hkill, hkept, hpool⟩
      · rcases tcpKillPrio_spec c m h hfuel prio with ⟨hnone, hprio⟩ | ⟨v, hv, t, hprio, hkept, hpool⟩
        · refine ⟨none, s, none, ?_, .nothing hfree htw hnone (kept_refl h.toLinked), ?_⟩
          · simp [hkill, mempMalloc_nil hfree, hprio]
          · rw [htw, hnone]
            rfl
        · obtain ⟨t', hmalloc, hkept', hrest⟩ := hkept.mempMalloc hpool
          refine ⟨some v, t', some v, ?_, .victim v t' hfree htw hv (hrest.trans hfree) hkept', ?_⟩
          · simp [hkill, mempMalloc_nil hfree, hprio, hmalloc]
          · rw [htw, hv]
            rfl
      · obtain ⟨t', hmalloc, hkept', hrest⟩ := hkept.mempMalloc hpool
        refine ⟨some v, t', some v, ?_, .oldest v t' hfree hv hold (hrest.trans hfree) hkept', ?_⟩
        · simp [hkill, hmalloc]
        · rw [hbest, Option.some_or]

/-- The block is as `tcp_alloc` returns it: closed, and its queues are empty. -/
def Fresh (b : Block) : Prop :=
  b.pcb.state = .closed ∧ b.pcb.snd.unsent = [] ∧ b.pcb.snd.unacked = [] ∧ b.pcb.ooseq = [] ∧
    b.pcb.refusedData = none

/-- What is said of `tcp_alloc`, with the block that it evicts. -/
structure AllocContract (s : Store) (nodes : ListName → List ℕ) (prio : UInt8) (r : Option ℕ) (s' : Store)
    (evicted : Option ℕ) : Prop where
  /-- Nothing is evicted while the pool has a free element. -/
  free : s.free .tcpPcb ≠ [] → evicted = none
  /-- Else the oldest block in TIME_WAIT is evicted. -/
  timeWait : s.free .tcpPcb = [] → nodes .timeWait ≠ [] → ∃ v ∈ nodes .timeWait, evicted = some v ∧
    ∀ x ∈ nodes .timeWait, s.inactivity x ≤ s.inactivity v
  /-- Else only the block that was inactive longest among those of no higher priority is. -/
  active : s.free .tcpPcb = [] → nodes .timeWait = [] → ∀ v, evicted = some v → v ∈ nodes .active ∧
    s.prio v ≤ prio ∧ ∀ x ∈ nodes .active, s.prio x ≤ prio → s.inactivity x ≤ s.inactivity v
  /-- `NULL` is returned only when there is no such block. -/
  null : r = none → s.free .tcpPcb = [] ∧ nodes .timeWait = [] ∧ ∀ x ∈ nodes .active, ¬s.prio x ≤ prio
  returned : ∀ a, r = some a → Fresh (s'.block a) ∧ (∀ l, a ∉ remaining nodes evicted l) ∧
    ∀ p b, s.Live p b → evicted ≠ some b → a ≠ b
  linked : Linked s' (remaining nodes evicted)
  /-- The other blocks are as before. -/
  others : ∀ b, evicted ≠ some b → r ≠ some b → s'.block b = { s.block b with next := s'.next b }
  /-- Only the evicted block is released to its pool, and only the returned one is taken from it. -/
  pool : r.toList ++ s'.free .tcpPcb = evicted.toList ++ s.free .tcpPcb
  listenPool : s'.free .tcpPcbListen = s.free .tcpPcbListen

/-- A block that was inactive longest among those of no higher priority is a record, if there is any. -/
def Longest (s : Store) (nodes : ListName → List ℕ) (prio : UInt8) : Prop :=
  (∀ x ∈ nodes .active, ¬s.prio x ≤ prio) ∨
    ∃ v ∈ records s.Outranks ((nodes .active).filter (s.Evictable prio)),
      ∀ x ∈ nodes .active, s.prio x ≤ prio → s.inactivity x ≤ s.inactivity v

/-- A new block has what `tcp_alloc` sets. -/
theorem fresh_initPcb (s : Store) (prio : UInt8) (a : ℕ) : Fresh ((s.initPcb c prio a).block a) := by
  simp only [Store.initPcb, Function.update_self]
  exact ⟨rfl, rfl, rfl, rfl, rfl⟩

/-- The other blocks stay as they are. -/
theorem block_initPcb_of_ne (s : Store) (prio : UInt8) (hne : b ≠ a) :
    (s.initPcb c prio a).block b = s.block b := by
  simp only [Store.initPcb, Function.update_of_ne hne]

/-- Filling in a block that is on no list leaves the lists alone. -/
theorem linked_initPcb (h : Linked s nodes) (prio : UInt8) (ha : ∀ l, a ∉ nodes l) :
    Linked (s.initPcb c prio a) nodes := by
  refine ⟨fun l => (path_congr fun x hx => ?_).mp (h.path l), h.ne_null⟩
  have hne : x ≠ a := fun heq => ha l (heq ▸ hx)
  rw [Store.next, Store.next, block_initPcb_of_ne c s prio hne]

variable {r evicted evicted' : Option ℕ} {t : Store} {prio : UInt8}

/-- At most one connection was given up. -/
theorem Obtained.kept (hout : Obtained s nodes prio r t evicted) : Kept s t nodes evicted := by
  cases hout <;> assumption

/-- The pool is without the block that is returned, and with the one that was evicted. -/
theorem Obtained.pool (hout : Obtained s nodes prio r t evicted) :
    r.toList ++ t.free .tcpPcb = evicted.toList ++ s.free .tcpPcb := by
  cases hout with
  | free a t hpool hkept => exact hpool.symm
  | oldest v t hempty hv hold hpool hkept => rw [hpool, hempty]
  | victim v t hempty htw hv hpool hkept => rw [hpool, hempty]
  | nothing hempty htw hnone hkept => rfl

/-- The block that is returned is on no list, and no block that stays alive. -/
theorem Obtained.apart (h : Axioms s nodes) (hout : Obtained s nodes prio r t evicted) (hr : r = some a) :
    (∀ l, a ∉ remaining nodes evicted l) ∧ ∀ p b, s.Live p b → evicted ≠ some b → a ≠ b := by
  have hevicted : ∀ v, a = v → (∀ l, a ∉ remaining nodes (some v) l) ∧
      ∀ p b, s.Live p b → some v ≠ some b → a ≠ b := by
    rintro v rfl
    exact ⟨fun l => (h.toLinked.nodup l).not_mem_erase, fun p b _ hne heq => hne (congrArg some heq)⟩
  cases hout with
  | free a' t hpool hkept =>
      have ha' : a' ∈ s.free .tcpPcb := hpool ▸ List.mem_cons_self
      obtain rfl := Option.some.inj hr
      refine ⟨fun l hl => ?_, fun p b hb _ heq => ?_⟩
      · have hlive := h.live l a' hl
        rw [h.pools_disjoint _ _ _ hlive.1 (h.free_elems _ _ ha')] at hlive
        exact hlive.2 ha'
      · subst heq
        rw [h.pools_disjoint _ _ _ hb.1 (h.free_elems _ _ ha')] at hb
        exact hb.2 ha'
  | oldest v t hempty hv hold hpool hkept => exact hevicted v (Option.some.inj hr).symm
  | victim v t hempty htw hv hpool hkept => exact hevicted v (Option.some.inj hr).symm
  | nothing hempty htw hnone hkept => cases hr

/-- The store that `tcp_alloc` leaves. -/
def Store.allocated (s : Store) (prio : UInt8) : Option ℕ → Store
  | some a => s.initPcb c prio a
  | none => s

/-- Filling in the block takes nothing from the pool. -/
theorem free_allocated (s : Store) (prio : UInt8) (r : Option ℕ) : (s.allocated c prio r).free = s.free := by
  cases r <;> rfl

/-- What holds of `tcp_alloc` in any case. -/
theorem Obtained.tidy (h : Axioms s nodes) (hout : Obtained s nodes prio r t evicted) :
    (∀ a, r = some a → Fresh ((t.allocated c prio r).block a) ∧ (∀ l, a ∉ remaining nodes evicted l) ∧
        ∀ p b, s.Live p b → evicted ≠ some b → a ≠ b) ∧
      Linked (t.allocated c prio r) (remaining nodes evicted) ∧
      ∀ b, evicted ≠ some b → r ≠ some b → (t.allocated c prio r).block b =
        { s.block b with next := (t.allocated c prio r).next b } := by
  have hkept := hout.kept
  cases r with
  | none => exact ⟨fun _ h => (nomatch h), hkept.linked, fun b hb _ => hkept.others b hb⟩
  | some a =>
      have hapart := hout.apart h rfl
      refine ⟨fun a' ha' => ?_, linked_initPcb c hkept.linked prio hapart.1, fun b hb hne => ?_⟩
      · obtain rfl := Option.some.inj ha'
        exact ⟨fresh_initPcb c t prio a, hapart⟩
      · have hba : b ≠ a := fun heq => hne (congrArg some heq.symm)
        have hblock : (t.allocated c prio (some a)).block b = t.block b := block_initPcb_of_ne c t prio hba
        rw [Store.next, hblock]
        exact hkept.others b hb

/-- The lists tell which active block was evicted. -/
theorem evicted_unique (h : Linked s nodes) (hv : v ∈ nodes .active)
    (hlinked : Linked t (remaining nodes (some v))) (hlinked' : Linked t (remaining nodes evicted')) :
    evicted' = some v := by
  have hsame : remaining nodes evicted' .active = (nodes .active).erase v :=
    (hlinked'.path .active).unique (hlinked.path .active) (hlinked'.ne_null .active) (hlinked.ne_null .active)
  have hgone : v ∉ remaining nodes evicted' .active := hsame ▸ (h.nodup .active).not_mem_erase
  cases evicted' with
  | none => exact absurd hv hgone
  | some w =>
      by_contra hne
      exact hgone ((List.mem_erase_of_ne fun heq => hne (congrArg some heq.symm)).mpr hv)

/-- The contract is kept exactly when nobody has to be evicted by priority, or the right block is a record. -/
theorem Obtained.contract_iff (h : Axioms s nodes) (hout : Obtained s nodes prio r t evicted) :
    (∃ evicted, AllocContract s nodes prio r (t.allocated c prio r) evicted) ↔
      s.free .tcpPcb ≠ [] ∨ nodes .timeWait ≠ [] ∨ Longest s nodes prio := by
  obtain ⟨hreturned, hlinked, hothers⟩ := hout.tidy c h
  have hpool := hout.pool
  have hlisten := hout.kept.listenPool
  rw [← free_allocated c t prio r] at hpool hlisten
  cases hout with
  -- there was a free block, nothing is evicted
  | free a t hfree hkept =>
      have hne : s.free .tcpPcb ≠ [] := hfree ▸ List.cons_ne_nil a _
      refine iff_of_true ⟨none, ?_, ?_, ?_, ?_, hreturned, hlinked, hothers, hpool, hlisten⟩ (.inl hne)
      · exact fun _ => rfl
      · exact fun hempty => absurd hempty hne
      · exact fun hempty => absurd hempty hne
      · exact fun hr => nomatch hr
  -- the oldest block in TIME-WAIT was evicted
  | oldest v t hempty hv hold hrest hkept =>
      have hne : nodes .timeWait ≠ [] := List.ne_nil_of_mem hv
      refine iff_of_true ⟨some v, ?_, ?_, ?_, ?_, hreturned, hlinked, hothers, hpool, hlisten⟩ (.inr (.inl hne))
      · exact fun hfree => absurd hempty hfree
      · exact fun _ _ => ⟨v, hv, rfl, hold⟩
      · exact fun _ htw => absurd htw hne
      · exact fun hr => nomatch hr
  -- an active one was: the last of its `prio` that was idle the longest, which need not be the longest of all
  | victim v t hempty htw hv hrest hkept =>
      have hrecord := List.mem_of_mem_head? hv
      obtain ⟨hactive, hevictable⟩ := List.mem_filter.mp (mem_of_mem_records hrecord)
      have hprio : s.prio v ≤ prio := (of_decide_eq_true hevictable).1
      constructor
      · rintro ⟨evicted', hc⟩
        obtain rfl := evicted_unique h.toLinked hactive hlinked hc.linked
        exact .inr (.inr (.inr ⟨v, hrecord, (hc.active hempty htw v rfl).2.2⟩))
      · intro hcond
        have hlongest : ∀ x ∈ nodes .active, s.prio x ≤ prio → s.inactivity x ≤ s.inactivity v := by
          rcases (hcond.resolve_left (not_not.mpr hempty)).resolve_left (not_not.mpr htw) with hnone | ⟨w, hw, hmax⟩
          · exact absurd hprio (hnone v hactive)
          · exact fun x hx hle => UInt32.le_trans (hmax x hx hle) (rel_last hv hw).2
        refine ⟨some v, ?_, ?_, ?_, ?_, hreturned, hlinked, hothers, hpool, hlisten⟩
        · exact fun hfree => absurd hempty hfree
        · exact fun _ hne => absurd htw hne
        · rintro - - w ⟨⟩
          exact ⟨hactive, hprio, hlongest⟩
        · exact fun hr => nomatch hr
  -- nothing could be evicted, and NULL is right
  | nothing hempty htw hnone hkept =>
      constructor
      · rintro ⟨evicted', hc⟩
        exact .inr (.inr (.inl (hc.null rfl).2.2))
      · intro hcond
        have hno : ∀ x ∈ nodes .active, ¬s.prio x ≤ prio := by
          rcases (hcond.resolve_left (not_not.mpr hempty)).resolve_left (not_not.mpr htw) with hno | ⟨w, hw, -⟩
          · exact hno
          · rw [hnone] at hw
            exact absurd (mem_of_mem_records hw) List.not_mem_nil
        refine ⟨none, ?_, ?_, ?_, ?_, hreturned, hlinked, hothers, hpool, hlisten⟩
        · exact fun _ => rfl
        · exact fun _ hne => absurd htw hne
        · exact fun _ _ v hv => nomatch hv
        · exact fun _ => ⟨hempty, htw, hno⟩

/-- **When `tcp_alloc` evicts the right block.** It ends, and does what is said of it exactly when the pool
has a free element, or a block is in TIME_WAIT, or no active block has a low enough priority, or one that was
inactive longest among these is a record of the list. -/
theorem tcpAlloc_meets_iff (c : Config) (m : Mem) (s : Store) (nodes : ListName → List ℕ) (fuel : ℕ) (prio : UInt8)
    (h : Axioms s nodes) (hfuel : ∀ l, (nodes l).length ≤ fuel) :
    ∃ r s', s.tcpAlloc c m fuel prio = some (r, s') ∧
      ((∃ evicted, AllocContract s nodes prio r s' evicted) ↔
        s.free .tcpPcb ≠ [] ∨ nodes .timeWait ≠ [] ∨ Longest s nodes prio) := by
  obtain ⟨r, t, evicted, hrun, hout, -⟩ := obtainPcb_spec c m h hfuel prio
  refine ⟨r, t.allocated c prio r, ?_, hout.contract_iff c h⟩
  rw [Store.tcpAlloc, hrun]
  cases r <;> rfl

/-- Two established connections and an empty pool. The first one has the priority `prio` and was inactive for
3 ticks, the second one has the normal priority and was inactive for 5 ticks. -/
def twoBlocks (prio : UInt8) : Store where
  block a :=
    { next := if a = 1 then 2 else 0, prio := if a = 1 then prio else 64
      localIp := 0, remoteIp := 0, localPort := 80, remotePort := 0
      pcb :=
        { tcpAlloc optDefaults 6510 0 0 with
          state := .established
          tmr := if a = 1 then 7 else 5 }
      app := {} }
  head l := if l = .active then 1 else 0
  elems p := if p = .tcpPcb then [1, 2] else []
  free _ := []
  tcpPort := ⟨tcpLocalPortRangeStart, UInt16.le_refl _⟩
  tcpTicks := 10
  tcpTimerCtr := 0
  tcpInputPcb := 0
  tcpActivePcbsChanged := false
  iss := 6510

/-- The lists of `twoBlocks`. -/
def twoActive (l : ListName) : List ℕ := if l = .active then [1, 2] else []

/-- The lists of the example are short. -/
theorem length_twoActive (l : ListName) : (twoActive l).length ≤ 2 := by cases l <;> decide

/-- The lists of the example are in order. -/
theorem axioms_twoBlocks (prio : UInt8) : Axioms (twoBlocks prio) twoActive := by
  have hmem : ∀ l a, a ∈ twoActive l → l = .active ∧ (a = 1 ∨ a = 2) := by
    intro l a ha
    cases l
    case active => exact ⟨rfl, by simpa [twoActive] using ha⟩
    all_goals exact absurd ha (by simp [twoActive])
  have helem : ∀ p a, a ∈ (twoBlocks prio).elems p → p = .tcpPcb ∧ (a = 1 ∨ a = 2) := by
    intro p a ha
    cases p
    · exact ⟨rfl, by simpa [twoBlocks] using ha⟩
    · exact absurd ha (by simp [twoBlocks])
  constructor
  · constructor
    · intro l
      cases l
      case active => exact ⟨rfl, rfl, rfl⟩
      all_goals rfl
    · intro l hl
      have := (hmem l 0 hl).2
      omega
  · exact fun p q a hp hq => (helem p a hp).1.trans (helem q a hq).1.symm
  · exact fun _ _ ha => absurd ha List.not_mem_nil
  · exact fun _ => List.nodup_nil
  · intro p hp
    have := (helem p 0 hp).2
    omega
  · intro l a ha
    obtain ⟨rfl, hor⟩ := hmem l a ha
    refine ⟨?_, List.not_mem_nil⟩
    rcases hor with rfl | rfl
    · exact List.mem_cons_self
    · exact List.mem_cons_of_mem 1 List.mem_cons_self
  · intro p a ha _
    refine ⟨.active, ?_⟩
    rcases (helem p a ha.1).2 with rfl | rfl <;> decide
  · exact fun l l' a hl hl' => (hmem l a hl).1.trans (hmem l' a hl').1.symm
  · exact fun a ha => nomatch (hmem .listen a ha).1
  · exact fun a ha => nomatch (hmem .timeWait a ha).1
  · exact fun a _ => ⟨TcpState.noConfusion, TcpState.noConfusion, TcpState.noConfusion⟩

/-- Two connections of the same priority. -/
theorem tcpAlloc_meets_iff_samePrio : ∃ r s', (twoBlocks 64).tcpAlloc optDefaults {} 2 64 = some (r, s') ∧
    ((∃ evicted, AllocContract (twoBlocks 64) twoActive 64 r s' evicted) ↔
      (twoBlocks 64).free .tcpPcb ≠ [] ∨ twoActive .timeWait ≠ [] ∨ Longest (twoBlocks 64) twoActive 64) :=
  tcpAlloc_meets_iff optDefaults {} (twoBlocks 64) twoActive 2 64 (axioms_twoBlocks 64) length_twoActive

/-- A connection of low priority in front of the list is evicted, although the other one is older. -/
theorem not_tcpAlloc_meets : ¬ ∀ (c : Config) (m : Mem) (s : Store) (nodes : ListName → List ℕ) (fuel : ℕ)
    (prio : UInt8), Axioms s nodes → (∀ l, (nodes l).length ≤ fuel) →
    ∃ r s', s.tcpAlloc c m fuel prio = some (r, s') ∧ ∃ evicted, AllocContract s nodes prio r s' evicted := by
  intro hall
  obtain ⟨r, s', hrun, hc⟩ := hall optDefaults {} (twoBlocks 1) twoActive 2 64 (axioms_twoBlocks 1) length_twoActive
  obtain ⟨r', t, evicted, hobtain, hout, -⟩ :=
    obtainPcb_spec optDefaults {} (axioms_twoBlocks 1) length_twoActive 64
  have halloc : (twoBlocks 1).tcpAlloc optDefaults {} 2 64 = some (r', t.allocated optDefaults 64 r') := by
    rw [Store.tcpAlloc, hobtain]
    cases r' <;> rfl
  obtain ⟨rfl, rfl⟩ := Prod.mk.inj (Option.some.inj (hrun.symm.trans halloc))
  have hrecords : records (twoBlocks 1).Outranks ((twoActive .active).filter ((twoBlocks 1).Evictable 64)) = [1] := by
    decide
  rcases (hout.contract_iff optDefaults (axioms_twoBlocks 1)).mp hc with hfree | htw | hnone | ⟨v, hv, hmax⟩
  · exact hfree rfl
  · exact htw rfl
  · exact hnone 1 (by decide) (by decide)
  · rw [hrecords] at hv
    obtain rfl := List.mem_singleton.mp hv
    exact absurd (hmax 2 (by decide) (by decide)) (by decide)

end BareMetal.Tcp
