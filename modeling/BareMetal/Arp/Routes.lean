import Mathlib.Data.Set.Function
import BareMetal.Arp.Table

/-! # Where packets are sent

`TableInv`: the entries in use have different addresses, and only pending ones hold a packet. Every call keeps
this, because `etharp_find_entry` returns the entry of an address when there is one. It follows that the three ways
to an entry agree, so that the index that was used last only saves a search (`run_routes`). -/

namespace BareMetal.Arp

open Ip

variable {size self i j n : ℕ} {netif : Netif} {s s' : State} {env : Env} {a : UInt32} {e : EtharpEntry}
  {f : EtharpEntry → EtharpEntry} {flags : UInt8} {is : List ℕ} {c c' : Candidates} {q : ℕ}

/-- The entry is in use. -/
def State.live (s : State) (i : ℕ) : Prop := (s.arpTable i).state ≠ .empty

/-- The entries in use have different addresses of single hosts, only pending ones hold a packet, and the index
that was used last is one of the table. -/
structure TableInv (size : ℕ) (netif : Netif) (s : State) : Prop where
  unique : Set.InjOn (fun i => (s.arpTable i).ipaddr) {i | i < size ∧ s.live i}
  queued : ∀ i < size, (s.arpTable i).q ≠ 0 → (s.arpTable i).state = .pending
  unicast : ∀ i < size, s.live i → nonUnicast netif (s.arpTable i).ipaddr = false
  hint : s.etharpCachedEntry < size

/-- An entry is changed: its address is that of a single host and no other entry in use has it. -/
theorem TableInv.update (hI : TableInv size netif s) (htable : s'.arpTable = Function.update s.arpTable i e)
    (hhint : s'.etharpCachedEntry < size) (hq : e.q ≠ 0 → e.state = .pending)
    (hnew : e.state ≠ .empty → nonUnicast netif e.ipaddr = false ∧
      ∀ j < size, j ≠ i → s.live j → (s.arpTable j).ipaddr ≠ e.ipaddr) : TableInv size netif s' := by
  have hself : s'.arpTable i = e := by rw [htable, Function.update_self]
  have hother : ∀ j, j ≠ i → s'.arpTable j = s.arpTable j := fun j hj => by rw [htable, Function.update_of_ne hj]
  constructor
  · -- two live entries with one address: at most one of them is the new one
    rintro j ⟨hj, hlivej⟩ k ⟨hk, hlivek⟩ heq
    rw [State.live] at hlivej hlivek
    dsimp only at heq
    by_cases hji : j = i <;> by_cases hki : k = i
    · rw [hji, hki]
    · rw [hji, hself] at hlivej
      rw [hji, hself, hother k hki] at heq
      rw [hother k hki] at hlivek
      exact absurd heq.symm ((hnew hlivej).2 k hk hki hlivek)
    · rw [hki, hself] at hlivek
      rw [hki, hself, hother j hji] at heq
      rw [hother j hji] at hlivej
      exact absurd heq ((hnew hlivek).2 j hj hji hlivej)
    · rw [hother j hji] at hlivej heq
      rw [hother k hki] at hlivek heq
      exact hI.unique ⟨hj, hlivej⟩ ⟨hk, hlivek⟩ heq
  · intro j hj hqj
    by_cases hji : j = i
    · subst hji
      rw [hself] at hqj ⊢
      exact hq hqj
    · rw [hother j hji] at hqj ⊢
      exact hI.queued j hj hqj
  · intro j hj hlive
    rw [State.live] at hlive
    by_cases hji : j = i
    · subst hji
      rw [hself] at hlive ⊢
      exact (hnew hlive).1
    · rw [hother j hji] at hlive ⊢
      exact hI.unicast j hj hlive
  · exact hhint

/-- An entry in use keeps its address. -/
theorem TableInv.keep (hI : TableInv size netif s) (htable : s'.arpTable = Function.update s.arpTable i e)
    (hhint : s'.etharpCachedEntry < size) (hi : i < size) (hq : e.q ≠ 0 → e.state = .pending)
    (hkeep : e.state ≠ .empty → s.live i ∧ e.ipaddr = (s.arpTable i).ipaddr) : TableInv size netif s' := by
  refine hI.update htable hhint hq fun hlive => ?_
  obtain ⟨hlivei, hip⟩ := hkeep hlive
  refine ⟨hip ▸ hI.unicast i hi hlivei, fun j hj hne hlivej heq => hne ?_⟩
  exact hI.unique ⟨hj, hlivej⟩ ⟨hi, hlivei⟩ (heq.trans hip)

/-- What is not the table does not matter. -/
theorem TableInv.congr (hI : TableInv size netif s) (htable : s'.arpTable = s.arpTable)
    (hhint : s'.etharpCachedEntry < size) : TableInv size netif s' := by
  obtain ⟨hunique, hqueued, hunicast, -⟩ := hI
  rw [← htable] at hqueued
  constructor
  · simpa only [State.live, htable] using hunique
  · exact hqueued
  · simpa only [State.live, htable] using hunicast
  · exact hhint

/-! ## Freeing entries -/

/-- Sending leaves the table alone. -/
@[simp] theorem arpTable_act (s : State) (x : Action) : (s.act x).arpTable = s.arpTable := rfl

/-- And the cached entry. -/
@[simp] theorem etharpCachedEntry_act (s : State) (x : Action) :
    (s.act x).etharpCachedEntry = s.etharpCachedEntry := rfl

/-- Writing an entry leaves the cached index alone. -/
@[simp] theorem etharpCachedEntry_set (s : State) (i : ℕ) (f : EtharpEntry → EtharpEntry) :
    (s.set i f).etharpCachedEntry = s.etharpCachedEntry := rfl

/-- Writing an entry, as an update of the table. -/
theorem arpTable_set (s : State) (i : ℕ) (f : EtharpEntry → EtharpEntry) :
    (s.set i f).arpTable = Function.update s.arpTable i (f (s.arpTable i)) := rfl

/-- The entry that was written. -/
@[simp] theorem arpTable_set_self (s : State) (i : ℕ) (f : EtharpEntry → EtharpEntry) :
    (s.set i f).arpTable i = f (s.arpTable i) := Function.update_self _ _ _

/-- A freed entry is empty, and its queue is gone. -/
theorem arpTable_freeEntry (s : State) (i : ℕ) :
    (etharpFreeEntry s i).arpTable = Function.update s.arpTable i { s.arpTable i with q := 0, state := .empty } := by
  by_cases hq : (s.arpTable i).q ≠ 0
  · simp only [etharpFreeEntry, if_pos hq, arpTable_set, arpTable_act, Function.update_self, Function.update_idem]
  · have hq0 : (s.arpTable i).q = 0 := not_not.mp hq
    simp only [etharpFreeEntry, if_neg hq, arpTable_set]
    rw [← hq0]

/-- Freeing an entry leaves the cached index alone. -/
@[simp] theorem etharpCachedEntry_freeEntry (s : State) (i : ℕ) :
    (etharpFreeEntry s i).etharpCachedEntry = s.etharpCachedEntry := by
  rw [etharpFreeEntry]
  split <;> rfl

/-- The table stays sound when an entry is freed. -/
theorem TableInv.freeEntry (hI : TableInv size netif s) (hi : i < size) :
    TableInv size netif (etharpFreeEntry s i) := by
  refine hI.keep (arpTable_freeEntry s i) ?_ hi ?_ ?_
  · rw [etharpCachedEntry_freeEntry]
    exact hI.hint
  · exact fun hq => absurd rfl hq
  · exact fun hlive => absurd rfl hlive

/-- `etharp_tmr` keeps the table in order. -/
theorem TableInv.tmr (hI : TableInv size netif s) : TableInv size netif (etharpTmr size s) := by
  refine forLoop_invariant (I := fun _ s => TableInv size netif s) hI fun i s hi hI => ?_
  rw [etharpTmrEntry]
  by_cases hlive : (s.arpTable i).state ≠ .empty
  · rw [if_pos hlive]
    have hage : TableInv size netif (s.set i fun e => { e with ctime := e.ctime + 1 }) :=
      hI.keep (arpTable_set s i _) hI.hint hi (hI.queued i hi) fun _ => ⟨hlive, rfl⟩
    dsimp only
    split
    · exact hage.freeEntry hi
    split
    · rename_i hstate
      refine hage.keep (arpTable_set _ i _) hage.hint hi (fun hq => ?_) fun _ => ⟨?_, rfl⟩
      · exact absurd (hstate.symm.trans (hage.queued i hi hq)) (by decide)
      · rw [State.live, hstate]
        decide
    · exact hage
  · rw [if_neg hlive]
    exact hI

/-- `etharp_cleanup_netif` keeps the table in order. -/
theorem TableInv.cleanup (hI : TableInv size netif s) (n : ℕ) : TableInv size netif (etharpCleanupNetif size s n) := by
  refine forLoop_invariant (I := fun _ s => TableInv size netif s) hI fun i s hi hI => ?_
  rw [etharpCleanupEntry]
  split
  · exact hI.freeEntry hi
  · exact hI

/-! ## Finding entries -/

/-- An entry in use is no candidate for an empty one. -/
theorem remember_empty (c : Candidates) (i : ℕ) (e : EtharpEntry) : (c.remember i e).empty = c.empty := by
  rw [Candidates.remember]
  split
  · rfl
  · split
    · split <;> rfl
    · split <;> rfl
  · split <;> rfl
  · split <;> rfl

/-- The sweep finds an entry in use that has the address, or there is none. -/
theorem sweep_spec (table : ℕ → EtharpEntry) (a : UInt32) (is : List ℕ) (hc : c.empty < size → (table c.empty).state = .empty) :
    match sweep size table a is c with
    | .inl i => i ∈ is ∧ (table i).state ≠ .empty ∧ (table i).ipaddr = a
    | .inr c' => (∀ i ∈ is, (table i).state ≠ .empty → (table i).ipaddr ≠ a) ∧
        (c'.empty < size → (table c'.empty).state = .empty) := by
  induction is generalizing c with
  | nil => exact ⟨fun i hi => absurd hi List.not_mem_nil, hc⟩
  | cons i is ih =>
      rw [sweep]
      -- going on after an entry that does not match
      have hgo : ∀ c : Candidates, (c.empty < size → (table c.empty).state = .empty) →
          ((table i).state ≠ .empty → (table i).ipaddr ≠ a) →
          match sweep size table a is c with
          | .inl j => j ∈ i :: is ∧ (table j).state ≠ .empty ∧ (table j).ipaddr = a
          | .inr c' => (∀ j ∈ i :: is, (table j).state ≠ .empty → (table j).ipaddr ≠ a) ∧
              (c'.empty < size → (table c'.empty).state = .empty) := by
        intro c hc hnot
        have hrest := ih hc
        generalize sweep size table a is c = res at hrest ⊢
        cases res with
        | inl j => exact ⟨List.mem_cons_of_mem i hrest.1, hrest.2⟩
        | inr c' => exact ⟨List.forall_mem_cons.mpr ⟨hnot, hrest.1⟩, hrest.2⟩
      by_cases hfree : c.empty = size ∧ (table i).state = .empty
      · rw [if_pos hfree]
        exact hgo _ (fun _ => hfree.2) fun hlive => absurd hfree.2 hlive
      rw [if_neg hfree]
      by_cases hlive : (table i).state ≠ .empty
      · rw [if_pos hlive]
        by_cases hip : a = (table i).ipaddr
        · rw [if_pos hip]
          exact ⟨List.mem_cons_self, hlive, hip.symm⟩
        · rw [if_neg hip]
          refine hgo _ ?_ fun _ heq => hip heq.symm
          rw [remember_empty]
          exact hc
      · rw [if_neg hlive]
        exact hgo _ hc fun h => absurd h hlive

/-- The entry to recycle is one of the table. -/
theorem recycle_lt (h : c.recycle size = some i) : i < size := by
  rw [Candidates.recycle] at h
  split at h
  · rename_i hlt
    rwa [← Option.some.inj h]
  split at h
  · rename_i hlt
    rwa [← Option.some.inj h]
  split at h
  · rename_i hlt
    rwa [← Option.some.inj h]
  · cases h

/-- The packets that were sent, with the addresses to which they went. -/
def sends (log : List Action) : List (ℕ × EthAddr) :=
  log.filterMap fun
    | .sendIp p dst => some (p, dst)
    | .request _ => none
    | .free _ => none

/-- What is sent, in the order of the log. -/
theorem sends_append (log log' : List Action) : sends (log ++ log') = sends log ++ sends log' :=
  List.filterMap_append

/-- The entry for the address `a` that `etharp_find_entry` returns. -/
structure Slot (size : ℕ) (netif : Netif) (s s' : State) (a : UInt32) (i : ℕ) : Prop where
  inv : TableInv size netif s'
  lt : i < size
  ipaddr : (s'.arpTable i).ipaddr = a
  /-- No other entry in use has the address. -/
  fresh : ∀ j < size, j ≠ i → s'.live j → (s'.arpTable j).ipaddr ≠ a
  /-- It is the entry in use that had the address before, or a new one. -/
  found : s' = s ∧ s.live i ∨ ¬s'.live i ∧ ∀ j < size, s.live j → (s.arpTable j).ipaddr ≠ a
  hint : s'.etharpCachedEntry = s.etharpCachedEntry
  sends : sends s'.log = sends s.log

/-- A new entry for an address that no entry in use has. -/
theorem slot_new (hI : TableInv size netif s) (hi : i < size)
    (hnone : ∀ j < size, s.live j → (s.arpTable j).ipaddr ≠ a)
    (htable : s'.arpTable = Function.update s.arpTable i e) (he : e.state = .empty) (hq : e.q = 0) (hip : e.ipaddr = a)
    (hhint : s'.etharpCachedEntry = s.etharpCachedEntry) (hsends : sends s'.log = sends s.log) :
    Slot size netif s s' a i := by
  have hself : s'.arpTable i = e := by rw [htable, Function.update_self]
  have hother : ∀ j, j ≠ i → s'.arpTable j = s.arpTable j := fun j hj => by rw [htable, Function.update_of_ne hj]
  constructor
  · exact hI.update htable (hhint ▸ hI.hint) (fun h => absurd hq h) fun hlive => absurd he hlive
  · exact hi
  · rw [hself, hip]
  · intro j hj hne hlive
    rw [State.live, hother j hne] at hlive
    rw [hother j hne]
    exact hnone j hj hlive
  · refine .inr ⟨fun hlive => hlive ?_, hnone⟩
    rw [hself, he]
  · exact hhint
  · exact hsends

/-- Freeing an entry sends nothing. -/
theorem sends_freeEntry (s : State) (i : ℕ) : sends (etharpFreeEntry s i).log = sends s.log := by
  rw [etharpFreeEntry]
  split
  · exact (sends_append _ _).trans (List.append_nil _)
  · rfl

/-- `etharp_find_entry` returns the entry of the address. -/
theorem etharpFindEntry_spec (hI : TableInv size netif s) (a : UInt32) (flags : UInt8) :
    match etharpFindEntry size s a flags with
    | (none, s') => s' = s ∧ ∀ j < size, s.live j → (s.arpTable j).ipaddr ≠ a
    | (some i, s') => Slot size netif s s' a i := by
  have hsweep := sweep_spec (c := ⟨size, size, size, size, 0, 0, 0⟩) s.arpTable a (List.range size)
    fun h => absurd h (Nat.lt_irrefl size)
  rw [etharpFindEntry]
  generalize sweep size s.arpTable a (List.range size) ⟨size, size, size, size, 0, 0, 0⟩ = res at hsweep ⊢
  cases res with
  -- an entry for the address was there
  | inl i =>
      obtain ⟨hi, hlive, hip⟩ := hsweep
      have hi := List.mem_range.mp hi
      refine ⟨hI, hi, hip, fun j hj hne hlivej heq => hne ?_, .inl ⟨rfl, hlive⟩, rfl, rfl⟩
      exact hI.unique ⟨hj, hlivej⟩ ⟨hi, hlive⟩ (heq.trans hip.symm)
  | inr c =>
      -- there is none: an empty entry, one to recycle, or none at all
      obtain ⟨hnone, hempty⟩ := hsweep
      have hnone : ∀ j < size, s.live j → (s.arpTable j).ipaddr ≠ a :=
        fun j hj hlive => hnone j (List.mem_range.mpr hj) hlive
      dsimp only
      by_cases hfind : flags &&& etharpFlagFindOnly ≠ 0 ∨ c.empty = size ∧ flags &&& etharpFlagTryHard = 0
      · rw [if_pos hfind]
        exact ⟨rfl, hnone⟩
      rw [if_neg hfind]
      by_cases hfree : c.empty < size
      · rw [if_pos hfree]
        have hstate := hempty hfree
        have hq : (s.arpTable c.empty).q = 0 := by
          by_contra hne
          exact absurd (hstate.symm.trans (hI.queued c.empty hfree hne)) (by decide)
        exact slot_new hI hfree hnone (arpTable_set s c.empty _) hstate hq rfl rfl rfl
      · rw [if_neg hfree]
        cases hrec : c.recycle size with
        | none => exact ⟨rfl, hnone⟩
        | some i =>
            refine slot_new hI (recycle_lt hrec) hnone
              (e := { s.arpTable i with q := 0, state := .empty, ipaddr := a, ctime := 0 }) ?_ rfl rfl rfl ?_ ?_
            · rw [arpTable_set, arpTable_freeEntry, Function.update_self, Function.update_idem]
            · rw [etharpCachedEntry_set, etharpCachedEntry_freeEntry]
            · exact sends_freeEntry s i

/-! ## The calls -/

/-- The entry that was found gets a new state. -/
theorem Slot.set (hs : Slot size netif s s' a i) (ha : nonUnicast netif a = false) {s₁ : State}
    (htable : s₁.arpTable = Function.update s'.arpTable i e) (hhint : s₁.etharpCachedEntry < size)
    (hip : e.ipaddr = a) (hq : e.q ≠ 0 → e.state = .pending) : TableInv size netif s₁ := by
  refine hs.inv.update htable hhint hq fun _ => ?_
  rw [hip]
  exact ⟨ha, hs.fresh⟩

/-- `etharp_update_arp_entry` keeps the table in order, and sends the packet that was waiting to the new address. -/
theorem TableInv.updateArpEntry (hI : TableInv size netif s) (ethaddr : EthAddr) (flags : UInt8) :
    TableInv size netif (etharpUpdateArpEntry size netif self env s a ethaddr flags).1 := by
  rw [etharpUpdateArpEntry]
  by_cases ha : nonUnicast netif a = true
  · rw [if_pos ha]
    exact hI
  rw [if_neg ha]
  have hfind := etharpFindEntry_spec hI a flags
  rcases hres : etharpFindEntry size s a flags with ⟨r, s'⟩
  rw [hres] at hfind
  cases r with
  | none =>
      obtain ⟨rfl, -⟩ := hfind
      exact hI
  | some i =>
      have ha := Bool.eq_false_iff.mpr ha
      have hhint : s'.etharpCachedEntry < size := hfind.inv.hint
      dsimp only
      split
      · refine hfind.set ha (e := { s'.arpTable i with
          state := .stable, netif := self, ethaddr := ethaddr, ctime := 0, q := 0 }) ?_ hhint hfind.ipaddr ?_
        · simp only [etharpSendIp, arpTable_act, arpTable_set, Function.update_self, Function.update_idem]
        · exact fun hq => absurd rfl hq
      · rename_i hq
        refine hfind.set ha (arpTable_set s' i _) hhint hfind.ipaddr fun hq' => ?_
        rw [arpTable_set_self] at hq
        exact absurd hq' hq

/-- A new entry is marked pending. -/
theorem Slot.pending (hs : Slot size netif s s' a i) :
    ∃ e, (if (s'.arpTable i).state = .empty then s'.set i fun e => { e with state := .pending } else s').arpTable =
        Function.update s'.arpTable i e ∧ e.ipaddr = a ∧ e.state ≠ .empty ∧ (e.q ≠ 0 → e.state = .pending) ∧
      (if (s'.arpTable i).state = .empty then s'.set i fun e => { e with state := .pending } else s').etharpCachedEntry =
        s.etharpCachedEntry := by
  split
  · exact ⟨_, arpTable_set s' i _, hs.ipaddr, (nomatch ·), fun _ => rfl, hs.hint⟩
  · rename_i hlive
    exact ⟨s'.arpTable i, (Function.update_eq_self i _).symm, hs.ipaddr, hlive, hs.inv.queued i hs.lt, hs.hint⟩

/-- `etharp_query` keeps the table in order. -/
theorem TableInv.query (hI : TableInv size netif s) (a : UInt32) (q : ℕ) :
    TableInv size netif (etharpQuery size netif env s a q).1 := by
  rw [etharpQuery]
  by_cases ha : nonUnicast netif a = true
  · rw [if_pos ha]
    exact hI
  rw [if_neg ha]
  have hfind := etharpFindEntry_spec hI a etharpFlagTryHard
  rcases hres : etharpFindEntry size s a etharpFlagTryHard with ⟨r, s'⟩
  rw [hres] at hfind
  cases r with
  | none =>
      obtain ⟨rfl, -⟩ := hfind
      exact hI
  | some i =>
      have ha := Bool.eq_false_iff.mpr ha
      obtain ⟨e, htable, hip, hstate, hq, hhint⟩ := hfind.pending
      dsimp only [etharpQueryEntry]
      generalize (if (s'.arpTable i).state = .empty then s'.set i fun e => { e with state := .pending } else s') = s₁
        at htable hhint ⊢
      have hasks : (if (s₁.arpTable i).state = .pending ∨ q = 0 then s₁.act (.request a) else s₁).arpTable = s₁.arpTable ∧
          (if (s₁.arpTable i).state = .pending ∨ q = 0 then s₁.act (.request a) else s₁).etharpCachedEntry =
            s₁.etharpCachedEntry := by
        split <;> exact ⟨rfl, rfl⟩
      generalize (if (s₁.arpTable i).state = .pending ∨ q = 0 then s₁.act (.request a) else s₁) = s₂ at hasks ⊢
      have htable₂ : s₂.arpTable = Function.update s'.arpTable i e := hasks.1.trans htable
      have hhint₂ : s₂.etharpCachedEntry < size := hasks.2.trans hhint ▸ hI.hint
      have hI₂ : TableInv size netif s₂ := hfind.set ha htable₂ hhint₂ hip hq
      split
      · exact hI₂
      split
      · exact hI₂.congr rfl hfind.lt
      rename_i hnot
      split
      · -- the entry is pending, and takes the packet
        have hself : s₂.arpTable i = e := by rw [htable₂, Function.update_self]
        have hpending : e.state = .pending := by
          rw [hself] at hnot
          cases hst : e.state with
          | empty => exact absurd hst hstate
          | pending => rfl
          | stable => exact absurd (congrArg EtharpState.isStable hst) hnot
          | stableRerequesting => exact absurd (congrArg EtharpState.isStable hst) hnot
        refine hfind.set ha (e := { e with q := env.copy }) ?_ ?_ hip fun _ => hpending
        · split <;> simp only [arpTable_set, arpTable_act, htable₂, Function.update_self, Function.update_idem]
        · split <;> exact hhint₂
      · exact hI₂

/-- `etharp_output_to_arp_index` keeps the table in order. -/
theorem TableInv.outputToArpIndex (hI : TableInv size netif s) (hi : i < size) (hlive : s.live i) (q : ℕ) :
    TableInv size netif (etharpOutputToArpIndex env s q i).1 := by
  rw [etharpOutputToArpIndex]
  split
  · rename_i hstate
    dsimp only
    split
    · refine TableInv.congr (s := s.set i fun e => { e with state := .stableRerequesting }) ?_ rfl hI.hint
      refine hI.keep (arpTable_set s i _) hI.hint hi (fun hq => ?_) fun _ => ⟨hlive, rfl⟩
      exact absurd (hstate.1.symm.trans (hI.queued i hi hq)) (by decide)
    · exact hI.congr rfl hI.hint
  · exact hI.congr rfl hI.hint

/-! ## The three ways to an entry -/

/-- The test of `etharp_output` for an entry. -/
theorem hit_iff : hit s a i = true ↔ (s.arpTable i).state.isStable = true ∧ a = (s.arpTable i).ipaddr := by
  rw [hit, Bool.and_eq_true, beq_iff_eq]

/-- An entry that is hit is in use. -/
theorem live_of_hit (hhit : hit s a i = true) : s.live i := by
  have hstable := (hit_iff.mp hhit).1
  rw [State.live]
  intro hempty
  rw [hempty] at hstable
  cases hstable

/-- Only one entry is hit. -/
theorem TableInv.hit_unique (hI : TableInv size netif s) (hi : i < size) (hj : j < size) (hiti : hit s a i = true)
    (hitj : hit s a j = true) : j = i :=
  hI.unique ⟨hj, live_of_hit hitj⟩ ⟨hi, live_of_hit hiti⟩ ((hit_iff.mp hitj).2.symm.trans (hit_iff.mp hiti).2)

/-- The scan finds it. -/
theorem TableInv.scan (hI : TableInv size netif s) (hi : i < size) (hiti : hit s a i = true) :
    (List.range size).find? (hit s a) = some i := by
  cases hfind : (List.range size).find? (hit s a) with
  | none => exact absurd hiti (List.find?_eq_none.mp hfind i (List.mem_range.mpr hi))
  | some j =>
      have hj := List.mem_range.mp (List.mem_of_find?_eq_some hfind)
      rw [hI.hit_unique hi hj hiti (List.find?_some hfind)]

/-- A query finds it. -/
theorem TableInv.query_hit (hI : TableInv size netif s) (hi : i < size) (hiti : hit s a i = true) (hq : q ≠ 0) :
    etharpQuery size netif env s a q =
      etharpSendIp env { s with etharpCachedEntry := i } q (s.arpTable i).ethaddr := by
  obtain ⟨hstable, hip⟩ := hit_iff.mp hiti
  have hlive := live_of_hit hiti
  have ha : ¬nonUnicast netif a = true := by
    rw [hip, hI.unicast i hi hlive]
    decide
  have hfind := etharpFindEntry_spec hI a etharpFlagTryHard
  rw [etharpQuery, if_neg ha]
  rcases hres : etharpFindEntry size s a etharpFlagTryHard with ⟨r, s'⟩
  rw [hres] at hfind
  cases r with
  | none => exact absurd hip.symm (hfind.2 i hi hlive)
  | some k =>
      obtain ⟨rfl, hlivek⟩ | ⟨-, hnone⟩ := hfind.found
      · obtain rfl : k = i := hI.unique ⟨hfind.lt, hlivek⟩ ⟨hi, hlive⟩ (hfind.ipaddr.trans hip)
        have hpending : ¬((s'.arpTable k).state = .pending ∨ q = 0) := by
          rintro (hst | hq0)
          · rw [hst] at hstable
            cases hstable
          · exact hq hq0
        simp only [etharpQueryEntry, if_neg (show ¬(s'.arpTable k).state = .empty from hlive), if_neg hpending, if_neg hq, if_pos hstable]
      · exact absurd hip.symm (hnone i hi hlive)

/-! ## The index that was used last -/

/-- The same table, with another index that was used last. -/
def State.withHint (s : State) (h : ℕ) : State := { s with etharpCachedEntry := h }

/-- Freeing an entry does not read the cached index. -/
theorem freeEntry_withHint (s : State) (h i : ℕ) :
    etharpFreeEntry (s.withHint h) i = (etharpFreeEntry s i).withHint h := by
  by_cases hq : (s.arpTable i).q ≠ 0
  · have hq' : ((s.withHint h).arpTable i).q ≠ 0 := hq
    rw [etharpFreeEntry, etharpFreeEntry, if_pos hq, if_pos hq']
    rfl
  · have hq' : ¬((s.withHint h).arpTable i).q ≠ 0 := hq
    rw [etharpFreeEntry, etharpFreeEntry, if_neg hq, if_neg hq']
    rfl

/-- Nor does the search for an entry. -/
theorem findEntry_withHint (s : State) (h : ℕ) (a : UInt32) (flags : UInt8) :
    etharpFindEntry size (s.withHint h) a flags =
      ((etharpFindEntry size s a flags).1, (etharpFindEntry size s a flags).2.withHint h) := by
  rw [etharpFindEntry, etharpFindEntry, State.withHint]
  dsimp only
  split
  · rfl
  split
  · rfl
  split
  · rfl
  split
  · rfl
  · have hfree := freeEntry_withHint s h
    rw [State.withHint] at hfree
    rw [hfree]
    rfl

/-- An entry that is not stable is pending then, asked for, and gets the packet. -/
theorem queryEntry_eq (hst : (s.arpTable i).state.isStable = false) :
    etharpQueryEntry env s a q i =
      let s₁ := (s.set i fun e => { e with state := .pending }).act (.request a)
      if q = 0 then (s₁, env.request)
      else if env.copy ≠ 0 then
        ((if (s.arpTable i).q ≠ 0 then s₁.act (.free (s.arpTable i).q) else s₁).set i
          fun e => { e with q := env.copy }, errOk)
      else (s₁, errMem) := by
  have hpending : (if (s.arpTable i).state = .empty then s.set i fun e => { e with state := .pending } else s) =
      s.set i fun e => { e with state := .pending } := by
    cases hstate : (s.arpTable i).state with
    | empty => exact if_pos rfl
    | pending =>
        have hself : { s.arpTable i with state := .pending } = s.arpTable i := by rw [← hstate]
        rw [if_neg (nomatch ·), State.set, hself, Function.update_eq_self]
    | stable => exact absurd (congrArg EtharpState.isStable hstate) (Bool.eq_false_iff.mp hst)
    | stableRerequesting => exact absurd (congrArg EtharpState.isStable hstate) (Bool.eq_false_iff.mp hst)
  have hself : (s.set i fun e => { e with state := .pending }).arpTable i = { s.arpTable i with state := .pending } :=
    arpTable_set_self s i _
  have hasks : ((s.set i fun e => { e with state := .pending }).arpTable i).state = .pending ∨ q = 0 := by
    rw [hself]
    exact .inl rfl
  have hnot : ¬((s.set i fun e => { e with state := .pending }).arpTable i).state.isStable = true := by
    rw [hself]
    exact Bool.false_ne_true
  rw [etharpQueryEntry, hpending]
  simp only [if_pos hasks, arpTable_act, if_neg hnot]
  rw [hself]

/-- An entry that is not stable does not depend on the entry that was used last. -/
theorem queryEntry_withHint (hst : (s.arpTable i).state.isStable = false) (h : ℕ) :
    etharpQueryEntry env (s.withHint h) a q i =
      ((etharpQueryEntry env s a q i).1.withHint h, (etharpQueryEntry env s a q i).2) := by
  have hst' : ((s.withHint h).arpTable i).state.isStable = false := hst
  rw [queryEntry_eq hst, queryEntry_eq hst']
  dsimp only
  by_cases hq : q = 0
  · rw [if_pos hq, if_pos hq]
    rfl
  rw [if_neg hq, if_neg hq]
  by_cases hcopy : env.copy ≠ 0
  · rw [if_pos hcopy, if_pos hcopy]
    by_cases hqi : (s.arpTable i).q ≠ 0
    · have hqi' : ((s.withHint h).arpTable i).q ≠ 0 := hqi
      rw [if_pos hqi, if_pos hqi']
      rfl
    · have hqi' : ¬((s.withHint h).arpTable i).q ≠ 0 := hqi
      rw [if_neg hqi, if_neg hqi']
      rfl
  · rw [if_neg hcopy, if_neg hcopy]
    rfl

/-- A query that finds no stable entry leaves the index alone, and does not depend on it. -/
theorem TableInv.query_withHint (hI : TableInv size netif s) (hmiss : ∀ i < size, hit s a i = false) (h q : ℕ) :
    etharpQuery size netif env (s.withHint h) a q =
      ((etharpQuery size netif env s a q).1.withHint h, (etharpQuery size netif env s a q).2) := by
  by_cases ha : nonUnicast netif a = true
  · rw [etharpQuery, etharpQuery, if_pos ha, if_pos ha]
  have hfind := etharpFindEntry_spec hI a etharpFlagTryHard
  rw [etharpQuery, etharpQuery, if_neg ha, if_neg ha, findEntry_withHint]
  rcases hres : etharpFindEntry size s a etharpFlagTryHard with ⟨r, s'⟩
  rw [hres] at hfind
  cases r with
  | none => rfl
  | some i =>
      refine queryEntry_withHint ?_ h
      rw [Bool.eq_false_iff]
      intro hstable
      obtain ⟨rfl, -⟩ | ⟨hempty, -⟩ := hfind.found
      · exact absurd (hit_iff.mpr ⟨hstable, hfind.ipaddr.symm⟩) (Bool.eq_false_iff.mp (hmiss i hfind.lt))
      · rw [State.live, not_not] at hempty
        rw [hempty] at hstable
        cases hstable

/-- What a call leaves, apart from the index that was used last. -/
def Effect (r : State × Err) : (ℕ → EtharpEntry) × List Action × Err := (r.1.arpTable, r.1.log, r.2)

/-- With a stable entry for the next hop, the packet goes out through it. -/
theorem TableInv.via_hit (hI : TableInv size netif s) (hi : i < size) (hiti : hit s a i = true) (h : ℕ) (hh : h < size) :
    etharpOutputVia size netif env (s.withHint h) q a = etharpOutputToArpIndex env (s.withHint i) q i := by
  rw [etharpOutputVia]
  by_cases hhint : hit s a h = true
  · obtain rfl := hI.hit_unique hi hh hiti hhint
    exact if_pos hhint
  · have hscan : (List.range size).find? (hit (s.withHint h) a) = some i := hI.scan hi hiti
    rw [if_neg (show ¬hit (s.withHint h) a (s.withHint h).etharpCachedEntry = true from hhint), hscan]
    rfl

/-- Without one it is up to a query. -/
theorem via_miss (hmiss : ∀ i < size, hit s a i = false) (h : ℕ) (hh : h < size) :
    etharpOutputVia size netif env (s.withHint h) q a = etharpQuery size netif env (s.withHint h) a q := by
  have hscan : (List.range size).find? (hit (s.withHint h) a) = none := by
    rw [List.find?_eq_none]
    exact fun i hi => Bool.eq_false_iff.mp (hmiss i (List.mem_range.mp hi))
  rw [etharpOutputVia, hscan]
  exact if_neg (Bool.eq_false_iff.mp (hmiss h hh))

/-- **The cached index is only a hint.** What `etharp_output` sends does not depend on it. -/
theorem TableInv.via_withHint (hI : TableInv size netif s) (h h' : ℕ) (hh : h < size) (hh' : h' < size) :
    Effect (etharpOutputVia size netif env (s.withHint h) q a) =
      Effect (etharpOutputVia size netif env (s.withHint h') q a) := by
  by_cases hmiss : ∀ i < size, hit s a i = false
  · rw [via_miss hmiss h hh, via_miss hmiss h' hh', hI.query_withHint hmiss, hI.query_withHint hmiss]
    rfl
  · push Not at hmiss
    obtain ⟨i, hi, hiti⟩ := hmiss
    have hiti : hit s a i = true := Bool.not_eq_false _ |>.mp hiti
    rw [hI.via_hit hi hiti h hh, hI.via_hit hi hiti h' hh']

/-! ## `etharp_output` -/

/-- Sending by way of an address keeps the table sound. -/
theorem TableInv.outputVia (hI : TableInv size netif s) (q : ℕ) (a : UInt32) :
    TableInv size netif (etharpOutputVia size netif env s q a).1 := by
  rw [etharpOutputVia]
  split
  · rename_i hhit
    exact hI.outputToArpIndex hI.hint (live_of_hit hhit) q
  split
  · rename_i i hfind
    have hi := List.mem_range.mp (List.mem_of_find?_eq_some hfind)
    have hI' : TableInv size netif { s with etharpCachedEntry := i } := hI.congr rfl hi
    exact hI'.outputToArpIndex hi (live_of_hit (List.find?_some hfind)) q
  · exact hI.query a q

/-- Where `etharp_output` sends a packet: to an Ethernet address, nowhere, or to the next hop. -/
inductive Route
  | mac (dst : EthAddr)
  | unreachable
  | via (dst : UInt32)

/-- The route to an address: it depends on the interface only. -/
def route (netif : Netif) (ipaddr : UInt32) : Route :=
  if ip4AddrIsbroadcast ipaddr netif.toNetif then .mac ethbroadcast
  else if ipAddrIsmulticast ipaddr then .mac (mcastaddr ipaddr)
  else if ipAddrNetcmp ipaddr netif.ipAddr netif.netmask ∨ ipAddrIslinklocal ipaddr then .via ipaddr
  else if ipAddrIsany netif.gw then .unreachable
  else .via netif.gw

/-- Broadcast, multicast and the gateway come before the table. -/
theorem etharpOutput_eq (hroom : env.room = true) (s : State) (q : ℕ) (ipaddr : UInt32) :
    etharpOutput size netif env s q ipaddr =
      match route netif ipaddr with
      | .mac dst => etharpSendIp env s q dst
      | .unreachable => (s, errRte)
      | .via dst => etharpOutputVia size netif env s q dst := by
  rw [etharpOutput, route, hroom, if_neg (show ¬(!true) = true from Bool.false_ne_true)]
  by_cases hbroad : ip4AddrIsbroadcast ipaddr netif.toNetif = true
  · rw [if_pos hbroad, if_pos hbroad]
  rw [if_neg hbroad, if_neg hbroad]
  by_cases hmulti : ipAddrIsmulticast ipaddr = true
  · rw [if_pos hmulti, if_pos hmulti]
  rw [if_neg hmulti, if_neg hmulti]
  by_cases hlocal : ipAddrNetcmp ipaddr netif.ipAddr netif.netmask = true ∨ ipAddrIslinklocal ipaddr = true
  · rw [if_pos hlocal, if_neg]
    rcases hlocal with h | h <;> simp [h]
  · obtain ⟨hnet, hlink⟩ := not_or.mp hlocal
    rw [if_neg hlocal, if_pos (by simp [hnet, hlink])]
    by_cases hgw : ipAddrIsany netif.gw = true
    · rw [if_pos hgw, hgw, if_neg (by decide)]
    · rw [if_neg hgw, if_pos (by simp [hgw])]

/-- And so does `etharp_output`. -/
theorem TableInv.output (hI : TableInv size netif s) (q : ℕ) (a : UInt32) :
    TableInv size netif (etharpOutput size netif env s q a).1 := by
  cases hroom : env.room with
  | false =>
      rw [etharpOutput, hroom]
      exact hI
  | true =>
      rw [etharpOutput_eq hroom]
      cases route netif a with
      | mac dst => exact hI.congr rfl hI.hint
      | unreachable => exact hI
      | via dst => exact hI.outputVia q dst

/-! ## Runs -/

/-- Every operation on the table keeps it sound. -/
theorem tableInv_step {ev : Event} (hI : TableInv size netif s) (hstep : step size netif self s ev = some s') :
    TableInv size netif s' := by
  cases ev with
  | query env ipaddr q => exact Option.some.inj hstep ▸ hI.query ipaddr q
  | update env ipaddr ethaddr flags => exact Option.some.inj hstep ▸ hI.updateArpEntry ethaddr flags
  | tmr => exact Option.some.inj hstep ▸ hI.tmr
  | cleanup n => exact Option.some.inj hstep ▸ hI.cleanup n
  | output env q ipaddr => exact Option.some.inj hstep ▸ hI.output q ipaddr

/-- An empty table is sound. -/
theorem tableInv_start (hsize : 0 < size) : TableInv size netif start := by
  constructor
  · exact fun i hi => absurd rfl hi.2
  · exact fun i _ hq => absurd rfl hq
  · exact fun i _ hlive => absurd rfl hlive
  · exact hsize

/-- The packet goes to the address of the entry. -/
theorem sends_outputToArpIndex (s : State) (q i : ℕ) :
    sends (etharpOutputToArpIndex env s q i).1.log = sends s.log ++ [(q, (s.arpTable i).ethaddr)] := by
  rw [etharpOutputToArpIndex]
  split
  · have hrequest : sends (s.act (.request (s.arpTable i).ipaddr)).log = sends s.log :=
      (sends_append _ _).trans (List.append_nil _)
    dsimp only
    split
    · have hmac : (((s.act (.request (s.arpTable i).ipaddr)).set i
          fun e => { e with state := .stableRerequesting }).arpTable i).ethaddr = (s.arpTable i).ethaddr := by
        rw [arpTable_set_self, arpTable_act]
      rw [hmac]
      exact (sends_append _ _).trans (congrArg (· ++ [(q, (s.arpTable i).ethaddr)]) hrequest)
    · exact (sends_append _ _).trans (congrArg (· ++ [(q, (s.arpTable i).ethaddr)]) hrequest)
  · exact sends_append _ _

/-- What the table promises to `etharp_output`. -/
structure RoutesAgree (size : ℕ) (netif : Netif) (s : State) : Prop where
  unique : ∀ i j, i < size → j < size → s.live i → s.live j → (s.arpTable i).ipaddr = (s.arpTable j).ipaddr → i = j
  queued : ∀ i < size, (s.arpTable i).q ≠ 0 → (s.arpTable i).state = .pending
  cached : s.etharpCachedEntry < size
  /-- The entry that was used last, the scan and the query choose the same entry. -/
  same : ∀ env a q i h, i < size → h < size → q ≠ 0 → hit s a i = true →
    (hit s a h = true → h = i) ∧ (List.range size).find? (hit s a) = some i ∧
      sends (etharpOutputVia size netif env (s.withHint h) q a).1.log = sends s.log ++ [(q, (s.arpTable i).ethaddr)] ∧
      sends (etharpQuery size netif env s a q).1.log = sends s.log ++ [(q, (s.arpTable i).ethaddr)]
  /-- Without a stable entry all of them come to the query. -/
  query : ∀ env a q h, h < size → (∀ i < size, hit s a i = false) →
    etharpOutputVia size netif env (s.withHint h) q a = etharpQuery size netif env (s.withHint h) a q
  /-- The entry that was used last changes nothing. -/
  hint : ∀ env q ipaddr h h', h < size → h' < size →
    Effect (etharpOutput size netif env (s.withHint h) q ipaddr) =
      Effect (etharpOutput size netif env (s.withHint h') q ipaddr)
  /-- The route is known before the table is looked at. -/
  resolved : ∀ env q ipaddr h, env.room = true →
    etharpOutput size netif env (s.withHint h) q ipaddr =
      match route netif ipaddr with
      | .mac dst => etharpSendIp env (s.withHint h) q dst
      | .unreachable => (s.withHint h, errRte)
      | .via dst => etharpOutputVia size netif env (s.withHint h) q dst

/-- In a sound table the three routes send to the same address. -/
theorem TableInv.routesAgree (hI : TableInv size netif s) : RoutesAgree size netif s := by
  constructor
  · exact fun i j hi hj hlivei hlivej heq => hI.unique ⟨hi, hlivei⟩ ⟨hj, hlivej⟩ heq
  · exact hI.queued
  · exact hI.hint
  · intro env a q i h hi hh hq hiti
    refine ⟨hI.hit_unique hi hh hiti, hI.scan hi hiti, ?_, ?_⟩
    · rw [hI.via_hit hi hiti h hh]
      exact sends_outputToArpIndex (s.withHint i) q i
    · rw [hI.query_hit hi hiti hq]
      exact sends_append _ _
  · exact fun env a q h hh hmiss => via_miss hmiss h hh
  · intro env q ipaddr h h' hh hh'
    cases hroom : env.room with
    | false =>
        rw [etharpOutput, etharpOutput, hroom]
        rfl
    | true =>
        rw [etharpOutput_eq hroom, etharpOutput_eq hroom]
        cases route netif ipaddr with
        | mac dst => rfl
        | unreachable => rfl
        | via dst => exact hI.via_withHint h h' hh hh'
  · exact fun env q ipaddr h hroom => etharpOutput_eq hroom (s.withHint h) q ipaddr

/-- **Where packets are sent.** In every run the entries in use have different addresses, only pending ones hold
packets, and the entry that was used last never changes where a packet goes. -/
theorem run_routes {es : List Event} (hsize : 0 < size) (hrun : run (step size netif self) start es = some s) :
    RoutesAgree size netif s :=
  TableInv.routesAgree (run_invariant (I := fun s => TableInv size netif s)
    (fun _ _ _ hI hstep => tableInv_step hI hstep) (tableInv_start hsize) hrun)

/-- 192.168.1.2/24 with the gateway 192.168.1.1. -/
def smallNetif : Netif where
  next := 0
  ipAddr := 0xC0A80102
  netmask := 0xFFFFFF00
  flags := netifFlagUp ||| netifFlagBroadcast
  gw := 0xC0A80101

/-- All calls succeed, and 500 is the copy of a packet. -/
def goodEnv : Env := ⟨true, errOk, errOk, 500⟩

/-- A packet for a host behind the gateway waits for the address of the gateway, and a second one goes there at
once. -/
def gatewayRun : List Event :=
  [.output goodEnv 400 0x08080808, .update goodEnv 0xC0A80101 #v[2, 0, 0, 0, 0, 1] etharpFlagTryHard, .tmr,
    .output goodEnv 600 0x08080404]

/-- The theorem at a run that sends through a gateway. -/
theorem gatewayRun_routes : ∃ s, run (step 10 smallNetif 1) start gatewayRun = some s ∧
    sends s.log = [(500, #v[2, 0, 0, 0, 0, 1]), (600, #v[2, 0, 0, 0, 0, 1])] ∧ RoutesAgree 10 smallNetif s := by
  obtain ⟨s, hrun, hsends⟩ : ∃ s, run (step 10 smallNetif 1) start gatewayRun = some s ∧
      sends s.log = [(500, #v[2, 0, 0, 0, 0, 1]), (600, #v[2, 0, 0, 0, 0, 1])] := ⟨_, rfl, by decide⟩
  exact ⟨s, hrun, hsends, run_routes (by decide) hrun⟩

end BareMetal.Arp
