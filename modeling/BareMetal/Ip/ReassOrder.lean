import BareMetal.Ip.ReassContent

/-! # Fragments in any order

When all pieces of a datagram come, in any order, with others in between and some of them more than once, the datagram is
delivered as it was sent, as long as there is room for each fragment and none goes behind a hole
(`Sender.any_order`). -/

namespace BareMetal.Ip

variable {σ : Sender} {s s' t : Reass} {r ipr : ReassData} {p p' : Packet} {k : Key} {f : Frag} {a b : ℕ}
  {received : PbufData} {front behind : List ReassData}

/-- There is room for the fragment, also when it is the first one of its datagram. -/
def Reass.Spacious (s : Reass) (p : Packet) : Prop :=
  p.hdr.vHl &&& 0x0f = 5 ∧ s.overfull p = false ∧ 0 < s.pool

/-- A datagram with this key has been delivered. -/
def Reass.HasDelivered (s : Reass) (k : Key) : Prop := ∃ hdr chain, ReassCall.deliver hdr chain ∈ s.calls ∧ hdr.key = k

/-- The range of the fragment is in the queue of the datagram `k`. -/
def Reass.Gathered (s : Reass) (k : Key) (f : Frag) : Prop :=
  ∃ r ∈ s.reassdatagrams, r.iphdr.key = k ∧ ∃ g ∈ r.p, g.start = f.start ∧ g.stop = f.stop

/-- The events leave the datagrams alone: there is room for each fragment, none goes behind a hole, and no datagram
gets too old. -/
def Reass.Calm (s : Reass) : ReassEvent → Prop
  | .fragment p => s.Spacious p ∧ ¬s.BehindHole p
  | .tmr => ∀ r ∈ s.reassdatagrams, 0 < r.timer

instance decidableSpacious : Decidable (s.Spacious p) := inferInstanceAs (Decidable (_ ∧ _ ∧ _))

instance decidableCalm (s : Reass) : ∀ e, Decidable (s.Calm e)
  | .fragment p => inferInstanceAs (Decidable (s.Spacious p ∧ ¬s.BehindHole p))
  | .tmr => inferInstanceAs (Decidable (∀ r ∈ s.reassdatagrams, 0 < r.timer))

/-! ## One fragment -/

/-- With room, the fragment goes to its datagram, or to a new one. -/
theorem ipReass_spacious (h : s.Spacious p) :
    ∃ (t : Reass) (front : List ReassData) (ipr : ReassData) (behind : List ReassData),
      s.ipReass p = some (t.queueFragment p front ipr behind) ∧ t.calls = s.calls ∧
      ipr.iphdr.matches p.hdr = true ∧ (ipr ∈ s.reassdatagrams ∨ ipr = newDatagram p.hdr) ∧
      ∀ r ∈ s.reassdatagrams, r = ipr ∨ r ∈ front ++ behind := by
  obtain ⟨hhl, hfull, hpool⟩ := h
  have hmake : s.makeRoom p = some (1, s) := by
    rw [Reass.makeRoom, hfull, if_neg Bool.false_ne_true]
  have hrun : s.ipReass p = s.acceptFragment p := by
    rw [Reass.ipReass, if_neg (not_not.mpr hhl), hmake, Option.bind_some]
    exact if_neg (by rw [hfull]; decide)
  rw [hrun, Reass.acceptFragment]
  cases hfind : findDatagram p.hdr s.reassdatagrams with
  | some r =>
      obtain ⟨front, ipr, behind⟩ := r
      obtain ⟨hsplit, hmatch⟩ := findDatagram_some hfind
      refine ⟨s, front, ipr, behind, rfl, rfl, hmatch, .inl ?_, fun r hr => ?_⟩
      · rw [hsplit]
        exact List.mem_append_right front List.mem_cons_self
      · rw [hsplit] at hr
        simp only [List.mem_append, List.mem_cons] at hr ⊢
        tauto
  | none =>
      rw [Reass.enqueueNewDatagram, if_pos hpool]
      exact ⟨_, [], newDatagram p.hdr, s.reassdatagrams, rfl, rfl, (matches_iff _ _).mpr rfl, .inr rfl,
        fun r hr => .inr hr⟩

/-- What comes to a datagram stays in its queue until the datagram is delivered. -/
theorem queueFragment_gathers (t : Reass) (front behind : List ReassData)
    (hmatch : ipr.iphdr.matches p.hdr = true) (hheld : σ.Held ipr) (hp : σ.Sent p a b) :
    (∃ cs, (t.queueFragment p front ipr behind).calls = t.calls ++ cs) ∧
      (∀ r ∈ front ++ behind, r ∈ (t.queueFragment p front ipr behind).reassdatagrams) ∧
      ((t.queueFragment p front ipr behind).HasDelivered p.hdr.key ∨
        (t.queueFragment p front ipr behind).Gathered p.hdr.key p.frag ∧
          ∀ f ∈ ipr.p, (t.queueFragment p front ipr behind).Gathered p.hdr.key f) := by
  have hkey := (matches_iff _ _).mp hmatch
  have hkey' : (ipr.note p.hdr).iphdr.key = p.hdr.key := (key_note hmatch).trans hkey
  have hmem : ∀ r', ∀ r ∈ front ++ behind, r ∈ front ++ r' :: behind := by
    intro r' r hr
    simp only [List.mem_append, List.mem_cons] at hr ⊢
    tauto
  cases hchain : chainFrag p.frag none true ipr.p with
  | none =>
      -- a copy of a piece that was there
      obtain ⟨f, hf, hcollides⟩ := chainFrag_none (fun prev hprev => absurd hprev (Option.not_mem_none prev)) hchain
      obtain ⟨hstart, hstop⟩ := (hheld.frags f hf).eq_of_collides (hkey ▸ hp.holds) hcollides
      have hqueue : ∀ g ∈ ipr.p, g ∈ (ipr.note p.hdr).p := fun g hg => by rwa [p_note]
      rw [queueFragment_free hchain]
      refine ⟨⟨_, rfl⟩, hmem _, .inr ⟨?_, fun g hg => ?_⟩⟩
      · exact ⟨ipr.note p.hdr, by simp, hkey', f, hqueue f hf, UInt16.toNat_inj.mp hstart, UInt16.toNat_inj.mp hstop⟩
      · exact ⟨ipr.note p.hdr, by simp, hkey', g, hqueue g hg, rfl, rfl⟩
  | some r =>
      obtain ⟨before, after, valid⟩ := r
      obtain ⟨hsplit, -⟩ := chainFrag_spec hchain
      cases hvalid : validDatagram (ipr.note p.hdr).lastfrag valid p.frag before after with
      | false =>
          -- the queue has one piece more
          have hqueue : ∀ g ∈ ipr.p, g ∈ before ++ p.frag :: after := by
            intro g hg
            rw [hsplit] at hg
            simp only [List.mem_append, List.mem_cons] at hg ⊢
            tauto
          rw [queueFragment_keep hchain hvalid]
          let ipr' : ReassData := { ipr.note p.hdr with p := before ++ p.frag :: after }
          refine ⟨⟨[], (List.append_nil _).symm⟩, hmem _, .inr ⟨?_, fun g hg => ?_⟩⟩
          · exact ⟨ipr', by simp [ipr'], hkey', p.frag, by simp [ipr'], rfl, rfl⟩
          · exact ⟨ipr', by simp [ipr'], hkey', g, hqueue g hg, rfl, rfl⟩
      | true =>
          -- the datagram is complete
          rw [queueFragment_deliver hchain hvalid]
          refine ⟨⟨_, rfl⟩, fun r hr => hr, .inl ⟨_, _, List.mem_append_right _ List.mem_cons_self, ?_⟩⟩
          exact hkey'

/-! ## Runs -/

/-- It is a datagram that was sent. -/
structure Sender.IsRight (σ : Sender) (hdr : IpHdr) (chain : PbufData) : Prop where
  hdr_eq : hdr = σ.hdr hdr.key
  text : chain.flatten = σ.data hdr.key
  ne_nil : σ.data hdr.key ≠ []

/-- Of the fragments that have come, each is in the queue of its datagram unless this has been delivered, and what has
been delivered is right. -/
structure Sender.Progress (σ : Sender) (s : Reass) (seen : List ReassEvent) : Prop where
  honest : σ.Honest s
  arrived : ∀ p, .fragment p ∈ seen → s.HasDelivered p.hdr.key ∨ s.Gathered p.hdr.key p.frag
  delivered : ∀ hdr chain, ReassCall.deliver hdr chain ∈ s.calls → σ.IsRight hdr chain

variable {seen : List ReassEvent}

/-- What has been delivered stays delivered. -/
theorem Reass.HasDelivered.mono {cs : List ReassCall} (h : s.HasDelivered k) (hcalls : s'.calls = s.calls ++ cs) :
    s'.HasDelivered k := by
  obtain ⟨hdr, chain, hmem, hkey⟩ := h
  exact ⟨hdr, chain, hcalls ▸ List.mem_append_left cs hmem, hkey⟩

/-- A piece of an honest sender, with room for it: the pieces that are missing become fewer. -/
theorem Sender.Progress.fragment (h : σ.Progress s seen) (hinv : ReassInv s received) (hp : σ.Sent p a b)
    (hcalm : s.Calm (.fragment p)) : ∃ s', s.ipReass p = some s' ∧ σ.Progress s' (seen ++ [.fragment p]) := by
  obtain ⟨t, front, ipr, behind, hrun, hcalls, hmatch, horigin, hothers⟩ := ipReass_spacious hcalm.1
  have hkey := (matches_iff _ _).mp hmatch
  have hheld : σ.Held ipr := by
    rcases horigin with hmem | rfl
    · exact (h.honest ipr hmem).1
    · exact σ.held_newDatagram hp
  obtain ⟨⟨cs, hcs⟩, hstays, hgathers⟩ := queueFragment_gathers t front behind hmatch hheld hp
  rw [hcalls] at hcs
  obtain ⟨hhonest, hright⟩ := ((ipReass_spec hinv p).2 _ hrun).honest hinv h.honest hp
  refine ⟨_, hrun, hhonest, fun p' hp' => ?_, fun hdr chain hmem => ?_⟩
  · rcases List.mem_append.mp hp' with hp' | hp'
    · rcases h.arrived p' hp' with hdone | ⟨r, hr, hrkey, g, hg, hstart, hstop⟩
      · exact .inl (hdone.mono hcs)
      rcases hothers r hr with rfl | hr
      · -- the queue of the new fragment
        rw [← hrkey, hkey]
        refine hgathers.imp_right fun hgathers => ?_
        obtain ⟨r', hr', hrkey', g', hg', hstart', hstop'⟩ := hgathers.2 g hg
        exact ⟨r', hr', hrkey', g', hg', hstart'.trans hstart, hstop'.trans hstop⟩
      · exact .inr ⟨r, hstays r hr, hrkey, g, hg, hstart, hstop⟩
    · obtain rfl := ReassEvent.fragment.inj (List.mem_singleton.mp hp')
      exact hgathers.imp_right And.left
  · rw [hcs] at hmem
    rcases List.mem_append.mp hmem with hmem | hmem
    · exact h.delivered hdr chain hmem
    · have hnew : Delivered s (t.queueFragment p front ipr behind) hdr chain := by
        rw [Delivered, hcs, List.drop_left]
        exact hmem
      obtain ⟨hhdr, hdata⟩ := hright hdr chain hnew
      have hkey' : hdr.key = p.hdr.key := by rw [hhdr, σ.key_hdr]
      obtain ⟨hlt, hle⟩ := σ.piece_lt _ a b hp.piece
      refine ⟨hkey' ▸ hhdr, hkey' ▸ hdata.mpr hcalm.2, fun hnil => ?_⟩
      rw [hkey'] at hnil
      rw [hnil] at hle
      exact absurd hle (Nat.not_le_of_gt (Nat.zero_lt_of_lt hlt))

/-- When nothing is old, the timer only counts. -/
theorem ipReassTmrLoop_young {l : List ReassData} (h : ∀ r ∈ l, 0 < r.timer) (s : Reass) :
    ipReassTmrLoop l s = (l.map ReassData.age, s) := by
  induction l with
  | nil => rfl
  | cons r l ih =>
      obtain ⟨hr, hl⟩ := List.forall_mem_cons.mp h
      rw [ipReassTmrLoop, if_pos hr, ih hl]
      rfl

/-- A tick that drops nothing loses no piece. -/
theorem Sender.Progress.tmr (h : σ.Progress s seen) (hcalm : s.Calm .tmr) :
    σ.Progress s.ipReassTmr (seen ++ [.tmr]) := by
  have hrun : s.ipReassTmr = { s with reassdatagrams := s.reassdatagrams.map ReassData.age } := by
    rw [Reass.ipReassTmr, ipReassTmrLoop_young hcalm]
  refine ⟨h.honest.tmr, fun p hp => ?_, fun hdr chain hmem => ?_⟩
  · rcases List.mem_append.mp hp with hp | hp
    · rw [hrun]
      refine (h.arrived p hp).imp_right ?_
      rintro ⟨r, hr, hrest⟩
      exact ⟨r.age, List.mem_map_of_mem hr, hrest⟩
    · cases List.mem_singleton.mp hp
  · rw [hrun] at hmem
    exact h.delivered hdr chain hmem

/-- By induction over the run, with the books of the queues beside it. -/
theorem Sender.Progress.run {es : List ReassEvent} (h : σ.Progress s seen) (hinv : ReassInv s received)
    (hes : ∀ e ∈ es, σ.Sends e) (hcalm : RunMeets Reass.step Reass.Calm s es) :
    ∃ s' received', run Reass.step s es = some s' ∧ ReassInv s' received' ∧ σ.Progress s' (seen ++ es) := by
  induction es generalizing s seen received with
  | nil => exact ⟨s, received, rfl, hinv, (List.append_nil seen).symm ▸ h⟩
  | cons e es ih =>
      have hstep : ∃ t, s.step e = some t ∧ σ.Progress t (seen ++ [e]) := by
        cases e with
        | fragment p =>
            obtain ⟨a, b, hp⟩ := hes (.fragment p) List.mem_cons_self
            exact h.fragment hinv hp hcalm.1
        | tmr => exact ⟨_, rfl, h.tmr hcalm.1⟩
      obtain ⟨t, ht, hprogress⟩ := hstep
      obtain ⟨s', received', hrun, hinv', hprogress'⟩ := ih hprogress (hinv.step.2 t ht)
        (fun e' he' => hes e' (List.mem_cons_of_mem e he')) (hcalm.2 t ht)
      rw [List.append_assoc] at hprogress'
      exact ⟨s', received', run_cons_eq_some.mpr ⟨t, ht, hrun⟩, hinv', hprogress'⟩

/-- There is one element for a datagram. -/
theorem ReassInv.eq_of_key {r' : ReassData} (h : ReassInv s received) (hr : r ∈ s.reassdatagrams)
    (hr' : r' ∈ s.reassdatagrams) (hkey : r.iphdr.key = r'.iphdr.key) : r' = r := by
  by_contra hne
  obtain ⟨front, behind, hsplit⟩ := List.append_of_mem hr
  have hothers := h.others hsplit ((matches_iff r.iphdr r'.iphdr).mpr hkey)
  refine Bool.false_ne_true ((hothers r' ?_).symm.trans ((matches_iff _ _).mpr rfl))
  rw [hsplit] at hr'
  rcases List.mem_append.mp hr' with hmem | hmem
  · exact List.mem_append_left behind hmem
  · exact List.mem_append_right front ((List.mem_cons.mp hmem).resolve_left hne)

/-- A datagram all of which has come has been delivered. -/
theorem Sender.Progress.complete (h : σ.Progress s seen) (hinv : ReassInv s received) (hdata : σ.data k ≠ [])
    (hcovers : ∀ i < (σ.data k).length, ∃ p, .fragment p ∈ seen ∧ p.hdr.key = k ∧ p.frag.lo ≤ i ∧ i < p.frag.hi) :
    ∃ chain, ReassCall.deliver (σ.hdr k) chain ∈ s.calls ∧ chain.flatten = σ.data k := by
  have hdone : s.HasDelivered k := by
    by_contra hnot
    -- the queue of the datagram has all of it
    have hgathered : ∀ i < (σ.data k).length,
        ∃ r ∈ s.reassdatagrams, r.iphdr.key = k ∧ ∃ g ∈ r.p, g.lo ≤ i ∧ i < g.hi := by
      intro i hi
      obtain ⟨p, hp, rfl, hlo, hhi⟩ := hcovers i hi
      obtain ⟨r, hr, hkey, g, hg, hstart, hstop⟩ := (h.arrived p hp).resolve_left hnot
      refine ⟨r, hr, hkey, g, hg, ?_, ?_⟩
      · rwa [Frag.lo, hstart]
      · rwa [Frag.hi, hstop]
    obtain ⟨r, hr, hkey, -⟩ := hgathered 0 (List.length_pos_of_ne_nil hdata)
    refine (h.honest r hr).2 fun i hi => ?_
    rw [hkey] at hi
    obtain ⟨r', hr', hkey', g, hg, hrange⟩ := hgathered i hi
    rw [← hinv.eq_of_key hr hr' (hkey.trans hkey'.symm)]
    exact ⟨g, hg, hrange⟩
  obtain ⟨hdr, chain, hmem, rfl⟩ := hdone
  have hright := h.delivered hdr chain hmem
  exact ⟨chain, hright.hdr_eq ▸ hmem, hright.text⟩

/-- **Fragments in any order.** A run in which there is room for each fragment, none goes behind a hole and none becomes
too old goes through. What it delivers was sent, and when all of a datagram has come, it has been delivered. -/
theorem Sender.any_order (σ : Sender) (es : List ReassEvent) (hes : ∀ e ∈ es, σ.Sends e)
    (hcalm : RunMeets Reass.step Reass.Calm Reass.init es) :
    ∃ s, run Reass.step Reass.init es = some s ∧
      (∀ hdr chain, ReassCall.deliver hdr chain ∈ s.calls → σ.IsRight hdr chain) ∧
      ∀ k, σ.data k ≠ [] →
        (∀ i < (σ.data k).length, ∃ p, .fragment p ∈ es ∧ p.hdr.key = k ∧ p.frag.lo ≤ i ∧ i < p.frag.hi) →
          ∃ chain, ReassCall.deliver (σ.hdr k) chain ∈ s.calls ∧ chain.flatten = σ.data k := by
  have hstart : σ.Progress Reass.init [] :=
    ⟨fun r hr => absurd hr List.not_mem_nil, fun p hp => absurd hp List.not_mem_nil,
      fun hdr chain hmem => absurd hmem List.not_mem_nil⟩
  obtain ⟨s, received, hrun, hinv, hprogress⟩ := hstart.run reassInv_init hes hcalm
  exact ⟨s, hrun, hprogress.delivered, fun k hdata hcovers => hprogress.complete hinv hdata hcovers⟩

end BareMetal.Ip
