import BareMetal.Ip.Reass

/-! # Making room for a fragment

The books of reassembly, `Books`: `ip_reass_pbufcount` is the number of pbufs in the queues, and every pbuf that has come is
in one queue, or has been freed or delivered once. The timer keeps them, and so does
`ip_reass_remove_oldest_datagram`, unless it frees an element that it does not unlink, because it takes the last element but
one for the one before the oldest. That happens exactly when the fragment's datagram has two others in front of
it, and those behind it are not enough to make room (`removeOldest_spec`). -/

namespace BareMetal.Ip

/-! ## Counting pbufs -/

/-- The pbufs of the fragments in the queue. -/
def ReassData.data (r : ReassData) : PbufData := r.p.flatMap Frag.chain

/-- The pbufs that a call gives away. -/
def ReassCall.data : ReassCall → PbufData
  | .pbufFree chain => chain
  | .icmpTimeExceeded _ _ => []
  | .deliver _ chain => chain

/-- The number of pbufs in the queues. -/
def pbufTotal (l : List ReassData) : ℕ := (l.map fun r => r.data.length).sum

/-- The book-keeping of a state whose list is `l`, after the pbufs `received` have come. -/
structure Books (s : Reass) (l : List ReassData) (received : PbufData) : Prop where
  pbufcount : s.pbufcount.toNat = pbufTotal l
  within : pbufTotal l ≤ ipReassMaxPbufs
  pool : s.pool + l.length = mempNumReassdata
  /-- No two elements are for the same datagram. -/
  distinct : l.Pairwise fun r r' => r.iphdr.matches r'.iphdr = false
  /-- The older datagrams are further behind. -/
  aged : l.Pairwise fun r r' => r'.timer ≤ r.timer
  young : ∀ r ∈ l, r.timer ≤ ipReassMaxage
  sorted : ∀ r ∈ l, r.p.Pairwise fun q q' => q.start < q'.start
  /-- Every pbuf is in one place. -/
  conserved : ∀ x, received.count x = (s.calls.flatMap ReassCall.data).count x + (l.flatMap ReassData.data).count x

/-- The book-keeping between two calls: there is a fragment in every queue. -/
structure ReassInv (s : Reass) (received : PbufData) : Prop extends Books s s.reassdatagrams received where
  nonempty : ∀ r ∈ s.reassdatagrams, r.p ≠ []

variable {s s' : Reass} {received : PbufData} {r ipr : ReassData} {l front behind : List ReassData} {p : Packet}
  {fraghdr : IpHdr} {chain : PbufData} {needed freed fuel : ℕ}

/-- The length of a short chain fits 8 bits. -/
theorem toNat_pbufClen (h : chain.length < 256) : (pbufClen chain).toNat = chain.length := by
  rw [pbufClen, UInt8.toNat_ofNat', Nat.mod_eq_of_lt h]

/-- And 16 bits. -/
theorem toNat_pbufClen_toUInt16 (h : chain.length < 256) : (pbufClen chain).toUInt16.toNat = chain.length := by
  rw [UInt8.toNat_toUInt16, toNat_pbufClen h]

/-- The sum of the lengths does not overflow. -/
theorem toNat_sum_pbufClen {q : List Frag} (h : (q.flatMap Frag.chain).length < 256) :
    (q.map fun f => (pbufClen f.chain).toUInt16).sum.toNat = (q.flatMap Frag.chain).length := by
  induction q with
  | nil => rfl
  | cons f q ih =>
      rw [List.flatMap_cons, List.length_append] at h ⊢
      rw [List.map_cons, List.sum_cons, UInt16.toNat_add, ih (by omega), toNat_pbufClen_toUInt16 (by omega),
        Nat.mod_eq_of_lt (by omega)]

/-- The pbufs of a datagram, counted in 16 bits. -/
theorem toNat_pbufs (h : r.data.length < 256) : r.pbufs.toNat = r.data.length := toNat_sum_pbufClen h

/-- The pbufs of two lists. -/
theorem pbufTotal_append (l l' : List ReassData) : pbufTotal (l ++ l') = pbufTotal l + pbufTotal l' := by
  simp [pbufTotal]

/-- The first datagram and the others. -/
theorem pbufTotal_cons (r : ReassData) (l : List ReassData) : pbufTotal (r :: l) = r.data.length + pbufTotal l := by
  simp [pbufTotal]

/-- The last datagram and the others. -/
theorem pbufTotal_concat (l : List ReassData) (x : ReassData) : pbufTotal (l ++ [x]) = pbufTotal l + x.data.length := by
  simp [pbufTotal]

/-- All pbufs of a datagram are freed, the first fragment's with them. -/
theorem data_freeCalls (r : ReassData) : r.freeCalls.flatMap ReassCall.data = r.data := by
  unfold ReassData.freeCalls ReassData.data
  cases r.p with
  | nil => rfl
  | cons q rest =>
      have hfree : ∀ l : List Frag, (l.map fun q => ReassCall.pbufFree q.chain).flatMap ReassCall.data =
          l.flatMap Frag.chain := fun l => by
        rw [List.flatMap_map]
        rfl
      dsimp only
      rw [List.flatMap_append, hfree]
      split <;> rfl

/-- A datagram goes off the list, and its pbufs are given away. -/
theorem Books.remove (h : Books s (front ++ r :: behind) received) {n : UInt16} {cs : List ReassCall}
    (hn : n.toNat = r.data.length) (hcs : cs.flatMap ReassCall.data = r.data) (hcount : s'.pbufcount = s.pbufcount - n)
    (hpool : s'.pool = s.pool + 1) (hcalls : s'.calls = s.calls ++ cs) : Books s' (front ++ behind) received := by
  have hsub : (front ++ behind).Sublist (front ++ r :: behind) :=
    List.Sublist.append_left (List.sublist_cons_self r behind) front
  have htotal : pbufTotal (front ++ r :: behind) = pbufTotal (front ++ behind) + r.data.length := by
    rw [pbufTotal_append, pbufTotal_cons, pbufTotal_append]
    omega
  have hwithin : pbufTotal (front ++ r :: behind) ≤ 10 := h.within
  have hcount' := h.pbufcount
  have hpool' := h.pool
  rw [List.length_append, List.length_cons] at hpool'
  refine ⟨?_, ?_, ?_, h.distinct.sublist hsub, h.aged.sublist hsub, fun r' hr' => h.young r' (hsub.subset hr'),
    fun r' hr' => h.sorted r' (hsub.subset hr'), fun x => ?_⟩
  · rw [hcount, UInt16.toNat_sub_of_le _ _ (UInt16.le_iff_toNat_le.mpr (by omega))]
    omega
  · show pbufTotal (front ++ behind) ≤ 10
    omega
  · rw [hpool, List.length_append]
    omega
  · have hcons := h.conserved x
    rw [hcalls]
    simp only [List.flatMap_append, List.flatMap_cons, List.count_append, hcs] at hcons ⊢
    omega

/-- A datagram has fewer than 256 pbufs. -/
theorem Books.data_lt (h : Books s l received) (hr : r ∈ l) : r.data.length < 256 := by
  obtain ⟨front, behind, rfl⟩ := List.append_of_mem hr
  have hwithin : pbufTotal (front ++ r :: behind) ≤ 10 := h.within
  rw [pbufTotal_append, pbufTotal_cons] at hwithin
  omega

/-- A datagram is given up. -/
theorem Books.giveUp (h : Books s (front ++ r :: behind) received) :
    Books (s.freeCompleteDatagram r) (front ++ behind) received :=
  h.remove (toNat_pbufs (h.data_lt (List.mem_append_right front List.mem_cons_self))) (data_freeCalls r) rfl rfl rfl

/-- The books after a datagram was given up. -/
theorem ReassInv.giveUp (h : ReassInv s received) (hsplit : s.reassdatagrams = front ++ r :: behind) :
    ReassInv ({ s with reassdatagrams := front ++ behind }.freeCompleteDatagram r) received := by
  have hbooks : Books s (front ++ r :: behind) received := hsplit ▸ h.toBooks
  have hgive := hbooks.giveUp
  refine ⟨⟨hgive.pbufcount, hgive.within, hgive.pool, hgive.distinct, hgive.aged, hgive.young, hgive.sorted,
    hgive.conserved⟩, fun r' hr' => h.nonempty r' ?_⟩
  rw [hsplit]
  exact (List.Sublist.append_left (List.sublist_cons_self r behind) front).subset hr'

/-! ## The timer -/

/-- A second passes. -/
def ReassData.age (r : ReassData) : ReassData := { r with timer := r.timer - 1 }

/-- The loop of `ip_reass_tmr` gives the datagrams up whose time is over. -/
theorem tmrLoop_spec (h : Books s (front ++ l) received) :
    Books (ipReassTmrLoop l s).2 (front ++ l.filter (0 < ·.timer)) received ∧
      (ipReassTmrLoop l s).1 = (l.filter (0 < ·.timer)).map ReassData.age := by
  induction l generalizing front s with
  | nil => exact ⟨h, rfl⟩
  | cons r l ih =>
      rw [ipReassTmrLoop]
      by_cases htimer : 0 < r.timer
      · rw [if_pos htimer, List.filter_cons_of_pos (by simpa using htimer), List.map_cons]
        have h' : Books s ((front ++ [r]) ++ l) received := by
          rw [List.append_assoc, List.singleton_append]
          exact h
        obtain ⟨hbooks, hkept⟩ := ih h'
        rw [List.append_assoc, List.singleton_append] at hbooks
        exact ⟨hbooks, congrArg (r.age :: ·) hkept⟩
      · rw [if_neg htimer, List.filter_cons_of_neg (by simpa using htimer)]
        exact ih h.giveUp

/-- A timer that has not run out is counted down. -/
theorem toNat_age {r : ReassData} (h : 0 < r.timer) : r.age.timer.toNat = r.timer.toNat - 1 :=
  UInt8.toNat_sub_of_le _ _ (UInt8.le_iff_toNat_le.mpr (UInt8.lt_iff_toNat_lt.mp h))

/-- Only the timers change. -/
theorem Books.age (h : Books s l received) (hpos : ∀ r ∈ l, 0 < r.timer) : Books s (l.map ReassData.age) received where
  pbufcount := by
    rw [h.pbufcount, pbufTotal, pbufTotal, List.map_map]
    rfl
  within := by
    rw [pbufTotal, List.map_map]
    exact h.within
  pool := by rw [List.length_map, h.pool]
  distinct := by
    rw [List.pairwise_map]
    exact h.distinct
  aged := by
    rw [List.pairwise_map]
    refine h.aged.imp_of_mem fun hr hr' hle => ?_
    have hle' := UInt8.le_iff_toNat_le.mp hle
    rw [UInt8.le_iff_toNat_le, toNat_age (hpos _ hr), toNat_age (hpos _ hr')]
    omega
  young r hr := by
    obtain ⟨r₀, hr₀, rfl⟩ := List.mem_map.mp hr
    have hle := UInt8.le_iff_toNat_le.mp (h.young r₀ hr₀)
    rw [UInt8.le_iff_toNat_le, toNat_age (hpos r₀ hr₀)]
    omega
  sorted r hr := by
    obtain ⟨r₀, hr₀, rfl⟩ := List.mem_map.mp hr
    exact h.sorted r₀ hr₀
  conserved x := by
    rw [h.conserved x, List.flatMap_map]
    rfl

/-- **A tick of the timer.** -/
theorem ReassInv.tmr (h : ReassInv s received) : ReassInv s.ipReassTmr received := by
  obtain ⟨hbooks, hkept⟩ := tmrLoop_spec (List.nil_append s.reassdatagrams ▸ h.toBooks)
  have hpos : ∀ r ∈ s.reassdatagrams.filter (0 < ·.timer), 0 < r.timer := fun r hr => by
    simpa using (List.mem_filter.mp hr).2
  have haged := hbooks.age hpos
  rw [List.nil_append, ← hkept] at haged
  refine ⟨⟨haged.pbufcount, haged.within, haged.pool, haged.distinct, haged.aged, haged.young, haged.sorted,
    haged.conserved⟩, fun r hr => ?_⟩
  have hmem : r ∈ (ipReassTmrLoop s.reassdatagrams s).1 := hr
  rw [hkept] at hmem
  obtain ⟨r₀, hr₀, rfl⟩ := List.mem_map.mp hmem
  exact h.nonempty r₀ (List.mem_filter.mp hr₀).1

/-! ## Making room -/

/-- What the fragments of a datagram have in common. -/
def IpHdr.key (h : IpHdr) : UInt32 × UInt32 × UInt16 := (h.src, h.dest, h.id)

/-- Headers match when they have the same key. -/
theorem matches_iff (a b : IpHdr) : a.matches b = true ↔ a.key = b.key := by
  simp [IpHdr.matches, IpHdr.key, and_assoc]

/-- Two headers that match a third match each other. -/
theorem matches_of_matches {a b c : IpHdr} (ha : a.matches c = true) (hb : b.matches c = true) : a.matches b = true :=
  (matches_iff a b).mpr (((matches_iff a c).mp ha).trans ((matches_iff b c).mp hb).symm)

/-- The other datagrams do not match the fragment. -/
theorem Books.others (h : Books s l received) (hsplit : l = front ++ r :: behind) (hr : r.iphdr.matches fraghdr = true) :
    ∀ r' ∈ front ++ behind, r'.iphdr.matches fraghdr = false := by
  intro r' hr'
  have hdistinct := h.distinct
  rw [hsplit] at hdistinct
  obtain ⟨-, hbehind, hfront⟩ := List.pairwise_append.mp hdistinct
  by_contra hmatch
  rw [Bool.not_eq_false] at hmatch
  rcases List.mem_append.mp hr' with hr' | hr'
  · exact Bool.false_ne_true ((hfront r' hr' r List.mem_cons_self).symm.trans (matches_of_matches hmatch hr))
  · exact Bool.false_ne_true (((List.pairwise_cons.mp hbehind).1 r' hr').symm.trans (matches_of_matches hr hmatch))

/-- The search, from the end of the list. -/
theorem oldestOther_concat (fraghdr : IpHdr) (l : List ReassData) (x : ReassData) (i : ℕ) (oldest : Option (ℕ × ReassData)) :
    oldestOther fraghdr (l ++ [x]) i oldest =
      if x.iphdr.matches fraghdr then oldestOther fraghdr l i oldest
      else some (keepOlder (i + l.length) x (oldestOther fraghdr l i oldest)) := by
  induction l generalizing i oldest with
  | nil => rfl
  | cons r l ih =>
      rw [List.cons_append, oldestOther, oldestOther, ih, ih, List.length_cons, Nat.add_right_comm i 1, Nat.add_assoc]
      split
      · rfl
      · rfl

/-- What is found is in the list. -/
theorem mem_of_oldestOther {oldest : Option (ℕ × ReassData)} {i j : ℕ} {o : ReassData}
    (h : oldestOther fraghdr l i oldest = some (j, o)) : oldest = some (j, o) ∨ o ∈ l := by
  induction l generalizing i oldest with
  | nil => exact .inl h
  | cons r l ih =>
      rw [oldestOther] at h
      split at h
      · exact (ih h).imp_right (List.mem_cons_of_mem r)
      · rcases ih h with heq | hmem
        · unfold keepOlder at heq
          split at heq
          · obtain ⟨-, rfl⟩ := Prod.mk.inj (Option.some.inj heq)
            exact .inr List.mem_cons_self
          · split at heq
            · obtain ⟨-, rfl⟩ := Prod.mk.inj (Option.some.inj heq)
              exact .inr List.mem_cons_self
            · exact .inl heq
        · exact .inr (List.mem_cons_of_mem r hmem)

/-- The list is in the order of age, so that the last of the other datagrams is the oldest. -/
theorem oldestOther_last {x : ReassData} (haged : (l ++ [x]).Pairwise fun r r' => r'.timer ≤ r.timer)
    (hx : x.iphdr.matches fraghdr = false) : oldestOther fraghdr (l ++ [x]) 0 none = some (l.length, x) := by
  rw [oldestOther_concat, if_neg (by rw [hx]; decide), Nat.zero_add]
  cases hold : oldestOther fraghdr l 0 none with
  | none => rfl
  | some o =>
      obtain ⟨j, o⟩ := o
      have ho : o ∈ l := (mem_of_oldestOther hold).resolve_left (Option.some_ne_none _).symm
      exact congrArg some (if_pos ((List.pairwise_append.mp haged).2.2 o ho x List.mem_cons_self))

/-- What making room does: other datagrams are given up. -/
structure GaveUp (fraghdr : IpHdr) (s s' : Reass) : Prop where
  sub : s'.reassdatagrams.Sublist s.reassdatagrams
  kept : ∀ r ∈ s.reassdatagrams, r.iphdr.matches fraghdr = true → r ∈ s'.reassdatagrams
  calls : ∃ cs, s'.calls = s.calls ++ cs ∧ ∀ hdr chain, ReassCall.deliver hdr chain ∉ cs

/-- Nothing was given up. -/
theorem GaveUp.refl (fraghdr : IpHdr) (s : Reass) : GaveUp fraghdr s s where
  sub := List.Sublist.refl _
  kept _ hr _ := hr
  calls := ⟨[], (List.append_nil _).symm, fun _ _ => List.not_mem_nil⟩

/-- First some, then others. -/
theorem GaveUp.trans {s₁ s₂ s₃ : Reass} (h₁ : GaveUp fraghdr s₁ s₂) (h₂ : GaveUp fraghdr s₂ s₃) :
    GaveUp fraghdr s₁ s₃ := by
  obtain ⟨cs₁, hcs₁, hno₁⟩ := h₁.calls
  obtain ⟨cs₂, hcs₂, hno₂⟩ := h₂.calls
  refine ⟨h₂.sub.trans h₁.sub, fun r hr hm => h₂.kept r (h₁.kept r hr hm) hm, cs₁ ++ cs₂, ?_, fun hdr chain hmem => ?_⟩
  · rw [hcs₂, hcs₁, List.append_assoc]
  · exact (List.mem_append.mp hmem).elim (hno₁ hdr chain) (hno₂ hdr chain)

/-- Giving up a datagram does not deliver it. -/
theorem not_deliver_freeCalls (r : ReassData) (hdr : IpHdr) (chain : PbufData) :
    ReassCall.deliver hdr chain ∉ r.freeCalls := by
  unfold ReassData.freeCalls
  cases r.p with
  | nil => exact List.not_mem_nil
  | cons q rest =>
      simp only [List.mem_append, List.mem_map]
      rintro (hmem | ⟨q', -, heq⟩)
      · split at hmem <;> simp at hmem
      · cases heq

/-- One other datagram is given up. -/
theorem gaveUp_giveUp (hsplit : s.reassdatagrams = front ++ r :: behind) (hr : r.iphdr.matches fraghdr = false) :
    GaveUp fraghdr s ({ s with reassdatagrams := front ++ behind }.freeCompleteDatagram r) where
  sub := by
    rw [hsplit]
    exact List.Sublist.append_left (List.sublist_cons_self r behind) front
  kept r' hr' hm := by
    rw [hsplit, List.mem_append, List.mem_cons] at hr'
    rcases hr' with hr' | rfl | hr'
    · exact List.mem_append_left behind hr'
    · exact absurd (hr.symm.trans hm) Bool.false_ne_true
    · exact List.mem_append_right front hr'
  calls := ⟨r.freeCalls, rfl, not_deliver_freeCalls r⟩

/-- The fragment's datagram has two others in front of it, and the ones behind it do not give `needed` pbufs. -/
def Stuck (fraghdr : IpHdr) (needed : ℕ) (l : List ReassData) : Prop :=
  ∃ front r behind, l = front ++ r :: behind ∧ r.iphdr.matches fraghdr = true ∧ 2 ≤ front.length ∧
    pbufTotal behind < needed

/-- The last datagram is another one: it is given up first. -/
theorem stuck_concat {x : ReassData} (hx : x.iphdr.matches fraghdr = false) (l : List ReassData) (needed : ℕ) :
    Stuck fraghdr needed (l ++ [x]) ↔ Stuck fraghdr (needed - x.data.length) l := by
  constructor
  · rintro ⟨front, r, behind, heq, hr, hlen, htotal⟩
    rcases List.eq_nil_or_concat' behind with rfl | ⟨behind, y, rfl⟩
    · obtain ⟨-, hxr⟩ := List.append_inj' heq rfl
      obtain rfl := List.head_eq_of_cons_eq hxr
      exact absurd (hx.symm.trans hr) Bool.false_ne_true
    · rw [← List.cons_append, ← List.append_assoc] at heq
      obtain ⟨hl, hxy⟩ := List.append_inj' heq rfl
      obtain rfl := List.head_eq_of_cons_eq hxy
      rw [pbufTotal_concat] at htotal
      exact ⟨front, r, behind, hl, hr, hlen, by omega⟩
  · rintro ⟨front, r, behind, rfl, hr, hlen, htotal⟩
    refine ⟨front, r, behind ++ [x], by rw [List.append_assoc, List.cons_append], hr, hlen, ?_⟩
    rw [pbufTotal_concat]
    omega

/-- The fragment's datagram is the last one. -/
theorem stuck_last {x : ReassData} (h : Books s (l ++ [x]) received) (hx : x.iphdr.matches fraghdr = true) (needed : ℕ) :
    Stuck fraghdr needed (l ++ [x]) ↔ 2 ≤ l.length ∧ 0 < needed := by
  constructor
  · rintro ⟨front, r, behind, heq, hr, hlen, htotal⟩
    rcases List.eq_nil_or_concat' behind with rfl | ⟨behind, y, rfl⟩
    · obtain ⟨rfl, -⟩ := List.append_inj' heq rfl
      exact ⟨hlen, Nat.zero_lt_of_lt htotal⟩
    · have hothers := h.others heq hr
      rw [← List.cons_append, ← List.append_assoc] at heq
      obtain ⟨-, hxy⟩ := List.append_inj' heq rfl
      obtain rfl := List.head_eq_of_cons_eq hxy
      exact absurd ((hothers x (by simp)).symm.trans hx) Bool.false_ne_true
  · rintro ⟨hlen, hneeded⟩
    exact ⟨l, x, [], rfl, hx, hlen, hneeded⟩

/-- In front of a datagram that matches, there are only others. -/
theorem Stuck.others_lt (h : Books s l received) (hstuck : Stuck fraghdr needed l) : 1 < otherDatagrams fraghdr l := by
  obtain ⟨front, r, behind, hsplit, hr, hlen, -⟩ := hstuck
  have hfront : front.countP (fun r => !r.iphdr.matches fraghdr) = front.length := by
    refine List.countP_eq_length.mpr fun r' hr' => ?_
    rw [h.others hsplit hr r' (List.mem_append_left behind hr')]
    rfl
  rw [otherDatagrams, hsplit, List.countP_append, hfront]
  omega

/-- On an empty list there is nothing to give up. -/
theorem removeOldest_nil (h : s.reassdatagrams = []) (fraghdr : IpHdr) (needed fuel freed : ℕ) :
    s.removeOldestDatagram fraghdr needed (fuel + 1) freed = some (freed, s) := by
  rw [Reass.removeOldestDatagram, h]
  rfl

/-- The last datagram is another one: it is the oldest, `prev` is the one before it, and it is given up. -/
theorem removeOldest_last {x : ReassData} (h : ReassInv s received) (hsplit : s.reassdatagrams = l ++ [x])
    (hx : x.iphdr.matches fraghdr = false) (needed fuel freed : ℕ) :
    s.removeOldestDatagram fraghdr needed (fuel + 1) freed =
      if freed + x.data.length < needed ∧ 1 < otherDatagrams fraghdr s.reassdatagrams then
        ({ s with reassdatagrams := l }.freeCompleteDatagram x).removeOldestDatagram fraghdr needed fuel
          (freed + x.data.length)
      else some (freed + x.data.length, { s with reassdatagrams := l }.freeCompleteDatagram x) := by
  have hold : oldestOther fraghdr s.reassdatagrams 0 none = some (l.length, x) := by
    rw [hsplit]
    exact oldestOther_last (hsplit ▸ h.aged) hx
  have hlast : l.length + 1 = s.reassdatagrams.length := by rw [hsplit, List.length_append]; rfl
  have herase : s.reassdatagrams.eraseIdx l.length = l := by
    rw [hsplit, List.eraseIdx_append_of_length_le (Nat.le_refl _), Nat.sub_self]
    exact List.append_nil l
  have hdata : x.data.length < 256 := h.data_lt (hsplit ▸ List.mem_append_right l List.mem_cons_self)
  simp only [Reass.removeOldestDatagram, hold, hlast, or_true, if_true, herase, toNat_pbufs hdata]

/-- The fragment's datagram is the only one. -/
theorem removeOldest_alone {x : ReassData} (hsplit : s.reassdatagrams = [x]) (hx : x.iphdr.matches fraghdr = true)
    (needed fuel freed : ℕ) : s.removeOldestDatagram fraghdr needed (fuel + 1) freed = some (freed, s) := by
  rw [Reass.removeOldestDatagram, hsplit, oldestOther, if_pos hx]
  rfl

/-- The fragment's datagram is the last one: the oldest of the others is in front of it. -/
theorem oldestOther_before {x y : ReassData} (haged : (front ++ [y] ++ [x]).Pairwise fun r r' => r'.timer ≤ r.timer)
    (hx : x.iphdr.matches fraghdr = true) (hy : y.iphdr.matches fraghdr = false) :
    oldestOther fraghdr (front ++ [y] ++ [x]) 0 none = some (front.length, y) := by
  rw [oldestOther_concat, if_pos hx]
  exact oldestOther_last (List.pairwise_append.mp haged).1 hy

/-- One datagram in front of the fragment's, the first of the list: it is given up, and no other is left. -/
theorem removeOldest_first {x y : ReassData} (h : ReassInv s received) (hsplit : s.reassdatagrams = [y, x])
    (hx : x.iphdr.matches fraghdr = true) (hy : y.iphdr.matches fraghdr = false) (needed fuel freed : ℕ) :
    s.removeOldestDatagram fraghdr needed (fuel + 1) freed =
      some (freed + y.data.length, { s with reassdatagrams := [x] }.freeCompleteDatagram y) := by
  have haged := h.aged
  have hold : oldestOther fraghdr s.reassdatagrams 0 none = some (0, y) := by
    rw [hsplit] at haged ⊢
    exact @oldestOther_before [] _ _ _ haged hx hy
  have hone : otherDatagrams fraghdr s.reassdatagrams = 1 := by
    rw [hsplit]
    simp [otherDatagrams, hx, hy]
  have herase : s.reassdatagrams.eraseIdx 0 = [x] := by rw [hsplit]; rfl
  have hdata : y.data.length < 256 := h.data_lt (hsplit ▸ List.mem_cons_self)
  simp only [Reass.removeOldestDatagram, hold, true_or, if_true, herase, hone, toNat_pbufs hdata, Nat.lt_irrefl,
    and_false, if_false]

/-- More datagrams in front of the fragment's: `prev` is the oldest of them itself, which stays on the list. -/
theorem removeOldest_stuck {x y z : ReassData} (h : ReassInv s received)
    (hsplit : s.reassdatagrams = z :: front ++ [y] ++ [x]) (hx : x.iphdr.matches fraghdr = true)
    (hy : y.iphdr.matches fraghdr = false) (needed fuel freed : ℕ) :
    s.removeOldestDatagram fraghdr needed (fuel + 1) freed = none := by
  have hold : oldestOther fraghdr s.reassdatagrams 0 none = some ((z :: front).length, y) := by
    rw [hsplit]
    exact oldestOther_before (hsplit ▸ h.aged) hx hy
  have hlen : s.reassdatagrams.length = (z :: front).length + 1 + 1 := by
    rw [hsplit, List.length_append, List.length_append]
    rfl
  have hcond : ¬((z :: front).length = 0 ∨ (z :: front).length + 1 = s.reassdatagrams.length) := by
    rw [hlen]
    simp
  rw [Reass.removeOldestDatagram, hold]
  exact if_neg hcond

/-- What the loop says when it stops at `s'` without getting stuck. -/
theorem stopped {res : Option (ℕ × Reass)} {n : ℕ} {stuck : Prop} (hrun : res = some (n, s')) (hnot : ¬stuck)
    (hinv : ReassInv s' received) (hgave : GaveUp fraghdr s s') :
    (res = none ↔ stuck) ∧ ∀ f t, res = some (f, t) → ReassInv t received ∧ GaveUp fraghdr s t := by
  refine ⟨iff_of_false ?_ hnot, fun f t ht => ?_⟩
  · rw [hrun]
    exact Option.some_ne_none _
  · obtain ⟨-, rfl⟩ := Prod.mk.inj (Option.some.inj (hrun.symm.trans ht))
    exact ⟨hinv, hgave⟩

/-- The fragment's datagram is the last one: at most one round. -/
theorem removeOldest_behind {x : ReassData} (h : ReassInv s received) (hsplit : s.reassdatagrams = l ++ [x])
    (hx : x.iphdr.matches fraghdr = true) (fuel : ℕ) (hfreed : freed < needed) :
    (s.removeOldestDatagram fraghdr needed (fuel + 1) freed = none ↔ Stuck fraghdr (needed - freed) (l ++ [x])) ∧
      ∀ f s', s.removeOldestDatagram fraghdr needed (fuel + 1) freed = some (f, s') →
        ReassInv s' received ∧ GaveUp fraghdr s s' := by
  have hbooks : Books s (l ++ [x]) received := hsplit ▸ h.toBooks
  rw [stuck_last hbooks hx]
  rcases List.eq_nil_or_concat' l with rfl | ⟨front, y, rfl⟩
  · exact stopped (removeOldest_alone hsplit hx needed fuel freed) (fun hlen => absurd hlen.1 (by decide)) h
      (GaveUp.refl fraghdr s)
  have hy : y.iphdr.matches fraghdr = false := hbooks.others rfl hx y (by simp)
  cases front with
  | nil =>
      have hfirst : s.reassdatagrams = [] ++ y :: [x] := hsplit
      exact stopped (removeOldest_first h hsplit hx hy needed fuel freed) (fun hlen => absurd hlen.1 (by simp))
        (h.giveUp hfirst) (gaveUp_giveUp hfirst hy)
  | cons z front =>
      have hrun := removeOldest_stuck h hsplit hx hy needed fuel freed
      refine ⟨iff_of_true hrun ⟨?_, by omega⟩, fun f s' hs' => ?_⟩
      · rw [List.length_append, List.length_cons]
        exact Nat.succ_le_succ (Nat.succ_le_succ (Nat.zero_le _))
      · exact absurd (hrun.symm.trans hs') (Option.some_ne_none _).symm

/-- **Making room.** It fails exactly when it gets stuck; otherwise other datagrams are given up. -/
theorem removeOldest_spec (fraghdr : IpHdr) (h : ReassInv s received) (hfuel : s.reassdatagrams.length < fuel) (hfreed : freed < needed) :
    (s.removeOldestDatagram fraghdr needed fuel freed = none ↔ Stuck fraghdr (needed - freed) s.reassdatagrams) ∧
      ∀ f s', s.removeOldestDatagram fraghdr needed fuel freed = some (f, s') →
        ReassInv s' received ∧ GaveUp fraghdr s s' := by
  induction fuel generalizing s freed with
  | zero => exact absurd hfuel (Nat.not_lt_zero _)
  | succ fuel ih =>
      rcases List.eq_nil_or_concat' s.reassdatagrams with hnil | ⟨l, x, hsplit⟩
      · refine stopped (removeOldest_nil hnil fraghdr needed fuel freed) ?_ h (GaveUp.refl fraghdr s)
        rintro ⟨front, r, behind, heq, -⟩
        exact absurd (hnil.symm.trans heq).symm (by simp)
      cases hx : x.iphdr.matches fraghdr with
      | true =>
          rw [hsplit]
          exact removeOldest_behind h hsplit hx fuel hfreed
      | false =>
          have hgive := h.giveUp hsplit
          have hgave := gaveUp_giveUp hsplit hx
          rw [List.append_nil] at hgive hgave
          have hstuck := stuck_concat hx l (needed - freed)
          rw [← hsplit, Nat.sub_sub] at hstuck
          have hrun := removeOldest_last h hsplit hx needed fuel freed
          by_cases hmore : freed + x.data.length < needed ∧ 1 < otherDatagrams fraghdr s.reassdatagrams
          · -- there is another one to give up
            have hlen : l.length < fuel := by
              rw [hsplit, List.length_append] at hfuel
              exact Nat.lt_of_succ_lt_succ hfuel
            rw [hrun, if_pos hmore, hstuck]
            obtain ⟨hiff, hsome⟩ := ih hgive hlen hmore.1
            refine ⟨hiff, fun f s' hs' => ?_⟩
            obtain ⟨hinv, hgave'⟩ := hsome f s' hs'
            exact ⟨hinv, hgave.trans hgave'⟩
          · refine stopped (hrun.trans (if_neg hmore)) (fun hs => hmore ⟨?_, hs.others_lt h.toBooks⟩) hgive hgave
            obtain ⟨front, r, behind, -, -, -, hlt⟩ := hstuck.mp hs
            omega

end BareMetal.Ip
