import BareMetal.Lib.Run
import BareMetal.Ip.ReassQueue
import BareMetal.Ip.ReassRoom

/-! # Runs of reassembly

Over all runs of `ip_reass` and `ip_reass_tmr`: `ip_reass_pbufcount` is the number of pbufs in the queues and stays within
`IP_REASS_MAX_PBUFS`, no element of the pool is lost, and every pbuf that has come is in one queue, or has been freed or
delivered once (`reass_books`). A run ends only where making room spoils the list of datagrams. -/

namespace BareMetal.Ip

variable {s s' : Reass} {received : PbufData} {r ipr : ReassData} {l front behind : List ReassData} {p : Packet}
  {fraghdr : IpHdr} {needed : ℕ}

/-! ## Queueing -/

/-- No element is for the fragment's datagram. -/
theorem findDatagram_none (h : findDatagram fraghdr l = none) : ∀ r ∈ l, r.iphdr.matches fraghdr = false := by
  induction l with
  | nil => exact fun r hr => absurd hr List.not_mem_nil
  | cons r l ih =>
      rw [findDatagram] at h
      by_cases hr : r.iphdr.matches fraghdr = true
      · rw [if_pos hr] at h
        cases h
      · rw [if_neg hr, Option.map_eq_none_iff] at h
        exact List.forall_mem_cons.mpr ⟨Bool.eq_false_iff.mpr hr, ih h⟩

/-- The list is cut at the element that is found. -/
theorem findDatagram_some (h : findDatagram fraghdr l = some (front, r, behind)) :
    l = front ++ r :: behind ∧ r.iphdr.matches fraghdr = true := by
  induction l generalizing front with
  | nil => cases h
  | cons x l ih =>
      rw [findDatagram] at h
      by_cases hx : x.iphdr.matches fraghdr = true
      · rw [if_pos hx] at h
        obtain ⟨rfl, hrest⟩ := Prod.mk.inj (Option.some.inj h)
        obtain ⟨rfl, rfl⟩ := Prod.mk.inj hrest
        exact ⟨rfl, hx⟩
      · rw [if_neg hx] at h
        obtain ⟨⟨front', r', behind'⟩, hfind, heq⟩ := Option.map_eq_some_iff.mp h
        obtain ⟨rfl, hrest⟩ := Prod.mk.inj heq
        obtain ⟨rfl, rfl⟩ := Prod.mk.inj hrest
        obtain ⟨rfl, hr⟩ := ih hfind
        exact ⟨rfl, hr⟩

/-- The header that is kept has nothing to do with the queue. -/
@[simp] theorem p_note (r : ReassData) (fraghdr : IpHdr) : (r.note fraghdr).p = r.p := by
  unfold ReassData.note
  dsimp only
  split <;> split <;> rfl

/-- Nor with the age. -/
@[simp] theorem timer_note (r : ReassData) (fraghdr : IpHdr) : (r.note fraghdr).timer = r.timer := by
  unfold ReassData.note
  dsimp only
  split <;> split <;> rfl

/-- The pbufs of an element do not depend on its header. -/
theorem data_note (r : ReassData) (fraghdr : IpHdr) : (r.note fraghdr).data = r.data :=
  congrArg (List.flatMap Frag.chain) (p_note r fraghdr)

/-- The header that is kept is for the same datagram. -/
theorem key_note (h : r.iphdr.matches fraghdr = true) : (r.note fraghdr).iphdr.key = r.iphdr.key := by
  have hkey := (matches_iff _ _).mp h
  unfold ReassData.note
  dsimp only
  split <;> split <;> simp [hkey]

/-- The comparison reads nothing but source, destination and identification. -/
theorem matches_congr {a a' : IpHdr} (h : a.key = a'.key) (b : IpHdr) : a.matches b = a'.matches b := by
  rw [Bool.eq_iff_iff, matches_iff, matches_iff, h]

/-- Headers match each other. -/
theorem matches_comm (a b : IpHdr) : a.matches b = b.matches a := by
  rw [Bool.eq_iff_iff, matches_iff, matches_iff, eq_comm]

/-- An element is replaced by one of the same datagram. -/
theorem Books.replace (h : Books s (front ++ r :: behind) received) {r' : ReassData} {received' : PbufData}
    (hkey : r'.iphdr.key = r.iphdr.key) (htimer : r'.timer = r.timer)
    (hsorted : r'.p.Pairwise fun q q' => q.start < q'.start)
    (hcount : s'.pbufcount.toNat = pbufTotal (front ++ r' :: behind))
    (hwithin : pbufTotal (front ++ r' :: behind) ≤ ipReassMaxPbufs) (hpool : s'.pool = s.pool)
    (hcons : ∀ x, received'.count x =
      (s'.calls.flatMap ReassCall.data).count x + ((front ++ r' :: behind).flatMap ReassData.data).count x) :
    Books s' (front ++ r' :: behind) received' where
  pbufcount := hcount
  within := hwithin
  pool := by
    have hlen := h.pool
    rw [List.length_append, List.length_cons] at hlen ⊢
    rw [hpool, hlen]
  distinct := by
    -- the key is the same, so that what differed from `r` differs from `r'`
    obtain ⟨hfront, hrest, hcross⟩ := List.pairwise_append.mp h.distinct
    obtain ⟨hr, hbehind⟩ := List.pairwise_cons.mp hrest
    refine List.pairwise_append.mpr ⟨hfront, List.pairwise_cons.mpr ⟨fun x hx => ?_, hbehind⟩, fun x hx y hy => ?_⟩
    · rw [matches_congr hkey]
      exact hr x hx
    · rcases List.mem_cons.mp hy with rfl | hy
      · rw [matches_comm, matches_congr hkey, matches_comm]
        exact hcross x hx r List.mem_cons_self
      · exact hcross x hx y (List.mem_cons_of_mem r hy)
  aged := by
    obtain ⟨hfront, hrest, hcross⟩ := List.pairwise_append.mp h.aged
    obtain ⟨hr, hbehind⟩ := List.pairwise_cons.mp hrest
    refine List.pairwise_append.mpr ⟨hfront, List.pairwise_cons.mpr ⟨fun x hx => ?_, hbehind⟩, fun x hx y hy => ?_⟩
    · rw [htimer]
      exact hr x hx
    · rcases List.mem_cons.mp hy with rfl | hy
      · rw [htimer]
        exact hcross x hx r List.mem_cons_self
      · exact hcross x hx y (List.mem_cons_of_mem r hy)
  -- its timer has not changed either
  young x hx := by
    rcases List.mem_append.mp hx with hx | hx
    · exact h.young x (List.mem_append_left _ hx)
    · rcases List.mem_cons.mp hx with rfl | hx
      · rw [htimer]
        exact h.young r (List.mem_append_right front List.mem_cons_self)
      · exact h.young x (List.mem_append_right front (List.mem_cons_of_mem r hx))
  sorted x hx := by
    rcases List.mem_append.mp hx with hx | hx
    · exact h.sorted x (List.mem_append_left _ hx)
    · rcases List.mem_cons.mp hx with rfl | hx
      · exact hsorted
      · exact h.sorted x (List.mem_append_right front (List.mem_cons_of_mem r hx))
  conserved := hcons

/-- The fragment overlaps another one: it is freed. -/
theorem queueFragment_free (hchain : chainFrag p.frag none true ipr.p = none) :
    s.queueFragment p front ipr behind =
      { s with
        reassdatagrams := front ++ ipr.note p.hdr :: behind
        calls := s.calls ++ [.pbufFree p.chain] } := by
  simp only [Reass.queueFragment, p_note, hchain, UInt16.add_sub_cancel]

variable {before after : List Frag} {valid : Bool}

/-- The fragment is queued, and the datagram is not complete. -/
theorem queueFragment_keep (hchain : chainFrag p.frag none true ipr.p = some (before, after, valid))
    (hvalid : validDatagram (ipr.note p.hdr).lastfrag valid p.frag before after = false) :
    s.queueFragment p front ipr behind =
      { s with
        reassdatagrams := front ++ { ipr.note p.hdr with p := before ++ p.frag :: after } :: behind
        pbufcount := s.pbufcount + (pbufClen p.chain).toUInt16 } := by
  simp only [Reass.queueFragment, p_note, hchain, hvalid, Bool.false_eq_true, if_false]

/-- The fragment completes the datagram, which leaves the list. -/
theorem queueFragment_deliver (hchain : chainFrag p.frag none true ipr.p = some (before, after, valid))
    (hvalid : validDatagram (ipr.note p.hdr).lastfrag valid p.frag before after = true) :
    s.queueFragment p front ipr behind =
      { s with
        reassdatagrams := front ++ behind
        pbufcount := s.pbufcount + (pbufClen p.chain).toUInt16 -
          (pbufClen ((before ++ p.frag :: after).flatMap Frag.chain)).toUInt16
        pool := s.pool + 1
        calls := s.calls ++
          [.deliver (ipr.note p.hdr).header ((before ++ p.frag :: after).flatMap Frag.chain)] } := by
  simp only [Reass.queueFragment, p_note, hchain, hvalid, if_true]

/-- The queue stays in the order of the offsets. -/
theorem sorted_insert {q : List Frag} (hsorted : q.Pairwise fun f f' => f.start < f'.start)
    (hchain : chainFrag p.frag none true q = some (before, after, valid)) :
    (before ++ p.frag :: after).Pairwise fun f f' => f.start < f'.start := by
  obtain ⟨rfl, hbefore, hafter, -⟩ := chainFrag_spec hchain
  obtain ⟨hb, ha, hcross⟩ := List.pairwise_append.mp hsorted
  have hafter' : ∀ f ∈ after, p.frag.start < f.start := by
    intro f hf
    cases after with
    | nil => exact absurd hf List.not_mem_nil
    | cons g after =>
        have hg := hafter g rfl
        rcases List.mem_cons.mp hf with rfl | hf
        · exact hg
        · exact UInt16.lt_trans hg ((List.pairwise_cons.mp ha).1 f hf)
  refine List.pairwise_append.mpr ⟨hb, List.pairwise_cons.mpr ⟨hafter', ha⟩, fun f hf g hg => ?_⟩
  rcases List.mem_cons.mp hg with rfl | hg
  · exact hbefore f hf
  · exact hcross f hf g hg

/-- **A fragment comes to its datagram.** It is freed, or queued, or completes the datagram, which is delivered. -/
theorem Books.queueFragment (h : Books s (front ++ ipr :: behind) received)
    (hroom : pbufTotal (front ++ ipr :: behind) + p.chain.length ≤ ipReassMaxPbufs)
    (hmatch : ipr.iphdr.matches p.hdr = true) (hothers : ∀ r ∈ front ++ behind, r.p ≠ []) :
    ReassInv (s.queueFragment p front ipr behind) (received ++ p.chain) := by
  have hwithin : pbufTotal (front ++ ipr :: behind) + p.chain.length ≤ 10 := hroom
  have hclen := toNat_pbufClen_toUInt16 p.clen_lt
  have hcount := h.pbufcount
  have hsorted := h.sorted ipr (List.mem_append_right front List.mem_cons_self)
  have hkey := key_note hmatch
  cases hchain : chainFrag p.frag none true ipr.p with
  | none =>
      -- the fragment is freed, and the queue stays as it is
      have hne : ipr.p ≠ [] := by
        intro hnil
        rw [hnil] at hchain
        cases hchain
      rw [queueFragment_free hchain]
      have htotal : pbufTotal (front ++ ipr.note p.hdr :: behind) = pbufTotal (front ++ ipr :: behind) := by
        rw [pbufTotal_append, pbufTotal_cons, data_note, pbufTotal_append, pbufTotal_cons]
      refine ⟨h.replace hkey (timer_note _ _) (by rw [p_note]; exact hsorted) (by rw [htotal]; exact hcount)
        (by rw [htotal]; exact h.within) rfl fun x => ?_, fun r hr => ?_⟩
      · have hcons := h.conserved x
        simp only [List.flatMap_append, List.flatMap_cons, List.flatMap_nil, List.count_append, data_note,
          ReassCall.data, List.append_nil] at hcons ⊢
        omega
      · rcases List.mem_append.mp hr with hr | hr
        · exact hothers r (List.mem_append_left behind hr)
        · rcases List.mem_cons.mp hr with rfl | hr
          · rw [p_note]
            exact hne
          · exact hothers r (List.mem_append_right front hr)
  | some r =>
      obtain ⟨before, after, valid⟩ := r
      -- the fragment is put into the queue
      obtain ⟨hsplit, -⟩ := chainFrag_spec hchain
      let ipr' : ReassData := { ipr.note p.hdr with p := before ++ p.frag :: after }
      have hlen : ipr'.data.length = ipr.data.length + p.chain.length := by
        simp only [ipr', ReassData.data, hsplit, List.flatMap_append, List.flatMap_cons, List.length_append, Packet.frag]
        omega
      have hdata : ∀ x, ipr'.data.count x = ipr.data.count x + p.chain.count x := fun x => by
        simp only [ipr', ReassData.data, hsplit, List.flatMap_append, List.flatMap_cons, List.count_append, Packet.frag]
        omega
      have htotal : pbufTotal (front ++ ipr' :: behind) = pbufTotal (front ++ ipr :: behind) + p.chain.length := by
        rw [pbufTotal_append, pbufTotal_cons, hlen, pbufTotal_append, pbufTotal_cons]
        omega
      have hadd : (s.pbufcount + (pbufClen p.chain).toUInt16).toNat = pbufTotal (front ++ ipr' :: behind) := by
        rw [UInt16.toNat_add, hclen, hcount, htotal, Nat.mod_eq_of_lt (by omega)]
      have hbooks : Books
          { s with
            reassdatagrams := front ++ ipr' :: behind
            pbufcount := s.pbufcount + (pbufClen p.chain).toUInt16 }
          (front ++ ipr' :: behind) (received ++ p.chain) := by
        refine h.replace hkey (timer_note _ _) (sorted_insert hsorted hchain) hadd (by rw [htotal]; exact hroom) rfl ?_
        intro x
        have hcons := h.conserved x
        simp only [List.flatMap_append, List.flatMap_cons, List.count_append, hdata] at hcons ⊢
        omega
      cases hvalid : validDatagram (ipr.note p.hdr).lastfrag valid p.frag before after with
      | false =>
          rw [queueFragment_keep hchain hvalid]
          refine ⟨hbooks, fun r hr => ?_⟩
          rcases List.mem_append.mp hr with hr | hr
          · exact hothers r (List.mem_append_left behind hr)
          · rcases List.mem_cons.mp hr with rfl | hr
            · exact List.append_ne_nil_of_right_ne_nil before (List.cons_ne_nil _ _)
            · exact hothers r (List.mem_append_right front hr)
      | true =>
          -- the whole queue is delivered, and its element goes back to the pool
          rw [queueFragment_deliver hchain hvalid]
          have hcs : [ReassCall.deliver (ipr.note p.hdr).header ipr'.data].flatMap ReassCall.data = ipr'.data :=
            List.append_nil ipr'.data
          have hlt := hbooks.data_lt (List.mem_append_right front List.mem_cons_self)
          exact ⟨hbooks.remove (toNat_pbufClen_toUInt16 hlt) hcs rfl rfl rfl, fun r hr => hothers r hr⟩

/-! ## A fragment arrives -/

/-- The element for a new datagram. -/
def newDatagram (fraghdr : IpHdr) : ReassData := ⟨[], fraghdr, 0, false, ipReassMaxage⟩

/-- What `ip_reass` does, from `s` to `s'`. -/
inductive Arrives (s : Reass) (p : Packet) (received : PbufData) : Reass → Prop
  /-- The fragment is freed. -/
  | dropped {t : Reass} (inv : ReassInv t received) (gaveUp : GaveUp p.hdr s t) : Arrives s p received (t.nullreturn p)
  /-- The fragment comes to its datagram `ipr`, which was there or is a new one. -/
  | queued {t : Reass} {front behind : List ReassData} {ipr : ReassData}
      (books : Books t (front ++ ipr :: behind) received) (others : ∀ r ∈ front ++ behind, r.p ≠ [])
      (room : pbufTotal (front ++ ipr :: behind) + p.chain.length ≤ ipReassMaxPbufs)
      (hmatch : ipr.iphdr.matches p.hdr = true) (gaveUp : GaveUp p.hdr s t)
      (sub : front ++ behind ⊆ s.reassdatagrams)
      (origin : ipr ∈ s.reassdatagrams ∨
        ipr = newDatagram p.hdr ∧ ∀ r ∈ s.reassdatagrams, r.iphdr.matches p.hdr = false) :
      Arrives s p received (t.queueFragment p front ipr behind)

/-- Unless the list is spoiled, there is room for the fragment. -/
def Reass.RoomFor (s : Reass) (p : Packet) : Prop :=
  p.hdr.vHl &&& 0x0f = 5 → s.overfull p = true → ¬Stuck p.hdr p.chain.length s.reassdatagrams

/-- The test of `ip_reass` for room, without the arithmetic of its types. -/
theorem overfull_iff (h : ReassInv s received) :
    s.overfull p = true ↔ ipReassMaxPbufs < pbufTotal s.reassdatagrams + p.chain.length := by
  rw [Reass.overfull, decide_eq_true_iff, h.pbufcount, toNat_pbufClen p.clen_lt]

/-- A fragment has a pbuf. -/
theorem clen_pos (p : Packet) : 0 < p.chain.length := List.length_pos_of_ne_nil p.chain_ne

/-- The first part of `ip_reass`. -/
theorem makeRoom_spec (h : ReassInv s received) (p : Packet) :
    (s.makeRoom p = none ↔ s.overfull p = true ∧ Stuck p.hdr p.chain.length s.reassdatagrams) ∧
      ∀ f t, s.makeRoom p = some (f, t) → ReassInv t received ∧ GaveUp p.hdr s t := by
  obtain ⟨hiff, hsome⟩ := removeOldest_spec p.hdr h (Nat.lt_succ_self _) (clen_pos p)
  rw [Reass.makeRoom, toNat_pbufClen p.clen_lt]
  cases hfull : s.overfull p with
  | true =>
      rw [if_pos rfl]
      refine ⟨?_, hsome⟩
      rw [hiff, Nat.sub_zero]
      exact (and_iff_right rfl).symm
  | false =>
      rw [if_neg Bool.false_ne_true]
      refine ⟨iff_of_false (Option.some_ne_none _) fun h => Bool.false_ne_true h.1, fun f t ht => ?_⟩
      obtain ⟨-, rfl⟩ := Prod.mk.inj (Option.some.inj ht)
      exact ⟨h, GaveUp.refl p.hdr s⟩

/-- Without an element for the fragment's datagram nothing can be in the way. -/
theorem not_stuck_of_others (hothers : ∀ r ∈ l, r.iphdr.matches fraghdr = false) : ¬Stuck fraghdr needed l := by
  rintro ⟨front, r, behind, rfl, hr, -⟩
  exact absurd ((hothers r (List.mem_append_right front List.mem_cons_self)).symm.trans hr) Bool.false_ne_true

/-- A new datagram comes in front of the others. -/
theorem ReassInv.enqueue (h : ReassInv s received) (hpool : 0 < s.pool)
    (hothers : ∀ r ∈ s.reassdatagrams, r.iphdr.matches fraghdr = false) :
    Books { s with pool := s.pool - 1 } (newDatagram fraghdr :: s.reassdatagrams) received where
  pbufcount := by
    rw [pbufTotal_cons]
    exact h.pbufcount.trans (Nat.zero_add _).symm
  within := by
    rw [pbufTotal_cons]
    exact (Nat.zero_add _).le.trans h.within
  pool := by
    have hlen := h.pool
    show s.pool - 1 + (s.reassdatagrams.length + 1) = mempNumReassdata
    omega
  distinct := List.pairwise_cons.mpr ⟨fun r hr => by rw [matches_comm]; exact hothers r hr, h.distinct⟩
  aged := List.pairwise_cons.mpr ⟨h.young, h.aged⟩
  young := List.forall_mem_cons.mpr ⟨UInt8.le_refl _, h.young⟩
  sorted := List.forall_mem_cons.mpr ⟨List.Pairwise.nil, h.sorted⟩
  conserved x := by
    have hcons := h.conserved x
    rw [List.flatMap_cons]
    exact hcons

/-- A list with fewer elements has no more pbufs. -/
theorem pbufTotal_le (h : List.Sublist l front) : pbufTotal l ≤ pbufTotal front := by
  induction h with
  | slnil => exact Nat.le_refl _
  | cons r _ ih =>
      rw [pbufTotal_cons]
      omega
  | cons_cons r _ ih =>
      rw [pbufTotal_cons, pbufTotal_cons]
      omega

/-- The second part of `ip_reass`: it goes through. -/
theorem acceptFragment_spec {t : Reass} (h : ReassInv t received) (hgave : GaveUp p.hdr s t)
    (hfull : t.overfull p = false) : ∃ s', t.acceptFragment p = some s' ∧ Arrives s p received s' := by
  have hroom : pbufTotal t.reassdatagrams + p.chain.length ≤ ipReassMaxPbufs := by
    have hnot := (overfull_iff h (p := p)).not.mp (by rw [hfull]; decide)
    omega
  unfold Reass.acceptFragment
  cases hfind : findDatagram p.hdr t.reassdatagrams with
  | some r =>
      obtain ⟨front, ipr, behind⟩ := r
      obtain ⟨hsplit, hmatch⟩ := findDatagram_some hfind
      have hsub : front ++ behind ⊆ t.reassdatagrams := by
        rw [hsplit]
        exact (List.Sublist.append_left (List.sublist_cons_self ipr behind) front).subset
      have hmem : ipr ∈ t.reassdatagrams := by
        rw [hsplit]
        exact List.mem_append_right front List.mem_cons_self
      exact ⟨_, rfl, .queued (hsplit ▸ h.toBooks) (fun r hr => h.nonempty r (hsub hr)) (hsplit ▸ hroom) hmatch hgave
        (fun r hr => hgave.sub.subset (hsub hr)) (.inl (hgave.sub.subset hmem))⟩
  | none =>
      have hothers := findDatagram_none hfind
      have horigin : ∀ r ∈ s.reassdatagrams, r.iphdr.matches p.hdr = false := by
        intro r hr
        by_contra hmatch
        rw [Bool.not_eq_false] at hmatch
        exact Bool.false_ne_true ((hothers r (hgave.kept r hr hmatch)).symm.trans hmatch)
      -- once there is a free element, the fragment is queued in it
      have hqueued : ∀ u, ReassInv u received → GaveUp p.hdr t u → 0 < u.pool →
          Arrives s p received
            (Reass.queueFragment { u with pool := u.pool - 1 } p [] (newDatagram p.hdr) u.reassdatagrams) := by
        intro u hu hgave' hpool
        have hgave'' := hgave.trans hgave'
        refine .queued (hu.enqueue hpool fun r hr => hothers r (hgave'.sub.subset hr)) hu.nonempty ?_
          ((matches_iff _ _).mpr rfl) ⟨hgave''.sub, hgave''.kept, hgave''.calls⟩ hgave''.sub.subset
          (.inr ⟨rfl, horigin⟩)
        have hle := pbufTotal_le hgave'.sub
        rw [List.nil_append, pbufTotal_cons]
        show 0 + pbufTotal u.reassdatagrams + p.chain.length ≤ ipReassMaxPbufs
        omega
      unfold Reass.enqueueNewDatagram
      rw [toNat_pbufClen p.clen_lt]
      dsimp only
      by_cases hpool : 0 < t.pool
      · rw [if_pos hpool]
        exact ⟨_, rfl, hqueued t h (GaveUp.refl p.hdr t) hpool⟩
      rw [if_neg hpool]
      obtain ⟨hiff, hsome⟩ := removeOldest_spec p.hdr h (Nat.lt_succ_self _) (clen_pos p)
      cases hremove : t.removeOldestDatagram p.hdr p.chain.length (t.reassdatagrams.length + 1) 0 with
      | none => exact absurd (hiff.mp hremove) (not_stuck_of_others hothers)
      | some r =>
          obtain ⟨freed, u⟩ := r
          obtain ⟨hu, hgave'⟩ := hsome freed u hremove
          simp only [Option.map_some]
          split
          · rename_i heq
            split at heq
            · cases heq
            · obtain ⟨-, rfl⟩ := Prod.mk.inj heq
              exact ⟨_, rfl, .dropped hu (hgave.trans hgave')⟩
          · rename_i heq
            split at heq
            · rename_i hfits
              obtain ⟨rfl, rfl⟩ := Prod.mk.inj heq |>.imp_left Option.some.inj
              exact ⟨_, rfl, hqueued u hu hgave' hfits.2⟩
            · cases heq

/-- **`ip_reass`.** It goes through unless the list is spoiled. -/
theorem ipReass_spec (h : ReassInv s received) (p : Packet) :
    (s.ipReass p = none ↔ ¬s.RoomFor p) ∧ ∀ s', s.ipReass p = some s' → Arrives s p received s' := by
  unfold Reass.ipReass Reass.RoomFor
  by_cases hhl : p.hdr.vHl &&& 0x0f = 5
  · rw [if_neg (not_not.mpr hhl)]
    obtain ⟨hiff, hsome⟩ := makeRoom_spec h p
    cases hmake : s.makeRoom p with
    -- making room gets stuck
    | none =>
        refine ⟨?_, fun s' hs' => absurd hs' (Option.some_ne_none s').symm⟩
        obtain ⟨hfull, hstuck⟩ := hiff.mp hmake
        exact iff_of_true rfl fun hroom => hroom hhl hfull hstuck
    | some r =>
        obtain ⟨freed, t⟩ := r
        obtain ⟨ht, hgave⟩ := hsome freed t hmake
        have hnot : ¬(s.overfull p = true ∧ Stuck p.hdr p.chain.length s.reassdatagrams) := fun hs =>
          Option.some_ne_none _ (hmake.symm.trans (hiff.mpr hs))
        have hroom : ∀ o : Option Reass, o ≠ none → (o = none ↔ ¬(p.hdr.vHl &&& 0x0f = 5 →
            s.overfull p = true → ¬Stuck p.hdr p.chain.length s.reassdatagrams)) := fun o ho =>
          iff_of_false ho fun hn => hn fun _ hfull hstuck => hnot ⟨hfull, hstuck⟩
        simp only [Option.bind_some]
        -- there is no room in the end, and the fragment is freed
        by_cases hdrop : freed = 0 ∨ t.overfull p = true
        · rw [if_pos hdrop]
          refine ⟨hroom _ (Option.some_ne_none _), fun s' hs' => ?_⟩
          obtain rfl := Option.some.inj hs'
          exact .dropped ht hgave
        · rw [if_neg hdrop]
          obtain ⟨u, hu, harrives⟩ := acceptFragment_spec ht hgave (Bool.eq_false_iff.mpr fun hf => hdrop (.inr hf))
          rw [hu]
          refine ⟨hroom _ (Option.some_ne_none _), fun s' hs' => ?_⟩
          obtain rfl := Option.some.inj hs'
          exact harrives
  · -- a header with options
    rw [if_pos hhl]
    refine ⟨iff_of_false (Option.some_ne_none _) fun hroom => hroom fun h5 => absurd h5 hhl, fun s' hs' => ?_⟩
    obtain rfl := Option.some.inj hs'
    exact .dropped h (GaveUp.refl p.hdr s)

/-- The books are right behind a fragment. -/
theorem Arrives.inv (h : Arrives s p received s') : ReassInv s' (received ++ p.chain) := by
  cases h with
  | dropped inv gaveUp =>
      refine ⟨⟨inv.pbufcount, inv.within, inv.pool, inv.distinct, inv.aged, inv.young, inv.sorted, fun x => ?_⟩,
        inv.nonempty⟩
      have hcons := inv.conserved x
      simp only [Reass.nullreturn, List.flatMap_append, List.flatMap_cons, List.flatMap_nil, List.append_nil,
        List.count_append, ReassCall.data] at hcons ⊢
      omega
  | queued books others room hmatch gaveUp sub origin => exact books.queueFragment room hmatch others

/-! ## Runs -/

/-- A fragment comes, or a second passes. -/
inductive ReassEvent
  | fragment (p : Packet)
  | tmr

/-- The pbufs that come. -/
def ReassEvent.data : ReassEvent → PbufData
  | .fragment p => p.chain
  | .tmr => []

def Reass.step (s : Reass) : ReassEvent → Option Reass
  | .fragment p => s.ipReass p
  | .tmr => some s.ipReassTmr

/-- What a run needs. -/
def Reass.Enabled (s : Reass) : ReassEvent → Prop
  | .fragment p => s.RoomFor p
  | .tmr => True

/-- At the start there is no element and no pbuf. -/
theorem reassInv_init : ReassInv Reass.init [] where
  pbufcount := rfl
  within := Nat.zero_le _
  pool := rfl
  distinct := List.Pairwise.nil
  aged := List.Pairwise.nil
  young _ hr := absurd hr List.not_mem_nil
  sorted _ hr := absurd hr List.not_mem_nil
  conserved _ := rfl
  nonempty _ hr := absurd hr List.not_mem_nil

/-- One event keeps the books. -/
theorem ReassInv.step {e : ReassEvent} (h : ReassInv s received) :
    (s.step e = none ↔ ¬s.Enabled e) ∧ ∀ s', s.step e = some s' → ReassInv s' (received ++ e.data) := by
  cases e with
  | fragment p =>
      obtain ⟨hiff, hsome⟩ := ipReass_spec h p
      exact ⟨hiff, fun s' hs' => (hsome s' hs').inv⟩
  | tmr =>
      refine ⟨iff_of_false (Option.some_ne_none _) (not_not.mpr trivial), fun s' hs' => ?_⟩
      obtain rfl := Option.some.inj hs'
      rw [ReassEvent.data, List.append_nil]
      exact h.tmr

/-- **The books over a run.** It goes through exactly when no call gets stuck, and the books are right at its end. -/
theorem ReassInv.run (h : ReassInv s received) (es : List ReassEvent) :
    (run Reass.step s es = none ↔ ¬RunMeets Reass.step Reass.Enabled s es) ∧
      ∀ s', run Reass.step s es = some s' → ReassInv s' (received ++ es.flatMap ReassEvent.data) := by
  induction es generalizing s received with
  | nil =>
      refine ⟨iff_of_false (Option.some_ne_none _) (not_not.mpr trivial), fun s' hs' => ?_⟩
      obtain rfl := Option.some.inj hs'
      rw [List.flatMap_nil, List.append_nil]
      exact h
  | cons e es ih =>
      obtain ⟨hiff, hsome⟩ := h.step (e := e)
      rw [run_cons, List.flatMap_cons, ← List.append_assoc]
      cases hstep : s.step e with
      | none =>
          refine ⟨iff_of_true rfl fun hm => hiff.mp hstep hm.1, fun s' hs' => absurd hs' (Option.some_ne_none s').symm⟩
      | some t =>
          obtain ⟨hiff', hsome'⟩ := ih (hsome t hstep)
          have henabled : s.Enabled e := not_not.mp (hiff.not.mp (by rw [hstep]; exact Option.some_ne_none t))
          refine ⟨?_, hsome'⟩
          rw [Option.bind_some, hiff']
          refine not_congr ⟨fun hm => ⟨henabled, fun t' ht' => ?_⟩, fun hm => hm.2 t hstep⟩
          obtain rfl := Option.some.inj (hstep.symm.trans ht')
          exact hm

/-- **The books of reassembly.** A run goes through to its end exactly when no step spoils the list, and the books are
right there. -/
theorem reass_books (es : List ReassEvent) :
    ((run Reass.step Reass.init es).isSome ↔ RunMeets Reass.step Reass.Enabled Reass.init es) ∧
      ∀ s, run Reass.step Reass.init es = some s → ReassInv s (es.flatMap ReassEvent.data) := by
  obtain ⟨hiff, hsome⟩ := reassInv_init.run es
  refine ⟨?_, hsome⟩
  rw [Option.isSome_iff_ne_none, Ne, hiff, not_not]

end BareMetal.Ip
