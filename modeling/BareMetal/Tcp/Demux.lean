import BareMetal.Tcp.Ownership
import BareMetal.Tcp.PcbLists

/-! # Demultiplexing

The lookups of `tcp_input`: the active connection of the segment, or else its connection in TIME_WAIT, or else a
listening block for it, or else the answer is a RST. A block that is found on the first and on the last of the three
lists is moved in front of its list. This changes the order of the lists only, and where no two blocks of a list are
for the same segment, the order does not matter (`tcpDemux_spec`). -/

namespace BareMetal.Tcp

/-- The addresses and the ports of a segment. -/
structure Addrs where
  src : UInt32
  dest : UInt32
  srcPort : UInt16
  destPort : UInt16
  deriving DecidableEq, Repr

/-- The segment belongs to the connection. -/
def Addrs.matches (addrs : Addrs) (pcb : Block) : Bool :=
  pcb.remotePort == addrs.srcPort && pcb.localPort == addrs.destPort && pcb.remoteIp == addrs.src &&
    pcb.localIp == addrs.dest

/-- The segment is for the listening block. -/
def Addrs.matchesListen (addrs : Addrs) (lpcb : Block) : Bool :=
  lpcb.localPort == addrs.destPort && (lpcb.localIp == addrs.dest || ipAddrIsany (some lpcb.localIp))

/-- The arguments of `tcp_rst`. -/
structure Rst where
  seqno : UInt32
  ackno : UInt32
  localIp : UInt32
  remoteIp : UInt32
  localPort : UInt16
  remotePort : UInt16
  deriving DecidableEq, Repr

/-- The answer to a segment that nobody expects. -/
def rstFor (addrs : Addrs) (i : InSeg) : Rst where
  seqno := i.ackno
  ackno := i.seqno + i.tcplen.toUInt32
  localIp := addrs.dest
  remoteIp := addrs.src
  localPort := addrs.destPort
  remotePort := addrs.srcPort

/-- What `tcp_input` does with a segment. -/
inductive Handed
  /-- `tcp_process(pcb)`. -/
  | active (pcb : ℕ)
  /-- `tcp_timewait_input(pcb)`. -/
  | timeWait (pcb : ℕ)
  /-- `tcp_listen_input(lpcb)`. -/
  | listen (lpcb : ℕ)
  | rst (r : Rst)
  | discarded
  deriving DecidableEq, Repr

/-- The loop over a list that keeps the block before the one it stands at. -/
def Store.lookup (fuel : ℕ) (s : Store) (l : ListName) (f : Block → Bool) : Option (ℕ × ℕ) :=
  findPrev 0 s.next (fun a => f (s.block a)) fuel 0 (s.head l)

/-- Move the block behind `prev` in front of its list, unless it is there. -/
def Store.toFront (s : Store) (l : ListName) (prev pcb : ℕ) : Store :=
  if prev ≠ 0 then ((s.setNext prev (s.next pcb)).setNext pcb (s.head l)).setHead l pcb else s

/-- `tcp_input` for a segment that passed its checks: whom it is handed to, with the lists behind the lookups. -/
def Store.tcpDemux (fuel : ℕ) (s : Store) (addrs : Addrs) (i : InSeg) : Option (Handed × Store) := do
  let (prev, pcb) ← s.lookup fuel .active addrs.matches
  if pcb ≠ 0 then some (.active pcb, s.toFront .active prev pcb)
  else
    match ← findNode 0 s.next (fun a => addrs.matches (s.block a)) fuel (s.head .timeWait) with
    | some pcb => some (.timeWait pcb, s)
    | none =>
        let (prev, lpcb) ← s.lookup fuel .listen addrs.matchesListen
        if lpcb ≠ 0 then some (.listen lpcb, s.toFront .listen prev lpcb)
        else if i.flags.rst then some (.discarded, s)
        else some (.rst (rstFor addrs i), s)

variable {s s' : Store} {nodes nodes' : ListName → List ℕ} {l : ListName} {a b prev fuel : ℕ} {addrs : Addrs}
  {i : InSeg} {f : Block → Bool}

/-! ## Lists that differ in their order -/

/-- The lists hold the blocks `nodes`, and no block is on two of them. -/
structure Lists (s : Store) (nodes : ListName → List ℕ) : Prop extends Linked s nodes where
  one_list : ∀ l l' a, a ∈ nodes l → a ∈ nodes l' → l = l'

/-- `s'` differs from `s` in the order of the lists, and only of the active and of the listening one. -/
structure Reordered (s s' : Store) (nodes nodes' : ListName → List ℕ) : Prop where
  relinked : Relinked s s'
  perm : ∀ l, (nodes' l).Perm (nodes l)
  bound : nodes' .bound = nodes .bound
  timeWait : nodes' .timeWait = nodes .timeWait

/-- No lookup. -/
theorem Reordered.refl (s : Store) (nodes : ListName → List ℕ) : Reordered s s nodes nodes :=
  ⟨Relinked.refl s, fun _ => .refl _, rfl, rfl⟩

/-- Some lookups and then others. -/
theorem Reordered.trans {s₁ s₂ s₃ : Store} {nodes₁ nodes₂ nodes₃ : ListName → List ℕ}
    (h₁ : Reordered s₁ s₂ nodes₁ nodes₂) (h₂ : Reordered s₂ s₃ nodes₂ nodes₃) : Reordered s₁ s₃ nodes₁ nodes₃ where
  relinked := h₁.relinked.trans h₂.relinked
  perm l := (h₂.perm l).trans (h₁.perm l)
  bound := h₂.bound.trans h₁.bound
  timeWait := h₂.timeWait.trans h₁.timeWait

/-- The tests of the lookups do not read the link. -/
theorem Relinked.matches_eq (h : Relinked s s') (addrs : Addrs) (a : ℕ) :
    addrs.matches (s'.block a) = addrs.matches (s.block a) := by
  rw [h.block_eq]
  rfl

/-- A listening block matches by its port and address, not by its links. -/
theorem Relinked.matchesListen_eq (h : Relinked s s') (addrs : Addrs) (a : ℕ) :
    addrs.matchesListen (s'.block a) = addrs.matchesListen (s.block a) := by
  rw [h.block_eq]
  rfl

/-- Moving a block to the front. -/
theorem Lists.toFront (h : Lists s nodes) {l₁ l₂ : List ℕ} (hl : nodes l = l₁ ++ a :: l₂) :
    ∃ nodes', Lists (s.toFront l (l₁.getLastD 0) a) nodes' ∧ Relinked s (s.toFront l (l₁.getLastD 0) a) ∧
      (∀ l', (nodes' l').Perm (nodes l')) ∧ ∀ l', l' ≠ l → nodes' l' = nodes l' := by
  rcases List.eq_nil_or_concat l₁ with rfl | ⟨l₀, p, rfl⟩
  · -- the block is in front
    exact ⟨nodes, h, Relinked.refl s, fun _ => .refl _, fun _ _ => rfl⟩
  · rw [List.concat_eq_append, List.append_assoc, List.singleton_append] at hl
    have hp : p ∈ nodes l := hl ▸ List.mem_append_right l₀ List.mem_cons_self
    have ha : a ∈ nodes l := hl ▸ List.mem_append_right l₀ (List.mem_cons_of_mem p List.mem_cons_self)
    have hp0 : p ≠ 0 := fun h0 => h.ne_null l (h0 ▸ hp)
    have hperm : (a :: (l₀ ++ p :: l₂)).Perm (nodes l) := by
      rw [hl, List.append_cons, List.append_cons l₀ p (a :: l₂)]
      exact List.perm_middle.symm
    have hmem : ∀ l' b, b ∈ Function.update nodes l (a :: (l₀ ++ p :: l₂)) l' ↔ b ∈ nodes l' := by
      intro l' b
      by_cases hl' : l' = l
      · subst hl'
        rw [Function.update_self, hperm.mem_iff]
      · rw [Function.update_of_ne hl']
    have hlast : (l₀.concat p).getLastD 0 = p := by simp
    rw [hlast, Store.toFront, if_pos hp0]
    refine ⟨Function.update nodes l (a :: (l₀ ++ p :: l₂)), ⟨⟨fun l' => ?_, fun l' h0 => ?_⟩, ?_⟩, ?_, fun l' => ?_, ?_⟩
    · rw [next_setHead, next_setNext, next_setNext, head_setHead, head_setNext, head_setNext]
      by_cases hl' : l' = l
      · subst hl'
        rw [Function.update_self, Function.update_self]
        exact Path.toFront (hl ▸ h.path l') (hl ▸ h.toLinked.nodup l')
      · rw [Function.update_of_ne hl', Function.update_of_ne hl']
        have hoff : ∀ b ∈ nodes l, b ∉ nodes l' := fun b hb hb' => hl' (h.one_list l' l b hb' hb)
        exact (path_update (hoff a ha)).mpr ((path_update (hoff p hp)).mpr (h.path l'))
    · exact h.ne_null l' ((hmem l' 0).mp h0)
    · exact fun l₁ l₂ b hb₁ hb₂ => h.one_list l₁ l₂ b ((hmem l₁ b).mp hb₁) ((hmem l₂ b).mp hb₂)
    · exact ((relinked_setNext s _ _).trans (relinked_setNext _ _ _)).trans (relinked_setHead _ _ _)
    · by_cases hl' : l' = l
      · subst hl'
        rw [Function.update_self]
        exact hperm
      · rw [Function.update_of_ne hl']
    · exact fun l' hl' => Function.update_of_ne hl' _ _

/-! ## The lookups -/

/-- The loop comes to the first block that satisfies `f`, which can then be moved to the front. -/
theorem Lists.lookup (h : Lists s nodes) (hfuel : ∀ l, (nodes l).length ≤ fuel) (l : ListName) (f : Block → Bool) :
    ((nodes l).find? (fun a => f (s.block a)) = none ∧ ∃ prev, s.lookup fuel l f = some (prev, 0)) ∨
      ∃ prev a nodes', a ≠ 0 ∧ (nodes l).find? (fun a => f (s.block a)) = some a ∧
        s.lookup fuel l f = some (prev, a) ∧ Lists (s.toFront l prev a) nodes' ∧
        Relinked s (s.toFront l prev a) ∧ (∀ l', (nodes' l').Perm (nodes l')) ∧
        ∀ l', l' ≠ l → nodes' l' = nodes l' := by
  refine (findPrev_eq (f := fun a => f (s.block a)) (h.path l) (h.ne_null l) (hfuel l) 0).imp_right ?_
  rintro ⟨l₁, a, l₂, hl, hfind, hrun⟩
  have ha0 : a ≠ 0 := fun h0 => h.ne_null l (h0 ▸ List.mem_of_find?_eq_some hfind)
  obtain ⟨nodes', h', hrel, hperm, hother⟩ := h.toFront hl
  exact ⟨l₁.getLastD 0, a, nodes', ha0, hfind, hrun, h', hrel, hperm, hother⟩

/-- Whom a segment is for, in terms of what the lists hold. -/
def Serves (s : Store) (nodes : ListName → List ℕ) (addrs : Addrs) (i : InSeg) : Handed → Prop
  | .active a => a ∈ nodes .active ∧ addrs.matches (s.block a) = true
  | .timeWait a =>
      (∀ b ∈ nodes .active, addrs.matches (s.block b) = false) ∧
        a ∈ nodes .timeWait ∧ addrs.matches (s.block a) = true
  | .listen a =>
      (∀ l, l = .active ∨ l = .timeWait → ∀ b ∈ nodes l, addrs.matches (s.block b) = false) ∧
        a ∈ nodes .listen ∧ addrs.matchesListen (s.block a) = true
  | .rst r =>
      (∀ l, l = .active ∨ l = .timeWait → ∀ b ∈ nodes l, addrs.matches (s.block b) = false) ∧
        (∀ b ∈ nodes .listen, addrs.matchesListen (s.block b) = false) ∧ i.flags.rst = false ∧ r = rstFor addrs i
  | .discarded =>
      (∀ l, l = .active ∨ l = .timeWait → ∀ b ∈ nodes l, addrs.matches (s.block b) = false) ∧
        (∀ b ∈ nodes .listen, addrs.matchesListen (s.block b) = false) ∧ i.flags.rst = true

/-- At most one connection of each list has the addresses and ports of a segment, and at most one listening block is for it. -/
structure OneForEach (s : Store) (nodes : ListName → List ℕ) : Prop where
  connection : ∀ l, l = .active ∨ l = .timeWait → ∀ addrs : Addrs, ∀ a ∈ nodes l, ∀ b ∈ nodes l,
    addrs.matches (s.block a) = true → addrs.matches (s.block b) = true → a = b
  listener : ∀ addrs : Addrs, ∀ a ∈ nodes .listen, ∀ b ∈ nodes .listen,
    addrs.matchesListen (s.block a) = true → addrs.matchesListen (s.block b) = true → a = b

/-- Nothing on the list passes the test. -/
theorem find?_none {l : List ℕ} {f : ℕ → Bool} (h : l.find? f = none) : ∀ b ∈ l, f b = false :=
  fun b hb => Bool.eq_false_iff.mpr (List.find?_eq_none.mp h b hb)

/-- `tcp_input` hands a segment to whom it is for, and leaves the lists in another order at most. -/
theorem Lists.tcpDemux (h : Lists s nodes) (hfuel : ∀ l, (nodes l).length ≤ fuel) (addrs : Addrs) (i : InSeg) :
    ∃ who s' nodes', s.tcpDemux fuel addrs i = some (who, s') ∧ Serves s nodes addrs i who ∧ Lists s' nodes' ∧
      Reordered s s' nodes nodes' := by
  unfold Store.tcpDemux
  rcases h.lookup hfuel .active addrs.matches with ⟨hactive, prev, hrun⟩ |
    ⟨prev, a, nodes', ha0, hactive, hrun, h', hrel, hperm, hother⟩
  · simp only [hrun, Option.bind_eq_bind, Option.bind_some, ne_eq, not_true_eq_false, if_false]
    rw [findNode_eq (h.path .timeWait) (h.ne_null .timeWait) (hfuel .timeWait), Option.bind_some]
    cases htw : (nodes .timeWait).find? fun a => addrs.matches (s.block a) with
    | some a =>
        refine ⟨.timeWait a, s, nodes, rfl, ⟨find?_none hactive, List.mem_of_find?_eq_some htw, ?_⟩, h,
          .refl s nodes⟩
        exact List.find?_some (p := fun a => addrs.matches (s.block a)) htw
    | none =>
        have hnone : ∀ l, l = .active ∨ l = .timeWait → ∀ b ∈ nodes l, addrs.matches (s.block b) = false := by
          rintro l (rfl | rfl)
          · exact find?_none hactive
          · exact find?_none htw
        dsimp only
        rcases h.lookup hfuel .listen addrs.matchesListen with ⟨hlisten, prev, hrun⟩ |
          ⟨prev, a, nodes', ha0, hlisten, hrun, h', hrel, hperm, hother⟩
        · simp only [hrun, Option.bind_some, not_true_eq_false, if_false]
          cases hrst : i.flags.rst with
          | true => exact ⟨.discarded, s, nodes, rfl, ⟨hnone, find?_none hlisten, hrst⟩, h, .refl s nodes⟩
          | false =>
              exact ⟨.rst (rstFor addrs i), s, nodes, rfl, ⟨hnone, find?_none hlisten, hrst, rfl⟩, h, .refl s nodes⟩
        · simp only [hrun, Option.bind_some, ha0, not_false_eq_true, if_true]
          refine ⟨.listen a, _, nodes', rfl, ⟨hnone, List.mem_of_find?_eq_some hlisten, ?_⟩, h', hrel, hperm,
            hother _ (by decide), hother _ (by decide)⟩
          exact List.find?_some (p := fun a => addrs.matchesListen (s.block a)) hlisten
  · simp only [hrun, Option.bind_eq_bind, Option.bind_some, ne_eq, ha0, not_false_eq_true, if_true]
    refine ⟨.active a, _, nodes', rfl, ⟨List.mem_of_find?_eq_some hactive, ?_⟩, h', hrel, hperm,
      hother _ (by decide), hother _ (by decide)⟩
    exact List.find?_some (p := fun a => addrs.matches (s.block a)) hactive

/-! ## The order does not matter -/

/-- Whom a segment is for is the same after reordering the lists. -/
theorem Reordered.serves (h : Reordered s s' nodes nodes') {who : Handed}
    (hwho : Serves s' nodes' addrs i who) : Serves s nodes addrs i who := by
  have hmem : ∀ l b, b ∈ nodes' l ↔ b ∈ nodes l := fun l b => (h.perm l).mem_iff
  cases who <;> simpa only [Serves, hmem, h.relinked.matches_eq, h.relinked.matchesListen_eq] using hwho

/-- Where at most one block is for each segment, the segment has one receiver. -/
theorem OneForEach.unique (hone : OneForEach s nodes) {who who' : Handed} (h : Serves s nodes addrs i who)
    (h' : Serves s nodes addrs i who') : who = who' := by
  have hconn := hone.connection
  have hlisten := hone.listener addrs
  cases who <;> cases who' <;> simp only [Serves] at h h' <;> grind

/-- The lookups for one segment. -/
def demuxStep (fuel : ℕ) (s : Store) (segment : Addrs × InSeg) : Option Store :=
  (s.tcpDemux fuel segment.1 segment.2).map Prod.snd

/-- The lookups for any segments only reorder the lists. -/
theorem Lists.run_demux (h : Lists s nodes) (hfuel : ∀ l, (nodes l).length ≤ fuel) (segments : List (Addrs × InSeg)) :
    ∃ s' nodes', run (demuxStep fuel) s segments = some s' ∧ Lists s' nodes' ∧ Reordered s s' nodes nodes' := by
  induction segments generalizing s nodes with
  | nil => exact ⟨s, nodes, rfl, h, .refl s nodes⟩
  | cons segment segments ih =>
      obtain ⟨who, t, nodesₜ, hrun, -, ht, hreord⟩ := h.tcpDemux hfuel segment.1 segment.2
      have hfuel' : ∀ l, (nodesₜ l).length ≤ fuel := fun l => (hreord.perm l).length_eq ▸ hfuel l
      obtain ⟨s', nodes', hrest, hs', hreord'⟩ := ih ht hfuel'
      refine ⟨s', nodes', run_cons_eq_some.mpr ⟨t, ?_, hrest⟩, hs', hreord.trans hreord'⟩
      rw [demuxStep, hrun, Option.map_some]

/-- **Demultiplexing.** After the lookups for any earlier segments, `tcp_input` hands a segment to the active
connection that has its addresses and ports, or else to the connection in TIME_WAIT, or else to a listening block for
it, or else it answers with a RST unless the segment is one. All these lookups have only reordered the active and the
listening list, and where at most one block is for each segment, the receiver is the same in any order of the lists. -/
theorem tcpDemux_spec (s : Store) (nodes : ListName → List ℕ) (fuel : ℕ) (earlier : List (Addrs × InSeg))
    (addrs : Addrs) (i : InSeg) (h : Lists s nodes) (hfuel : ∀ l, (nodes l).length ≤ fuel) :
    ∃ s' nodes' who t nodesₜ,
      run (demuxStep fuel) s earlier = some s' ∧ Lists s' nodes' ∧ Reordered s s' nodes nodes' ∧
      s'.tcpDemux fuel addrs i = some (who, t) ∧ Lists t nodesₜ ∧ Reordered s t nodes nodesₜ ∧
      Serves s nodes addrs i who ∧
      (OneForEach s nodes → ∀ u nodesᵤ, Lists u nodesᵤ → Reordered s u nodes nodesᵤ →
        ∃ u', u.tcpDemux fuel addrs i = some (who, u')) := by
  obtain ⟨s', nodes', hrun, hs', hreord⟩ := h.run_demux hfuel earlier
  have hfuel_of : ∀ u nodesᵤ, Reordered s u nodes nodesᵤ → ∀ l, (nodesᵤ l).length ≤ fuel :=
    fun u nodesᵤ hu l => (hu.perm l).length_eq ▸ hfuel l
  obtain ⟨who, t, nodesₜ, hdemux, hserves, ht, hreordₜ⟩ := hs'.tcpDemux (hfuel_of s' nodes' hreord) addrs i
  refine ⟨s', nodes', who, t, nodesₜ, hrun, hs', hreord, hdemux, ht, hreord.trans hreordₜ, hreord.serves hserves, ?_⟩
  intro hone u nodesᵤ hu hreordᵤ
  obtain ⟨who', u', -, hdemux', hserves', -⟩ := hu.tcpDemux (hfuel_of u nodesᵤ hreordᵤ) addrs i
  -- both receivers are for the segment in the one order that is given
  obtain rfl := hone.unique (hreord.serves hserves) (hreordᵤ.serves hserves')
  exact ⟨u', hdemux'⟩

/-- Two connections from port 1 and from port 2 of the host 7 to port 80 of the host 9, and a block that listens there. -/
def webServer : Store where
  block a :=
    { next := if a = 1 then 2 else 0, prio := 64, localIp := if a = 3 then 0 else 9, remoteIp := 7, localPort := 80
      remotePort := UInt16.ofNat a
      pcb := { tcpAlloc optDefaults 6510 0 0 with state := if a = 3 then .listen else .established }, app := {} }
  head
    | .active => 1
    | .listen => 3
    | _ => 0
  elems
    | .tcpPcb => [1, 2]
    | .tcpPcbListen => [3]
  free _ := []
  tcpPort := ⟨tcpLocalPortRangeStart, UInt16.le_refl _⟩
  tcpTicks := 0
  tcpTimerCtr := 0
  tcpInputPcb := 0
  tcpActivePcbsChanged := false
  iss := 6510

def webServerNodes : ListName → List ℕ
  | .active => [1, 2]
  | .listen => [3]
  | _ => []

/-- The lists of the example are lists. -/
theorem webServer_lists : Lists webServer webServerNodes where
  path l := by
    cases l
    case active => exact ⟨rfl, rfl, rfl⟩
    case listen => exact ⟨rfl, rfl⟩
    all_goals rfl
  ne_null l := by cases l <;> decide
  one_list l l' a ha ha' := by
    cases l <;> cases l' <;> simp only [webServerNodes, List.mem_cons, List.not_mem_nil, or_false] at ha ha' <;>
      first | rfl | omega

/-- A segment without data. -/
theorem emptySegment_fits : Chain.totLen [] + 40 < 2 ^ 16 := by decide

/-- A segment without data. -/
def emptySegment (flags : HdrFlags) : InSeg := ⟨0, 0, flags, 0, 5, [], [], emptySegment_fits⟩

/-- The example has at most one block for each segment. -/
theorem webServer_oneForEach : OneForEach webServer webServerNodes where
  connection l hl addrs a ha b hb hma hmb := by
    -- the segment says the remote port, which is the number of the block
    have hport : ∀ x ∈ webServerNodes l, addrs.matches (webServer.block x) = true → UInt16.ofNat x = addrs.srcPort := by
      intro x _ hx
      simp only [Addrs.matches, Bool.and_eq_true, beq_iff_eq] at hx
      exact hx.1.1.1
    have heq := (hport a ha hma).trans (hport b hb hmb).symm
    rcases hl with rfl | rfl <;> simp only [webServerNodes, List.mem_cons, List.not_mem_nil, or_false] at ha hb
    rcases ha with rfl | rfl <;> rcases hb with rfl | rfl <;> first | rfl | exact absurd heq (by decide)
  listener addrs a ha b hb _ _ := by
    simp only [webServerNodes, List.mem_singleton] at ha hb
    rw [ha, hb]

/-- After a segment from port 2 and a RST for nobody, a segment from port 1: the receiver is the same in any order. -/
theorem tcpDemux_spec_webServer : ∃ who, Serves webServer webServerNodes ⟨7, 9, 1, 80⟩ (emptySegment {}) who ∧
    ∀ u nodesᵤ, Lists u nodesᵤ → Reordered webServer u webServerNodes nodesᵤ →
      ∃ u', u.tcpDemux 2 ⟨7, 9, 1, 80⟩ (emptySegment {}) = some (who, u') := by
  obtain ⟨-, -, who, -, -, -, -, -, -, -, -, hserves, hany⟩ := tcpDemux_spec webServer webServerNodes 2
    [(⟨7, 9, 2, 80⟩, emptySegment {}), (⟨7, 9, 2, 81⟩, emptySegment { rst := true })] ⟨7, 9, 1, 80⟩ (emptySegment {})
    webServer_lists fun l => by cases l <;> decide
  exact ⟨who, hserves, hany webServer_oneForEach⟩

end BareMetal.Tcp
