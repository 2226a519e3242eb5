import BareMetal.Lib.Run
import BareMetal.Tcp.Timers

/-! # Runs over all control blocks

The machine of `tcp.c`: the calls of the application, the segments that arrive and the two timers, in any order. From
the state after `memp_init`, the axioms of `tcp_impl.h` hold in every state of a run whose calls meet
`Stack.Enabled` (`axioms_of_run`). Most of it says that a handle is live; what is more is what the functions do not
check: `tcp_bind` of a block that is bound or connected, `tcp_abort` of a listening or bound block, and a
timer that meets a block which it has seen. -/

namespace BareMetal.Tcp

/-- The control blocks with their accept callbacks. -/
structure Stack where
  store : Store
  /-- `pcb->accept`. -/
  accept : ℕ → AcceptFn

/-- A call of the application, a segment, or a timer; with the outcomes of the allocations in it. -/
inductive StackEvent
  | new (m : Mem)
  | bind (a : ℕ) (ipaddr : Option UInt32) (port : UInt16)
  | listen (a : ℕ)
  /-- `tcp_accept(pcb, app_tcp_accept)`. -/
  | accept (a : ℕ)
  | close (m : Mem) (a : ℕ)
  | abort (m : Mem) (a : ℕ)
  | segment (m : Mem) (addrs : Addrs) (i : InSeg)
  | fasttmr (m : Mem)
  | slowtmr (m : Mem)

variable (c : Config)

/-- One event. The loops are given as many rounds as there are blocks. -/
def Stack.step (st : Stack) : StackEvent → Option Stack
  | .new m => (st.store.tcpNew c m st.store.size).map fun r => { st with store := r.2 }
  | .bind a ipaddr port => (st.store.tcpBind st.store.size a ipaddr port).map fun r => { st with store := r.2 }
  | .listen a =>
      (st.store.tcpListen st.store.size a).map fun r =>
        { store := r.2
          accept := fun b => if r.1 = some b ∧ b ≠ a then .tcpAcceptNull else st.accept b }
  | .accept a => some { st with accept := Function.update st.accept a .appTcpAccept }
  | .close m a => (st.store.tcpClose c m st.store.size a).map fun s => { st with store := s }
  | .abort m a => (st.store.tcpAbort c m st.store.size a).map fun s => { st with store := s }
  | .segment m addrs i =>
      (st.store.tcpInput c m st.store.size st.accept addrs i).map fun r =>
        { store := r.2
          accept := fun b => if (r.1.map Prod.snd) = some b then st.accept ((r.1.map Prod.fst).getD 0) else st.accept b }
  | .fasttmr m => (st.store.tcpFasttmr c m st.store.size).map fun s => { st with store := s }
  | .slowtmr m => (st.store.tcpSlowtmr c m st.store.size).map fun s => { st with store := s }

/-- The blocks that the loops over the list `l` meet. -/
def Stack.listed (st : Stack) (l : ListName) : List ℕ :=
  (walk 0 st.store.next st.store.size (st.store.head l)).getD []

/-- The block is in use. -/
def Store.InUse (s : Store) (a : ℕ) : Prop := ∃ p, s.Live p a

/-- What the functions rely on. -/
def Stack.Enabled (st : Stack) : StackEvent → Prop
  | .new _ => True
  | .bind a ipaddr port =>
      st.store.InUse a ∧
        ((st.store.block a).pcb.state = .closed ∧ (st.store.block a).localPort = 0 ∨
          Tcp.InUse st.store st.listed ipaddr port ∨ NoneFree st.store st.listed port)
  | .listen a =>
      st.store.InUse a ∧
        ((st.store.block a).pcb.state = .closed ∨ (st.store.block a).pcb.state = .listen ∨
          st.store.free .tcpPcbListen = [])
  | .accept _ => True
  | .close _ a => st.store.InUse a
  | .abort _ a => st.store.Live .tcpPcb a ∧ ((st.store.block a).pcb.state = .closed → (st.store.block a).localPort = 0)
  | .segment _ _ _ => True
  | .fasttmr _ => ∀ a ∈ st.listed .active, (st.store.block a).pcb.lastTimer ≠ st.store.tcpTimerCtr + 1
  | .slowtmr m => removesOk false true (st.store.tick.fates c m (st.listed .active)) = true

/-- An element is in use when it is live as the one kind of block or the other. -/
theorem inUse_iff (s : Store) (a : ℕ) : s.Live .tcpPcb a ∨ s.Live .tcpPcbListen a ↔ s.InUse a := by
  constructor
  · rintro (hlive | hlive)
    · exact ⟨.tcpPcb, hlive⟩
    · exact ⟨.tcpPcbListen, hlive⟩
  · rintro ⟨p, hlive⟩
    cases p with
    | tcpPcb => exact .inl hlive
    | tcpPcbListen => exact .inr hlive

/-- The port of a block on one of the four lists. -/
theorem used_iff (s : Store) (nodes : ListName → List ℕ) (port : UInt16) :
    (∃ l ∈ tcpPcbLists, ∃ b ∈ nodes l, (s.block b).localPort = port) ↔ Used s nodes port := by
  constructor
  · rintro ⟨l, -, hl⟩
    exact ⟨l, hl⟩
  · rintro ⟨l, hl⟩
    exact ⟨l, mem_tcpPcbLists l, hl⟩

/-- A port that `tcp_bind` refuses. -/
theorem inUse_port_iff (s : Store) (nodes : ListName → List ℕ) (ipaddr : Option UInt32) (port : UInt16) :
    (port ≠ 0 ∧ ∃ l ∈ tcpPcbLists, ∃ b ∈ nodes l, (s.block b).localPort = port ∧
      ((s.block b).localIp = 0 ∨ ipaddr.getD 0 = 0 ∨ (s.block b).localIp = ipaddr.getD 0)) ↔
        Tcp.InUse s nodes ipaddr port := by
  refine and_congr_right fun _ => ⟨?_, ?_⟩
  · rintro ⟨l, -, hl⟩
    exact ⟨l, hl⟩
  · rintro ⟨l, hl⟩
    exact ⟨l, mem_tcpPcbLists l, hl⟩

/-- All ports of the range are taken. -/
theorem noneFree_iff (s : Store) (nodes : ListName → List ℕ) (port : UInt16) :
    (port = 0 ∧ ∀ n < 0x10000, tcpLocalPortRangeStart ≤ UInt16.ofNat n →
      ∃ l ∈ tcpPcbLists, ∃ b ∈ nodes l, (s.block b).localPort = UInt16.ofNat n) ↔ NoneFree s nodes port := by
  refine and_congr_right fun _ => ⟨fun h p hp => ?_, fun h n _ hn => (used_iff s nodes _).mpr (h _ hn)⟩
  have hall := h p.toNat p.toNat_lt
  rw [UInt16.ofNat_toNat] at hall
  exact (used_iff s nodes p).mp (hall hp)

instance (s : Store) (p : Pool) (a : ℕ) : Decidable (s.Live p a) := inferInstanceAs (Decidable (_ ∧ _))

instance (s : Store) (a : ℕ) : Decidable (s.InUse a) := decidable_of_iff _ (inUse_iff s a)

instance (s : Store) (nodes : ListName → List ℕ) (ipaddr : Option UInt32) (port : UInt16) :
    Decidable (Tcp.InUse s nodes ipaddr port) := decidable_of_iff _ (inUse_port_iff s nodes ipaddr port)

instance (s : Store) (nodes : ListName → List ℕ) (port : UInt16) : Decidable (NoneFree s nodes port) :=
  decidable_of_iff _ (noneFree_iff s nodes port)

instance (st : Stack) : (e : StackEvent) → Decidable (st.Enabled c e)
  | .new _ => inferInstanceAs (Decidable True)
  | .bind _ _ _ => inferInstanceAs (Decidable (_ ∧ (_ ∧ _ ∨ _ ∨ _)))
  | .listen _ => inferInstanceAs (Decidable (_ ∧ (_ ∨ _ ∨ _)))
  | .accept _ => inferInstanceAs (Decidable True)
  | .close _ a => inferInstanceAs (Decidable (st.store.InUse a))
  | .abort _ _ => inferInstanceAs (Decidable (_ ∧ (_ → _)))
  | .segment _ _ _ => inferInstanceAs (Decidable True)
  | .fasttmr _ => inferInstanceAs (Decidable (∀ a ∈ st.listed .active, _))
  | .slowtmr _ => inferInstanceAs (Decidable (_ = true))

/-- What `memp_init` leaves: every block is free, and the lists are empty. -/
structure Store.Initial (s : Store) : Prop where
  head : ∀ l, s.head l = 0
  free : ∀ p, (s.free p).Perm (s.elems p)
  nodup : ∀ p, (s.elems p).Nodup
  ne_null : ∀ p, 0 ∉ s.elems p
  disjoint : ∀ p q a, a ∈ s.elems p → a ∈ s.elems q → p = q

variable {c} {s : Store} {st st' : Stack} {nodes : ListName → List ℕ} {a : ℕ} {e : StackEvent}

/-- After `memp_init` the lists are empty and the pools full. -/
theorem Store.Initial.listInv (h : s.Initial) : ListInv s (fun _ => []) [] where
  path l := path_nil.mpr (h.head l)
  ne_null _ := List.not_mem_nil
  pools_disjoint := h.disjoint
  free_elems p _ ha := (h.free p).mem_iff.mp ha
  free_nodup p := (h.free p).nodup_iff.mpr (h.nodup p)
  elems_ne_null := h.ne_null
  live _ _ ha := absurd ha List.not_mem_nil
  one_list _ _ _ ha := absurd ha List.not_mem_nil
  fits _ _ ha := absurd ha List.not_mem_nil
  listed p _ hlive := absurd ((h.free p).mem_iff.mpr hlive.1) hlive.2
  refused _ hlive := absurd ((h.free .tcpPcb).mem_iff.mpr hlive.1) hlive.2
  off _ ha := absurd ha List.not_mem_nil

/-- The loops meet the blocks of the list. -/
theorem ListInv.listed_eq (h : ListInv st.store nodes []) : st.listed = nodes := by
  funext l
  rw [Stack.listed, walk_eq (h.path l) (h.ne_null l) (h.length_le l)]
  rfl

/-- A block of the pool for connections does not listen. -/
theorem ListInv.ne_listen (h : ListInv s nodes []) (hlive : s.Live .tcpPcb a) : (s.block a).pcb.state ≠ .listen := by
  intro hstate
  have hlisten := h.live .listen a (h.mem_listen hlive hstate)
  exact absurd (h.pools_disjoint _ _ a hlive.1 hlisten.1) (by decide)

/-- The lists of the state are in order. -/
def Stack.Ordered (st : Stack) : Prop := ∃ nodes, ListInv st.store nodes []

/-- A call that goes through and keeps the lists is a step that keeps the order. -/
theorem ordered_map {α : Type*} {r : Option α} {x : α} (f : α → Stack) (hrun : r = some x)
    (hkept : ∃ nodes, ListInv (f x).store nodes []) : ∃ st', r.map f = some st' ∧ st'.Ordered :=
  ⟨f x, by rw [hrun, Option.map_some], hkept⟩

/-- **Every step keeps the lists in order**, and can be taken. -/
theorem Stack.Ordered.step (h : st.Ordered) (he : st.Enabled c e) : ∃ st', st.step c e = some st' ∧ st'.Ordered := by
  obtain ⟨nodes, h⟩ := h
  have hn := Nat.le_refl st.store.size
  cases e with
  | new m =>
      obtain ⟨r, s', hrun, hkept, -⟩ := h.tcpNew c m hn
      exact ordered_map _ hrun hkept
  | bind a ipaddr port =>
      obtain ⟨⟨p, hlive⟩, hbind⟩ := he
      rw [h.listed_eq] at hbind
      obtain ⟨r, s', hrun, hkept, -⟩ := h.tcpBind hlive hbind hn
      exact ordered_map _ hrun hkept
  | listen a =>
      obtain ⟨⟨p, hlive⟩, hstate⟩ := he
      obtain ⟨r, s', hrun, hkept, -⟩ := h.tcpListen hlive hstate hn
      exact ordered_map _ hrun hkept
  | accept a => exact ⟨_, rfl, nodes, h⟩
  | close m a =>
      obtain ⟨p, hlive⟩ := he
      obtain ⟨s', hrun, hkept, -⟩ := h.tcpClose c m hlive hn
      exact ordered_map _ hrun hkept
  | abort m a =>
      obtain ⟨s', hrun, hkept, -⟩ := h.tcpAbort c m he.1 (h.ne_listen he.1) he.2 hn
      exact ordered_map _ hrun hkept
  | segment m addrs i =>
      obtain ⟨r, s', hrun, hkept, -⟩ := h.tcpInput c m st.accept addrs i hn
      exact ordered_map _ hrun hkept
  | fasttmr m =>
      have hunseen : ∀ a ∈ st.listed .active, _ := he
      rw [h.listed_eq] at hunseen
      obtain ⟨s', hrun, hkept, -⟩ := h.tcpFasttmr hn hunseen
      exact ordered_map _ hrun hkept
  | slowtmr m =>
      have hok : removesOk false true (st.store.tick.fates c m (st.listed .active)) = true := he
      rw [h.listed_eq] at hok
      obtain ⟨s', hrun, hkept, -⟩ := h.tcpSlowtmr hn hok
      exact ordered_map _ hrun hkept

/-- **The axioms of the lists, over all runs.** From the state after `memp_init`, a run of calls, segments and timers
whose steps are all enabled goes through to its end, and every list satisfies the axioms there. -/
theorem axioms_of_run (st : Stack) (es : List StackEvent) (hinit : st.store.Initial)
    (henabled : RunMeets (Stack.step c) (Stack.Enabled c) st es) :
    ∃ st', run (Stack.step c) st es = some st' ∧ Axioms st'.store st'.listed := by
  obtain ⟨st', hrun, nodes, h⟩ := exists_run_of_meets (I := Stack.Ordered) (fun _ _ h he => h.step he)
    ⟨_, hinit.listInv⟩ henabled
  refine ⟨st', hrun, ?_⟩
  rw [h.listed_eq]
  exact h.axioms

/-- Three blocks for connections and one that listens, after `memp_init`. -/
def bootStack : Stack where
  store :=
    { block := fun _ =>
        { next := 0, prio := 0, localIp := 0, remoteIp := 0, localPort := 0, remotePort := 0
          pcb := Tcp.tcpAlloc optDefaults 0 0 0, app := {} }
      head := fun _ => 0
      elems := fun p => if p = .tcpPcb then [1, 2, 3] else [4]
      free := fun p => if p = .tcpPcb then [1, 2, 3] else [4]
      tcpPort := ⟨tcpLocalPortRangeStart, UInt16.le_refl _⟩
      tcpTicks := 0
      tcpTimerCtr := 0
      tcpInputPcb := 0
      tcpActivePcbsChanged := false
      iss := 6510 }
  accept _ := .tcpAcceptNull

/-- The stack at start-up. -/
theorem initial_bootStack : bootStack.store.Initial where
  head _ := rfl
  free p := by cases p <;> exact List.Perm.refl _
  nodup p := by cases p <;> decide
  ne_null p := by cases p <;> decide
  disjoint p q a hp hq := by cases p <;> cases q <;> simp [bootStack] at hp hq ⊢ <;> omega

/-- A server is set up, a peer connects to it, and the server closes. -/
def serve : List StackEvent :=
  [.new {}, .bind 1 none 4090, .listen 1, .accept 4,
    .segment {} ⟨7, 9, 5000, 4090⟩ ⟨1000, 0, { syn := true }, 2048, 5, [], [], emptySegment_fits⟩,
    .segment {} ⟨7, 9, 5000, 4090⟩ ⟨1001, 6511, { ack := true }, 2048, 5, [], [], emptySegment_fits⟩,
    .fasttmr {}, .slowtmr {}, .close {} 1]

/-- The server's run. -/
theorem axioms_of_serve : ∃ st', run (Stack.step optDefaults) bootStack serve = some st' ∧
    Axioms st'.store st'.listed :=
  axioms_of_run bootStack serve initial_bootStack (by decide)

example : (run (Stack.step optDefaults) bootStack serve).map (fun st => tcpPcbLists.map st.listed) =
    some [[4], [], [1], []] := by decide

end BareMetal.Tcp
