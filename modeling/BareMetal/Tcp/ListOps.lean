import BareMetal.Tcp.Bind
import BareMetal.Tcp.Homes

/-! # The functions that edit the lists

`tcp_new`, `tcp_listen`, `tcp_close`, `tcp_abort` and `tcp_input` over all control blocks. What they do to one connection is
taken from the functions on a connection; here they look blocks up, move them in front of their list, and move them
between the lists and the pools. Each of them leaves the lists in order, but for the calls of `tcp_listen` and
`tcp_abort` with a block that they do not expect. -/

namespace BareMetal.Tcp

variable {s s' : Store} {nodes nodes' : ListName → List ℕ} {l : ListName} {p : Pool} {a b fuel : ℕ} {out : List ℕ}
  {i : InSeg} {conn : Conn}

variable (c : Config) (m : Mem)

/-! ## The functions -/

/-- `TCP_PRIO_NORMAL`. -/
def tcpPrioNormal : UInt8 := 64

/-- `tcp_new`. -/
def Store.tcpNew (fuel : ℕ) (s : Store) : Option (Option ℕ × Store) := s.tcpAlloc c m fuel tcpPrioNormal

/-- Write the connection of `a` back. -/
def Store.write (s : Store) (a : ℕ) (conn : Conn) : Store :=
  { s.onBlock a fun b => { b with pcb := conn.pcb, app := conn.app } with
    tcpActivePcbsChanged := conn.activePcbsChanged }

/-- Write the connection of `a` back, and move the block from the list `l` to where the function on the connection
has moved it. -/
def Store.place (fuel : ℕ) (s : Store) (l : ListName) (a : ℕ) (conn : Conn) : Option Store :=
  match conn.home with
  | .freed => (s.tcpRmv fuel l a).map fun s => s.release a conn
  | .timeWait =>
      if l = .timeWait then some (s.write a conn)
      else (s.tcpRmv fuel l a).map fun s => (s.write a conn).tcpReg .timeWait a
  | _ => some (s.write a conn)

/-- `tcp_close(pcb)`. -/
def Store.tcpClose (fuel : ℕ) (s : Store) (a : ℕ) : Option Store :=
  match (s.block a).pcb.state with
  | .closed => do
      let s ← if (s.block a).localPort ≠ 0 then s.tcpRmv fuel .bound a else some s
      some (s.mempFree .tcpPcb a)
  | .listen =>
      (s.tcpRmv fuel .listen a).map fun s =>
        (s.onBlock a fun b => { b with pcb := { b.pcb with state := .closed } }).mempFree .tcpPcbListen a
  | .timeWait => s.place fuel .timeWait a (Tcp.tcpClose c m (s.conn a .timeWait)).2
  | _ => s.place fuel .active a (Tcp.tcpClose c m (s.conn a .active)).2

/-- The fields that `tcp_listen` copies to the new block. -/
def listenBlock (pcb lpcb : Block) : Block :=
  { lpcb with
    prio := pcb.prio
    localIp := pcb.localIp
    localPort := pcb.localPort
    pcb :=
    { lpcb.pcb with
      state := .listen
      cb := { lpcb.pcb.cb with arg := pcb.pcb.cb.arg }
      soKeepalive := pcb.pcb.soKeepalive } }

/-- `tcp_listen_with_backlog(pcb, backlog)`: the listening block. -/
def Store.tcpListen (fuel : ℕ) (s : Store) (a : ℕ) : Option (Option ℕ × Store) :=
  let pcb := s.block a
  if pcb.pcb.state = .listen then some (some a, s)
  else
    match s.mempMalloc .tcpPcbListen with
    | none => some (none, s)
    | some (lpcb, s) => do
        let s := s.onBlock lpcb (listenBlock pcb)
        let s ← if pcb.localPort ≠ 0 then s.tcpRmv fuel .bound a else some s
        some (some lpcb, (s.mempFree .tcpPcb a).tcpReg .listen lpcb)

/-- The functions that `pcb->accept` can point to. -/
inductive AcceptFn
  | tcpAcceptNull
  | appTcpAccept
  deriving DecidableEq, Repr

/-- `tcp_process` calls the accept callback for the segment. -/
def reachesAccept (i : InSeg) (pcb : Pcb) : Bool :=
  pcb.state == .synRcvd && !i.flags.rst && i.flags.ack && seqBetween i.ackno (pcb.snd.lastack + 1) pcb.snd.sndNxt

/-- `tcp_input` for a segment of the connection. `tcp_accept_null` returns `ERR_ABRT`, and then nothing else is done with
the block. -/
def tcpInputAccept (accept : AcceptFn) (i : InSeg) (conn : Conn) : Conn :=
  if accept = .tcpAcceptNull ∧ reachesAccept i conn.pcb = true then
    (processCommon c i conn).onPcb fun pcb => { pcb with state := .established }
  else Tcp.tcpInput c m i conn

/-- `tcp_listen_input(pcb)` for a segment from `addrs`: the new block. -/
def Store.tcpListenInput (fuel : ℕ) (s : Store) (lpcb : ℕ) (addrs : Addrs) (i : InSeg) :
    Option (Option ℕ × Store) :=
  if i.flags.rst ∨ i.flags.ack ∨ i.flags.syn = false then some (none, s)
  else do
    let pcb := s.block lpcb
    match ← s.tcpAlloc c m fuel pcb.prio with
    | (none, s) => some (none, s)
    | (some npcb, s) => do
        let conn := Tcp.tcpListenInput c m i pcb.pcb.soKeepalive s.iss s.tcpTicks s.tcpTimerCtr
        let s := s.onBlock npcb fun b =>
          { b with
            localIp := addrs.dest
            localPort := pcb.localPort
            remoteIp := addrs.src
            remotePort := addrs.srcPort
            pcb := { b.pcb with state := .synRcvd } }
        let s ← (s.tcpReg .active npcb).place fuel .active npcb conn
        some (some npcb, s)

/-- `tcp_input` for a segment that passed its checks: the listening block it is for and the new block, if it makes
one. -/
def Store.tcpInput (fuel : ℕ) (s : Store) (accept : ℕ → AcceptFn) (addrs : Addrs) (i : InSeg) :
    Option (Option (ℕ × ℕ) × Store) := do
  let (who, s) ← s.tcpDemux fuel addrs i
  match who with
  | .active a =>
      (s.place fuel .active a (tcpInputAccept c m (accept a) i (s.conn a .active))).map fun s => (none, s)
  | .timeWait a =>
      (s.place fuel .timeWait a (tcpTimewaitInput c m i (s.conn a .timeWait))).map fun s => (none, s)
  | .listen lpcb => do
      let (npcb, s) ← s.tcpListenInput c m fuel lpcb addrs i
      some (npcb.map fun npcb => (lpcb, npcb), s)
  | .rst _ => some (none, s)
  | .discarded => some (none, s)

/-! ## Moving one block -/

/-- The lists are in order, and the pools have the blocks of `s`. -/
def ListsKept (s s' : Store) : Prop := (∃ nodes, ListInv s' nodes []) ∧ s'.elems = s.elems

/-- The bound on the loops depends on the pools only. -/
theorem size_congr (helems : s'.elems = s.elems) : s'.size = s.size := by
  rw [Store.size, Store.size, helems]

/-- So fuel that is enough stays enough. -/
theorem size_le_congr (helems : s'.elems = s.elems) (hfuel : s.size ≤ fuel) : s'.size ≤ fuel :=
  Nat.le_trans (Nat.le_of_eq (size_congr helems)) hfuel

/-- A block is live when it is an element of its pool and not free. -/
theorem live_congr (helems : s'.elems = s.elems) (hfree : s'.free = s.free) : s'.Live p a ↔ s.Live p a := by
  rw [Store.Live, Store.Live, helems, hfree]

/-- Changing links frees nothing. -/
theorem Relinked.live (h : Relinked s s') : s'.Live p a ↔ s.Live p a := live_congr h.elems_eq h.free_eq

/-- The block goes to its pool. -/
theorem ListInv.release (h : ListInv s nodes [a]) (hlive : s.Live .tcpPcb a) (conn : Conn) :
    ListInv (s.release a conn) nodes [] := by
  have hset : ListInv (s.onBlock a fun pcb => { pcb with pcb := conn.pcb, app := conn.app }) nodes [a] :=
    h.set_out (fun b hb => block_onBlock_of_ne s _ hb) rfl rfl rfl
  exact (hset.mempFree (p := .tcpPcb) hlive).congr rfl rfl rfl rfl

/-- Writing a connection back touches its own block only. -/
theorem block_write_of_ne (s : Store) (conn : Conn) (hne : b ≠ a) : (s.write a conn).block b = s.block b :=
  Function.update_of_ne hne _ _

/-- What is written back: the fields of the connection. -/
theorem block_write_self (s : Store) (a : ℕ) (conn : Conn) :
    (s.write a conn).block a = { s.block a with pcb := conn.pcb, app := conn.app } :=
  Function.update_self _ _ _

/-- The block stays on its list. -/
theorem ListInv.write (h : ListInv s nodes []) (ha : a ∈ nodes l) (hfits : l.Fits { s.block a with pcb := conn.pcb })
    (href : conn.pcb.refusedData = none) : ListInv (s.write a conn) nodes [] := by
  refine h.set_listed ha (fun b hb => block_write_of_ne s conn hb) ?_ ?_ (fun _ => ?_) rfl rfl rfl
  · rw [Store.next, block_write_self]
    rfl
  · rw [block_write_self]
    cases l <;> exact hfits
  · rw [block_write_self]
    exact href

/-- What becomes of a block on one of the two lists of connections. -/
theorem ListInv.place (h : ListInv s nodes []) (ha : a ∈ nodes l) (hl : l = .active ∨ l = .timeWait)
    (hplaced : Placed conn) (hactive : conn.home = .active → l = .active) (hfuel : s.size ≤ fuel) :
    ∃ s', s.place fuel l a conn = some s' ∧ ListsKept s s' := by
  have hpool : l.pool = .tcpPcb := by rcases hl with rfl | rfl <;> rfl
  have hlive : s.Live .tcpPcb a := hpool ▸ h.live l a ha
  obtain ⟨t, hrmv, hrel, ht⟩ := h.tcpRmv ha hfuel
  have hlive' : t.Live .tcpPcb a := hrel.live.mpr hlive
  unfold Store.place
  cases hhome : conn.home with
  | active =>
      obtain rfl := hactive hhome
      exact ⟨_, rfl, ⟨nodes, h.write ha (hplaced.active hhome) hplaced.refused⟩, rfl⟩
  | unlisted => exact absurd hhome hplaced.listed
  | freed =>
      simp only [hrmv, Option.map_some]
      exact ⟨_, rfl, ⟨_, ht.release hlive' conn⟩, hrel.elems_eq⟩
  | timeWait =>
      have hstate := hplaced.timeWait hhome
      by_cases htw : l = .timeWait
      · subst htw
        rw [if_pos rfl]
        exact ⟨_, rfl, ⟨nodes, h.write ha hstate hplaced.refused⟩, rfl⟩
      · simp only [if_neg htw, hrmv, Option.map_some]
        have hset : ListInv (t.write a conn) _ [a] :=
          ht.set_out (fun b hb => block_write_of_ne t conn hb) rfl rfl rfl
        have hblock := block_write_self t a conn
        refine ⟨_, rfl, ⟨_, hset.tcpReg (l := .timeWait) hlive' ?_ fun _ => ?_⟩, hrel.elems_eq⟩
        · rw [hblock]
          exact hstate
        · rw [hblock]
          exact hplaced.refused

/-! ## Aborting and allocating -/

/-- `TCP_RMV` of a block that is not on the list. -/
theorem Linked.tcpRmv_of_notMem (h : Linked s nodes) (ha : a ∉ nodes l) (ha0 : a ≠ 0) (hfuel : (nodes l).length ≤ fuel) :
    s.tcpRmv fuel l a = some (s.setNext a 0) := by
  have hhead : s.head l ≠ a := by
    rintro rfl
    cases hl : nodes l with
    | nil => exact ha0 (path_nil.mp (hl ▸ h.path l))
    | cons x rest => exact ha (hl ▸ (path_cons.mp (hl ▸ h.path l)).1 ▸ List.mem_cons_self)
  have hfind : ((nodes l).find? fun x => s.next x == a) = none := by
    refine List.find?_eq_none.mpr fun x hx hnext => ?_
    obtain ⟨l₁, l₂, hsplit⟩ := (h.path l).split_of_next hx (beq_iff_eq.mp hnext) ha0
    exact ha (hsplit ▸ List.mem_append_right l₁ (List.mem_cons_of_mem x List.mem_cons_self))
  rw [Store.tcpRmv, if_neg hhead, findNode_eq (h.path l) (h.ne_null l) hfuel, hfind]
  rfl

/-- `tcp_abort` of a block that is not listening, and has no port while it is closed. -/
theorem ListInv.tcpAbort (h : ListInv s nodes []) (hlive : s.Live .tcpPcb a)
    (hlisten : (s.block a).pcb.state ≠ .listen) (hport : (s.block a).pcb.state = .closed → (s.block a).localPort = 0)
    (hfuel : s.size ≤ fuel) : ∃ s', s.tcpAbort c m fuel a = some s' ∧ ListsKept s s' := by
  have hlisted : ∀ l, a ∈ nodes l → ∃ t, s.tcpRmv fuel l a = some t ∧ Relinked s t ∧ ∃ nodes', ListInv t nodes' [a] := by
    intro l ha
    obtain ⟨t, hrmv, hrel, ht⟩ := h.tcpRmv ha hfuel
    exact ⟨t, hrmv, hrel, _, ht⟩
  obtain ⟨t, hrmv, hrel, nodes', ht⟩ : ∃ t, s.tcpRmv fuel (if (s.block a).pcb.state == .timeWait then .timeWait else .active) a =
      some t ∧ Relinked s t ∧ ∃ nodes', ListInv t nodes' [a] := by
    by_cases htw : (s.block a).pcb.state = .timeWait
    · rw [htw]
      exact hlisted _ (h.mem_timeWait hlive htw)
    rw [beq_false_of_ne htw]
    by_cases hclosed : (s.block a).pcb.state = .closed
    · -- the block is on no list
      have hoff := h.off_of_closed hclosed (hport hclosed)
      have ha0 : a ≠ 0 := fun h0 => h.elems_ne_null _ (h0 ▸ hlive.1)
      refine ⟨s.setNext a 0, ?_, relinked_setNext s a 0, nodes, ?_⟩
      · exact h.toLinked.tcpRmv_of_notMem (hoff _) ha0 (Nat.le_trans (h.length_le _) hfuel)
      · exact (h.takeOut hoff).set_out (fun b hb => Function.update_of_ne hb _ _) rfl rfl rfl
    · exact hlisted _ (h.mem_active hlive ⟨hclosed, hlisten, htw⟩)
  refine ⟨_, by rw [Store.tcpAbort, hrmv]; rfl, ⟨nodes', ht.release (hrel.live.mpr hlive) _⟩, hrel.elems_eq⟩

/-- `tcp_abort` of a block on one of the two lists of connections. -/
theorem ListInv.tcpAbort_listed (h : ListInv s nodes []) (ha : a ∈ nodes .timeWait ∨ a ∈ nodes .active)
    (hfuel : s.size ≤ fuel) : ∃ s', s.tcpAbort c m fuel a = some s' ∧ ListsKept s s' := by
  rcases ha with ha | ha
  · have hstate : (s.block a).pcb.state = .timeWait := h.fits .timeWait a ha
    exact h.tcpAbort c m (h.live _ a ha) (by rw [hstate]; decide)
      (fun hclosed => absurd (hstate.symm.trans hclosed) (by decide)) hfuel
  · obtain ⟨hclosed, hlisten, -⟩ : (s.block a).pcb.state.Connected := h.fits .active a ha
    exact h.tcpAbort c m (h.live _ a ha) hlisten (fun heq => absurd heq hclosed) hfuel

/-- Giving up the oldest connection in TIME_WAIT, if there is one. -/
theorem ListInv.tcpKillTimewait (h : ListInv s nodes []) (hfuel : s.size ≤ fuel) :
    ∃ s', s.tcpKillTimewait c m fuel = some s' ∧ ListsKept s s' := by
  rw [Store.tcpKillTimewait, walk_eq (h.path .timeWait) (h.ne_null .timeWait) (Nat.le_trans (h.length_le _) hfuel)]
  simp only [Option.bind_eq_bind, Option.bind_some, foldl_oldestStep]
  cases hbest : (nodes .timeWait).foldl (keepBest s.Older) none with
  | none => exact ⟨s, rfl, ⟨nodes, h⟩, rfl⟩
  | some v =>
      have hv : v ∈ nodes .timeWait := (mem_of_foldl_keepBest hbest).resolve_left (Option.some_ne_none v).symm
      exact h.tcpAbort_listed c m (.inl hv) hfuel

/-- Giving up an active connection of a low priority, if there is one. -/
theorem ListInv.tcpKillPrio (h : ListInv s nodes []) (hfuel : s.size ≤ fuel) (prio : UInt8) :
    ∃ s', s.tcpKillPrio c m fuel prio = some s' ∧ ListsKept s s' := by
  rw [Store.tcpKillPrio, walk_eq (h.path .active) (h.ne_null .active) (Nat.le_trans (h.length_le _) hfuel)]
  simp only [Option.bind_eq_bind, Option.bind_some, foldl_victimStep]
  cases hlast : (records s.Outranks ((nodes .active).filter (s.Evictable prio))).head? with
  | none => exact ⟨s, rfl, ⟨nodes, h⟩, rfl⟩
  | some v =>
      have hv : v ∈ nodes .active := (List.mem_filter.mp (mem_of_mem_records (List.mem_of_mem_head? hlast))).1
      exact h.tcpAbort_listed c m (.inr hv) hfuel

/-- A block that was obtained is out, and the lists are in order otherwise. -/
def Obtains (s : Store) (r : Option ℕ) (s' : Store) : Prop :=
  s'.elems = s.elems ∧
    match r with
    | some a => (∃ nodes, ListInv s' nodes [a]) ∧ s'.Live .tcpPcb a
    | none => ∃ nodes, ListInv s' nodes []

/-- A free block is taken, and is on no list. -/
theorem ListInv.obtains (h : ListInv s nodes []) (hrun : s.mempMalloc .tcpPcb = some (a, s')) :
    Obtains s (some a) s' := by
  obtain ⟨h', hlive, -, helems, -⟩ := h.mempMalloc hrun
  exact ⟨helems, ⟨nodes, h'⟩, hlive⟩

/-- What was given up before makes no difference to what is obtained. -/
theorem Obtains.trans {t : Store} {r : Option ℕ} (helems : t.elems = s.elems) (h : Obtains t r s') : Obtains s r s' :=
  ⟨h.1.trans helems, h.2⟩

/-- `tcp_alloc` up to the point where it has a block or gives up. -/
theorem ListInv.obtainPcb (h : ListInv s nodes []) (hfuel : s.size ≤ fuel) (prio : UInt8) :
    ∃ r s', s.obtainPcb c m fuel prio = some (r, s') ∧ Obtains s r s' := by
  rw [Store.obtainPcb]
  cases hfirst : s.mempMalloc .tcpPcb with
  | some r => exact ⟨some r.1, r.2, rfl, h.obtains hfirst⟩
  | none =>
      obtain ⟨t, htw, ⟨nodes₁, h₁⟩, helems₁⟩ := h.tcpKillTimewait c m hfuel
      simp only [htw, Option.bind_eq_bind, Option.bind_some]
      cases hsecond : t.mempMalloc .tcpPcb with
      | some r => exact ⟨some r.1, r.2, rfl, (h₁.obtains hsecond).trans helems₁⟩
      | none =>
          obtain ⟨t₂, hprio, ⟨nodes₂, h₂⟩, helems₂⟩ := h₁.tcpKillPrio c m (size_le_congr helems₁ hfuel) prio
          simp only [hprio, Option.bind_some]
          cases hthird : t₂.mempMalloc .tcpPcb with
          | some r => exact ⟨some r.1, r.2, rfl, ((h₂.obtains hthird).trans helems₂).trans helems₁⟩
          | none => exact ⟨none, t₂, rfl, helems₂.trans helems₁, nodes₂, h₂⟩

/-- `tcp_alloc` returns a block that is out, closed and without a port. -/
theorem ListInv.tcpAlloc (h : ListInv s nodes []) (hfuel : s.size ≤ fuel) (prio : UInt8) :
    ∃ r s', s.tcpAlloc c m fuel prio = some (r, s') ∧ Obtains s r s' ∧
      ∀ a, r = some a → (s'.block a).pcb.state = .closed ∧ (s'.block a).localPort = 0 ∧
        (s'.block a).pcb.refusedData = none := by
  obtain ⟨r, t, hrun, helems, ht⟩ := h.obtainPcb c m hfuel prio
  rw [Store.tcpAlloc, hrun]
  cases r with
  | none => exact ⟨none, t, rfl, ⟨helems, ht⟩, fun b h' => absurd h'.symm (Option.some_ne_none b)⟩
  | some a =>
      obtain ⟨⟨nodes', ht⟩, hlive⟩ := ht
      refine ⟨some a, t.initPcb c prio a, rfl, ⟨helems, ⟨nodes', ?_⟩, hlive⟩, fun b hb => ?_⟩
      · exact ht.set_out (fun b hb => block_initPcb_of_ne c t prio hb) rfl rfl rfl
      · obtain rfl := Option.some.inj hb
        obtain ⟨hstate, -, -, -, href⟩ := fresh_initPcb c t prio a
        refine ⟨hstate, ?_, href⟩
        simp only [Store.initPcb, Function.update_self]

/-- The block of `tcp_new` is on no list yet. -/
theorem ListInv.tcpNew (h : ListInv s nodes []) (hfuel : s.size ≤ fuel) :
    ∃ r s', s.tcpNew c m fuel = some (r, s') ∧ ListsKept s s' := by
  obtain ⟨r, t, hrun, ⟨helems, ht⟩, hclosed⟩ := h.tcpAlloc c m hfuel tcpPrioNormal
  refine ⟨r, t, hrun, ?_, helems⟩
  cases r with
  | none => exact ht
  | some a =>
      obtain ⟨⟨nodes', ht⟩, hlive⟩ := ht
      obtain ⟨hstate, hport, href⟩ := hclosed a rfl
      exact ⟨nodes', ht.leave hlive hstate hport href⟩

/-! ## Closing and listening -/

/-- The connection of a block is where it was said to be. -/
theorem home_conn_ne (s : Store) (a : ℕ) {home : Home} (hne : home ≠ .freed) : (s.conn a home).home ≠ .freed := hne

/-- A block on `tcp_active_pcbs`, as a connection. -/
theorem placed_conn (hstate : (s.block a).pcb.state.Connected) (href : (s.block a).pcb.refusedData = none) :
    Placed (s.conn a .active) := placed_active rfl hstate href

/-- A block on `tcp_tw_pcbs`, as a connection. -/
theorem placed_conn_timeWait (hstate : (s.block a).pcb.state = .timeWait) (href : (s.block a).pcb.refusedData = none) :
    Placed (s.conn a .timeWait) where
  refused := href
  active hactive := nomatch (show Home.timeWait = .active from hactive)
  timeWait _ := hstate
  listed hunlisted := nomatch (show Home.timeWait = .unlisted from hunlisted)

/-- `tcp_close` of any block. -/
theorem ListInv.tcpClose (h : ListInv s nodes []) (hlive : s.Live p a) (hfuel : s.size ≤ fuel) :
    ∃ s', s.tcpClose c m fuel a = some s' ∧ ListsKept s s' := by
  have hconn : (s.block a).pcb.state.Connected →
      ∃ s', s.place fuel .active a (Tcp.tcpClose c m (s.conn a .active)).2 = some s' ∧ ListsKept s s' := by
    intro hstate
    have ha := h.mem_active hlive hstate
    have hplaced := placed_conn hstate (h.refused a (h.live _ a ha) List.not_mem_nil)
    exact h.place ha (.inl rfl) (hplaced.tcpClose (home_conn_ne s a (by decide))) (fun _ => rfl) hfuel
  unfold Store.tcpClose
  cases hstate : (s.block a).pcb.state with
  | closed =>
      obtain rfl := h.pool_of_closed hlive hstate
      by_cases hport : (s.block a).localPort = 0
      · have hoff := h.off_of_closed hstate hport
        simp only [hport, ne_eq, not_true_eq_false, if_false, Option.bind_eq_bind, Option.bind_some]
        exact ⟨_, rfl, ⟨nodes, (h.takeOut hoff).mempFree hlive⟩, rfl⟩
      · obtain ⟨t, hrmv, hrel, ht⟩ := h.tcpRmv (h.mem_bound hlive hstate hport) hfuel
        simp only [hport, ne_eq, not_false_eq_true, if_true, hrmv, Option.bind_eq_bind, Option.bind_some]
        exact ⟨_, rfl, ⟨_, ht.mempFree (hrel.live.mpr hlive)⟩, hrel.elems_eq⟩
  | listen =>
      have ha := h.mem_listen hlive hstate
      obtain ⟨t, hrmv, hrel, ht⟩ := h.tcpRmv ha hfuel
      have hset : ListInv (t.onBlock a fun b => { b with pcb := { b.pcb with state := .closed } }) _ [a] :=
        ht.set_out (fun b hb => block_onBlock_of_ne t _ hb) rfl rfl rfl
      simp only [hrmv, Option.map_some]
      refine ⟨_, rfl, ⟨_, hset.mempFree (p := .tcpPcbListen) ?_⟩, hrel.elems_eq⟩
      exact hrel.live.mpr (h.live .listen a ha)
  | timeWait =>
      have ha := h.mem_timeWait hlive hstate
      have hplaced := placed_conn_timeWait hstate (h.refused a (h.live _ a ha) List.not_mem_nil)
      refine h.place ha (.inr rfl) (hplaced.tcpClose (home_conn_ne s a (by decide))) (fun hactive => ?_) hfuel
      simp [Tcp.tcpClose, Tcp.tcpCloseShutdown, Store.conn, Conn.onPcb, hstate] at hactive
  | _ => exact hconn (by rw [hstate]; decide)

/-- `tcp_listen` of a block that is closed or listening, or when it does not get a new block. -/
theorem ListInv.tcpListen (h : ListInv s nodes []) (hlive : s.Live p a)
    (hstate : (s.block a).pcb.state = .closed ∨ (s.block a).pcb.state = .listen ∨ s.free .tcpPcbListen = [])
    (hfuel : s.size ≤ fuel) : ∃ r s', s.tcpListen fuel a = some (r, s') ∧ ListsKept s s' := by
  unfold Store.tcpListen
  dsimp only
  by_cases hlisten : (s.block a).pcb.state = .listen
  · rw [if_pos hlisten]
    exact ⟨_, s, rfl, ⟨nodes, h⟩, rfl⟩
  rw [if_neg hlisten]
  cases hmalloc : s.mempMalloc .tcpPcbListen with
  | none => exact ⟨none, s, rfl, ⟨nodes, h⟩, rfl⟩
  | some r =>
      obtain ⟨lpcb, t⟩ := r
      obtain ⟨ht, hlpcb, -, helems, hothers⟩ := h.mempMalloc hmalloc
      have hclosed : (s.block a).pcb.state = .closed := by
        rcases hstate with hstate | hstate | hempty
        · exact hstate
        · exact absurd hstate hlisten
        · rw [Store.mempMalloc, hempty] at hmalloc
          cases hmalloc
      obtain rfl := h.pool_of_closed hlive hclosed
      have hne : a ≠ lpcb := by
        rintro rfl
        exact absurd (ht.pools_disjoint .tcpPcbListen .tcpPcb a hlpcb.1 (helems ▸ hlive.1)) (by decide)
      -- the new block is filled in while it is out
      generalize hset : t.onBlock lpcb (listenBlock (s.block a)) = u
      have hu : ListInv u nodes [lpcb] := by
        rw [← hset]
        exact ht.set_out (fun b hb => block_onBlock_of_ne t _ hb) rfl rfl rfl
      have hulpcb : (u.block lpcb).pcb.state = .listen := by
        rw [← hset, block_onBlock_self]
        rfl
      have huelems : u.elems = s.elems := by
        rw [← hset]
        exact helems
      have hulive : u.Live .tcpPcb a := by
        rw [← hset]
        exact hothers .tcpPcb a hlive
      have hulpcbLive : u.Live .tcpPcbListen lpcb := by
        rw [← hset]
        exact hlpcb
      have hfinish : ∀ v nodes', Relinked u v → ListInv v nodes' [a, lpcb] →
          ListsKept s ((v.mempFree .tcpPcb a).tcpReg .listen lpcb) := by
        intro v nodes' hrel hv
        have hfree := hv.mempFree (p := .tcpPcb) (hrel.live.mpr hulive)
        refine ⟨⟨_, hfree.tcpReg (l := .listen) ?_ ?_ fun h' => absurd h' (by decide)⟩, hrel.elems_eq.trans huelems⟩
        · have hlive' : v.Live .tcpPcbListen lpcb := hrel.live.mpr hulpcbLive
          exact ⟨hlive'.1, hlive'.2⟩
        · show (v.block lpcb).pcb.state = .listen
          rw [hrel.pcb_eq, hulpcb]
      by_cases hport : (s.block a).localPort = 0
      · simp only [hport, ne_eq, not_true_eq_false, if_false, hset, Option.bind_eq_bind]
        refine ⟨_, _, rfl, hfinish u nodes (Relinked.refl u) (hu.takeOut fun l => ?_)⟩
        exact h.off_of_closed hclosed hport l
      · obtain ⟨v, hrmv, hrel, hv⟩ := hu.tcpRmv (h.mem_bound hlive hclosed hport) (size_le_congr huelems hfuel)
        simp only [hport, ne_eq, not_false_eq_true, if_true, hset, hrmv, Option.bind_eq_bind, Option.bind_some]
        exact ⟨_, _, rfl, hfinish v _ hrel hv⟩

/-- Binding a block that is on no list puts it on the bound list. -/
theorem ListInv.bound (h : ListInv s nodes []) (hlive : s.Live p a) (hstate : (s.block a).pcb.state = .closed)
    (hport : (s.block a).localPort = 0) (ipaddr : Option UInt32) {port : UInt16} (hne : port ≠ 0) :
    ∃ nodes', ListInv (s.bound a ipaddr port) nodes' [] := by
  obtain rfl := h.pool_of_closed hlive hstate
  have hout := h.takeOut (h.off_of_closed hstate hport)
  generalize haddr : (if ipAddrIsany ipaddr then s
    else s.onBlock a fun pcb => { pcb with localIp := ipaddr.getD 0 }) = t
  have ht : ListInv t nodes [a] ∧ t.elems = s.elems ∧ t.free = s.free ∧ (t.block a).pcb = (s.block a).pcb := by
    rw [← haddr]
    split
    · exact ⟨hout, rfl, rfl, rfl⟩
    · refine ⟨hout.set_out (fun b hb => block_onBlock_of_ne s _ hb) rfl rfl rfl, rfl, rfl, ?_⟩
      rw [block_onBlock_self]
  obtain ⟨ht, helems, hfree, hpcb⟩ := ht
  have hset : ListInv (t.onBlock a fun pcb => { pcb with localPort := port }) nodes [a] :=
    ht.set_out (fun b hb => block_onBlock_of_ne t _ hb) rfl rfl rfl
  have hlive' : t.Live .tcpPcb a := (live_congr helems hfree).mpr hlive
  have hreg := hset.tcpReg (l := .bound) hlive' ?_ fun _ => ?_
  · refine ⟨Function.update nodes .bound (a :: nodes .bound), ?_⟩
    rw [Store.bound, haddr]
    exact hreg
  · rw [block_onBlock_self]
    exact ⟨(congrArg Pcb.state hpcb).trans hstate, hne⟩
  · rw [block_onBlock_self]
    exact (congrArg Pcb.refusedData hpcb).trans (h.refused a hlive List.not_mem_nil)

/-- Registering a block moves nothing between the pools. -/
theorem bound_elems (s : Store) (a : ℕ) (ipaddr : Option UInt32) (port : UInt16) :
    (s.bound a ipaddr port).elems = s.elems ∧ (s.bound a ipaddr port).free = s.free := by
  dsimp only [Store.bound, Store.tcpReg, Store.setHead, Store.setNext, Store.onBlock]
  split <;> exact ⟨rfl, rfl⟩

/-- Nor does the rest of `tcp_bind`. -/
theorem bindTo_elems {ipaddr : Option UInt32} {port : UInt16} {err : BindErr}
    (hrun : s.bindTo fuel a ipaddr port = some (err, s')) : s'.elems = s.elems ∧ s'.free = s.free := by
  rw [Store.bindTo, Option.bind_eq_bind] at hrun
  obtain ⟨found, -, hrun⟩ := Option.bind_eq_some_iff.mp hrun
  cases found with
  | true =>
      obtain ⟨-, rfl⟩ := Prod.mk.inj (Option.some.inj hrun)
      exact ⟨rfl, rfl⟩
  | false =>
      obtain ⟨-, rfl⟩ := Prod.mk.inj (Option.some.inj hrun)
      dsimp only [Store.tcpReg, Store.setHead, Store.setNext, Store.onBlock]
      split <;> exact ⟨rfl, rfl⟩

/-- `tcp_bind` leaves the pools alone. -/
theorem tcpBind_elems {ipaddr : Option UInt32} {port : UInt16} {err : BindErr}
    (hrun : s.tcpBind fuel a ipaddr port = some (err, s')) : s'.elems = s.elems ∧ s'.free = s.free := by
  rw [Store.tcpBind] at hrun
  split at hrun
  · obtain ⟨⟨newPort, tcpPort⟩, -, hrun⟩ := Option.bind_eq_some_iff.mp hrun
    dsimp only at hrun
    split at hrun
    · obtain ⟨-, rfl⟩ := Prod.mk.inj (Option.some.inj hrun)
      exact ⟨rfl, rfl⟩
    · exact bindTo_elems (s := { s with tcpPort := tcpPort }) hrun
  · exact bindTo_elems hrun

/-- `tcp_bind` of a block that is closed and has no port, or that it does not bind. -/
theorem ListInv.tcpBind (h : ListInv s nodes []) (hlive : s.Live p a) {ipaddr : Option UInt32} {port : UInt16}
    (hbind : (s.block a).pcb.state = .closed ∧ (s.block a).localPort = 0 ∨ InUse s nodes ipaddr port ∨
      NoneFree s nodes port)
    (hfuel : s.size ≤ fuel) : ∃ r s', s.tcpBind fuel a ipaddr port = some (r, s') ∧ ListsKept s s' := by
  obtain ⟨err, s', hrun, hout⟩ := tcpBind_outcome h.toLinked (fun l => Nat.le_trans (h.length_le l) hfuel) a ipaddr port
  obtain ⟨helems, hfree⟩ := tcpBind_elems hrun
  refine ⟨err, s', hrun, ?_, helems⟩
  cases hout with
  | use hin => exact ⟨nodes, h⟩
  | buf t hblock hhead hnone => exact ⟨nodes, h.congr hblock hhead helems hfree⟩
  | ok t hblock hhead q hin hnone hp hrange =>
      obtain ⟨hstate, hport⟩ : (s.block a).pcb.state = .closed ∧ (s.block a).localPort = 0 :=
        hbind.resolve_right fun hor => hor.elim hin hnone
      have hne : q ≠ 0 := by
        by_cases h0 : port = 0
        · rintro rfl
          exact absurd (hrange h0).1 (by decide)
        · exact hp h0 ▸ h0
      have htelems : t.elems = s.elems := (bound_elems t a ipaddr q).1.symm.trans helems
      have htfree : t.free = s.free := (bound_elems t a ipaddr q).2.symm.trans hfree
      have ht : ListInv t nodes [] := h.congr hblock hhead htelems htfree
      exact ht.bound ((live_congr htelems htfree).mpr hlive) (by rw [hblock]; exact hstate)
        (by rw [hblock]; exact hport) ipaddr hne

/-! ## Segments -/

/-- SYN_RCVD is a state of `tcp_active_pcbs`. -/
theorem connected_synRcvd : TcpState.synRcvd.Connected := by decide

/-- A SYN for a listening block makes a connection, or nothing. -/
theorem ListInv.tcpListenInput (h : ListInv s nodes []) (lpcb : ℕ) (addrs : Addrs) (i : InSeg) (hfuel : s.size ≤ fuel) :
    ∃ r s', s.tcpListenInput c m fuel lpcb addrs i = some (r, s') ∧ ListsKept s s' := by
  unfold Store.tcpListenInput
  split
  · exact ⟨none, s, rfl, ⟨nodes, h⟩, rfl⟩
  · obtain ⟨r, t, halloc, ⟨helems, ht⟩, hclosed⟩ := h.tcpAlloc c m hfuel (s.block lpcb).prio
    simp only [halloc, Option.bind_eq_bind, Option.bind_some]
    cases r with
    -- no block: `tcp_listen_input` drops the SYN
    | none => exact ⟨none, t, rfl, ht, helems⟩
    | some npcb =>
        obtain ⟨⟨nodes', ht⟩, hlive⟩ := ht
        obtain ⟨-, -, href⟩ := hclosed npcb rfl
        dsimp only
        -- the block is off the lists while its fields are set
        generalize hset : (t.onBlock npcb fun b =>
          { b with
            localIp := addrs.dest
            localPort := (s.block lpcb).localPort
            remoteIp := addrs.src
            remotePort := addrs.srcPort
            pcb := { b.pcb with state := .synRcvd } }) = u
        have hu : ListInv u nodes' [npcb] := by
          rw [← hset]
          exact ht.set_out (fun b hb => block_onBlock_of_ne t _ hb) rfl rfl rfl
        have hblock : (u.block npcb).pcb = { (t.block npcb).pcb with state := .synRcvd } := by
          rw [← hset, block_onBlock_self]
        have hreg := hu.tcpReg (l := .active) (by rw [← hset]; exact hlive)
          (show (u.block npcb).pcb.state.Connected by rw [hblock]; exact connected_synRcvd) fun _ => by rw [hblock]; exact href
        have helems' : u.elems = s.elems := by
          rw [← hset]
          exact helems
        -- it stays on the active list, or `tcp_abandon` takes it off because no SYN|ACK could be queued
        have hplaced : Placed (Tcp.tcpListenInput c m i (s.block lpcb).pcb.soKeepalive t.iss t.tcpTicks t.tcpTimerCtr) := by
          obtain ⟨conn, hfresh, heq | heq⟩ := tcpListenInput_eq c m i (s.block lpcb).pcb.soKeepalive t.iss t.tcpTicks
            t.tcpTimerCtr
          · rw [heq]
            refine (placed_active hfresh.alive.home ?_ hfresh.alive.refused).output
            rw [show conn.pcb.state = .synRcvd from hfresh.alive.state]
            decide
          · rw [heq]
            exact placed_tcpAbandon hfresh.alive.refused
        obtain ⟨v, hrun, hv, hvelems⟩ := hreg.place (by rw [Function.update_self]; exact List.mem_cons_self) (.inl rfl)
          hplaced (fun _ => rfl) (size_le_congr helems' hfuel)
        simp only [hrun, Option.bind_some]
        exact ⟨_, v, rfl, hv, hvelems.trans helems'⟩

/-- `tcp_input` for a segment, whatever the accept callback is. -/
theorem Placed.tcpInputAccept (h : Placed conn) (hhome : conn.home = .active) (accept : AcceptFn) :
    Placed (tcpInputAccept c m accept i conn) := by
  unfold Tcp.tcpInputAccept
  split
  · exact placed_active hhome connected_established h.refused
  · exact h.tcpInput hhome

/-- `tcp_input` leaves the lists in order. -/
theorem ListInv.tcpInput (h : ListInv s nodes []) (accept : ℕ → AcceptFn) (addrs : Addrs) (i : InSeg)
    (hfuel : s.size ≤ fuel) : ∃ r s', s.tcpInput c m fuel accept addrs i = some (r, s') ∧ ListsKept s s' := by
  obtain ⟨who, t, nodes', hdemux, hserves, hlists, hreord⟩ :=
    h.lists.tcpDemux (fun l => Nat.le_trans (h.length_le l) hfuel) addrs i
  have ht := h.reorder hlists hreord
  have helems := hreord.relinked.elems_eq
  have hfuel' := size_le_congr helems hfuel
  have hmem : ∀ l b, b ∈ nodes l → b ∈ nodes' l := fun l b hb => (hreord.perm l).mem_iff.mpr hb
  simp only [Store.tcpInput, hdemux, Option.bind_eq_bind, Option.bind_some]
  cases who with
  | active a =>
      -- the segment belongs to a connection
      have ha := hmem .active a hserves.1
      have hplaced := placed_conn (ht.fits .active a ha) (ht.refused a (ht.live .active a ha) List.not_mem_nil)
      obtain ⟨u, hrun, hu, huelems⟩ := ht.place ha (.inl rfl)
        (Placed.tcpInputAccept (i := i) c m hplaced rfl (accept a)) (fun _ => rfl) hfuel'
      simp only [hrun, Option.map_some]
      exact ⟨none, u, rfl, hu, huelems.trans helems⟩
  | timeWait a =>
      -- the segment belongs to a connection in TIME_WAIT
      have ha := hmem .timeWait a hserves.2.1
      have hplaced := placed_conn_timeWait (ht.fits .timeWait a ha)
        (ht.refused a (ht.live .timeWait a ha) List.not_mem_nil)
      obtain ⟨hend, hhome⟩ := hplaced.tcpTimewaitInput (c := c) (m := m) (i := i)
      obtain ⟨u, hrun, hu, huelems⟩ := ht.place ha (.inr rfl) hend
        (fun hactive => nomatch (show Home.timeWait = .active from hhome.symm.trans hactive)) hfuel'
      simp only [hrun, Option.map_some]
      exact ⟨none, u, rfl, hu, huelems.trans helems⟩
  | listen lpcb =>
      obtain ⟨r, u, hrun, hu, huelems⟩ := ht.tcpListenInput c m lpcb addrs i hfuel'
      simp only [hrun, Option.bind_some]
      exact ⟨_, u, rfl, hu, huelems.trans helems⟩
  | rst r => exact ⟨none, t, rfl, ⟨nodes', ht⟩, helems⟩
  | discarded => exact ⟨none, t, rfl, ⟨nodes', ht⟩, helems⟩

end BareMetal.Tcp
