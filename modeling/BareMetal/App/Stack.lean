import BareMetal.Ip.Addr
import BareMetal.Tcp.ListOps
import BareMetal.Udp.Pcb

/-! # The stack that the services find

Before it starts its services, `my_lwip_init` calls `lwip_init` and adds the interface. `lwip_init` puts every element
back into its pool, whatever the lists hold: on the first call they are empty, on a later one they go on holding blocks
that are free now. The link of the free list lies over the local address of a block, so that the first element of the
pool has the address 0; `netif_add`, which sets the address of the interface to 0 before it sets the new one, aborts
that block if it is an active connection. `Found` says what is left of the lists and pools. -/

namespace BareMetal.App

open Tcp Udp

/-- The control blocks of both protocols, with the accept callbacks, and the interface. -/
structure Stack where
  tcp : Store
  /-- `pcb->accept`. -/
  accept : ℕ → Option AcceptFn
  udp : UdpStore
  /-- `lwip_netif`. -/
  netif : Ip.Netif
  netifList : ℕ
  netifDefault : ℕ

variable (c : Config) (m : Mem)

/-! ## `lwip_init` -/

/-- `memp_init` of a pool of `tcp.c`; the first word of a block is its local address. -/
def tcpMempInit (s : Store) (p : Pool) : Store :=
  let r := mempInitLoop (fun next b => { b with localIp := .ofNat next }) (s.elems p) s.block []
  { s with block := r.1, free := Function.update s.free p r.2 }

/-- `lwip_init`: of the functions it calls, `memp_init` alone writes to the blocks and their pools. -/
def lwipInit (s : Stack) : Stack :=
  { s with
    tcp := tcpMempInit (tcpMempInit s.tcp .tcpPcb) .tcpPcbListen
    udp := s.udp.mempInit }

/-! ## `netif_add` -/

/-- `NETIF_FLAG_LINK_UP`. -/
def netifFlagLinkUp : UInt8 := 0x10

/-- `NETIF_FLAG_ETHARP`. -/
def netifFlagEtharp : UInt8 := 0x20

/-- `&lwip_netif`. -/
def lwipNetif : ℕ := 1

/-- The loop of `netif_set_ipaddr` over `tcp_active_pcbs`: the connections of the old address are aborted. -/
def abortOld (fuel : ℕ) (old : UInt32) : ℕ → ℕ → Store → Option Store
  | 0, pcb, s => if pcb = 0 then some s else none
  | n + 1, pcb, s =>
      if pcb = 0 then some s
      else if (s.block pcb).localIp = old then
        let next := s.next pcb
        (s.tcpAbort c m fuel pcb).bind fun s => abortOld fuel old n next s
      else abortOld fuel old n (s.next pcb) s

/-- The loop of `netif_set_ipaddr` over `tcp_listen_pcbs`: the blocks of the old address get the new one. -/
def listenToNew (old ipaddr : UInt32) : ℕ → ℕ → Store → Option Store
  | 0, lpcb, s => if lpcb = 0 then some s else none
  | n + 1, lpcb, s =>
      if lpcb = 0 then some s
      else if ¬Ip.ipAddrIsany (s.block lpcb).localIp ∧ (s.block lpcb).localIp = old then
        listenToNew old ipaddr n (s.next lpcb) (s.onBlock lpcb fun b => { b with localIp := ipaddr })
      else listenToNew old ipaddr n (s.next lpcb) s

/-- `netif_set_ipaddr(netif, ipaddr)`. -/
def netifSetIpaddr (fuel : ℕ) (s : Stack) (ipaddr : UInt32) : Option Stack := do
  let tcp ← if ipaddr = s.netif.ipAddr then some s.tcp
    else
      (abortOld c m fuel s.netif.ipAddr fuel (s.tcp.head .active) s.tcp).bind fun tcp =>
        listenToNew s.netif.ipAddr ipaddr fuel (tcp.head .listen) tcp
  some { s with tcp, netif := { s.netif with ipAddr := ipaddr } }

/-- `netif_add(&lwip_netif, ipaddr, netmask, …, init, …)`: whether it returns the interface, and the stack. -/
def netifAdd (fuel : ℕ) (s : Stack) (ipaddr netmask : UInt32) (init : Ip.Netif → Bool × Ip.Netif) :
    Option (Bool × Stack) := do
  let s := { s with netif := { s.netif with ipAddr := 0, netmask := 0, flags := 0 } }
  let s ← netifSetIpaddr c m fuel s ipaddr
  let (ok, netif) := init { s.netif with netmask }
  if ok = false then some (false, { s with netif })
  else some (true, { s with netif := { netif with next := s.netifList }, netifList := lwipNetif })

/-- `ethernetif_init(netif)`, which returns `ERR_OK`. -/
def ethernetifInit (netif : Ip.Netif) : Bool × Ip.Netif :=
  (true, { netif with flags := Ip.netifFlagBroadcast ||| netifFlagEtharp ||| netifFlagLinkUp })

/-- `netif_set_default(&lwip_netif)`. -/
def netifSetDefault (s : Stack) : Stack := { s with netifDefault := lwipNetif }

/-- `netif_set_up(&lwip_netif)`. -/
def netifSetUp (s : Stack) : Stack :=
  if Ip.netifIsUp s.netif then s else { s with netif := { s.netif with flags := s.netif.flags ||| Ip.netifFlagUp } }

/-- `IP4_ADDR(&ip_addr, 192, 168, 1, 18)`. -/
def ipAddr : UInt32 := 0xC0A80112

/-- `IP4_ADDR(&net_mask, 255, 255, 255, 0)`. -/
def netMask : UInt32 := 0xFFFFFF00

/-- The stack behind `netif_set_up`, which `app_tcp_init` finds. -/
def foundStack (fuel : ℕ) (s : Stack) : Option Stack :=
  (netifAdd c m fuel (lwipInit s) ipAddr netMask ethernetifInit).map fun r => netifSetUp (netifSetDefault r.2)

/-! ## What it leaves -/

/-- The lists are in order, whatever the pools hold: each block is on one list and an element of the pool of that list,
and the elements of a pool are blocks of their own. -/
structure InOrder (s : Stack) (nodes : ListName → List ℕ) (unodes : List ℕ) : Prop extends Linked s.tcp nodes where
  one_list : ∀ l l' a, a ∈ nodes l → a ∈ nodes l' → l = l'
  listed_elems : ∀ l, ∀ a ∈ nodes l, a ∈ s.tcp.elems l.pool
  active_state : ∀ a ∈ nodes .active, (s.tcp.block a).pcb.state ≠ .timeWait
  pools_disjoint : ∀ p q a, a ∈ s.tcp.elems p → a ∈ s.tcp.elems q → p = q
  elems_nodup : ∀ p, (s.tcp.elems p).Nodup
  /-- An address is a word that is not 0. -/
  elems_word : ∀ p, ∀ a ∈ s.tcp.elems p, UInt32.ofNat a ≠ 0
  udp_path : Path s.udp.next s.udp.udpPcbs unodes 0
  udp_ne_null : 0 ∉ unodes
  udp_elems_ne_null : 0 ∉ s.udp.elems

/-- Lists that keep their axioms are in order. -/
theorem inOrder_of_axioms {s : Stack} {nodes : ListName → List ℕ} {unodes : List ℕ} (h : Axioms s.tcp nodes)
    (hnodup : ∀ p, (s.tcp.elems p).Nodup) (hword : ∀ p, ∀ a ∈ s.tcp.elems p, UInt32.ofNat a ≠ 0)
    (hpath : Path s.udp.next s.udp.udpPcbs unodes 0) (hnull : 0 ∉ unodes) (helems : 0 ∉ s.udp.elems) :
    InOrder s nodes unodes where
  toLinked := h.toLinked
  one_list := h.one_list
  listed_elems l a ha := (h.live l a ha).1
  active_state a ha := (h.active_state a ha).2.2
  pools_disjoint := h.pools_disjoint
  elems_nodup := hnodup
  elems_word := hword
  udp_path := hpath
  udp_ne_null := hnull
  udp_elems_ne_null := helems

/-- The block that `netif_add` aborts. -/
def abortedPcb (s : Store) (nodes : ListName → List ℕ) : Option ℕ :=
  (s.elems .tcpPcb).head?.filter (· ∈ nodes .active)

/-- The block that `tcp_new` gets: the one that was aborted, or the last element of the pool. -/
def nextPcb (s : Store) (nodes : ListName → List ℕ) : Option ℕ :=
  (abortedPcb s nodes).or (s.elems .tcpPcb).getLast?

/-- What `app_tcp_init` finds in `t` when `my_lwip_init` is called in `s`: the lists without the block that was aborted, and
full pools. -/
structure Found (s t : Stack) (nodes : ListName → List ℕ) : Prop where
  linked : Linked t.tcp (remaining nodes (abortedPcb s.tcp nodes))
  localPort : ∀ b, abortedPcb s.tcp nodes ≠ some b → (t.tcp.block b).localPort = (s.tcp.block b).localPort
  free : t.tcp.free .tcpPcb = (abortedPcb s.tcp nodes).toList ++ (s.tcp.elems .tcpPcb).reverse
  listenFree : t.tcp.free .tcpPcbListen = (s.tcp.elems .tcpPcbListen).reverse
  udp : t.udp = s.udp.mempInit

variable {s t : Store} {nodes : ListName → List ℕ} {p : Pool} {l l₁ l₂ : List ℕ} {a v fuel n : ℕ} {old : UInt32}

/-! ## The pools are refilled -/

/-- `memp_init` writes the links over the first word of the elements, not those of the lists. -/
theorem next_tcpMempInit (s : Store) (p : Pool) : (tcpMempInit s p).next = s.next :=
  funext fun _ => mempInitLoop_keeps Block.next fun _ _ => rfl

/-- The ports stay. -/
theorem localPort_tcpMempInit (s : Store) (p : Pool) (a : ℕ) :
    ((tcpMempInit s p).block a).localPort = (s.block a).localPort :=
  mempInitLoop_keeps Block.localPort fun _ _ => rfl

/-- So does the rest of a block. -/
theorem pcb_tcpMempInit (s : Store) (p : Pool) (a : ℕ) : ((tcpMempInit s p).block a).pcb = (s.block a).pcb :=
  mempInitLoop_keeps Block.pcb fun _ _ => rfl

/-- All elements of the pool are free. -/
theorem free_tcpMempInit (s : Store) (p : Pool) :
    (tcpMempInit s p).free = Function.update s.free p (s.elems p).reverse := by
  rw [tcpMempInit, mempInitLoop_tab, List.append_nil]

/-- Refilling the pools leaves the lists alone. -/
theorem linked_tcpMempInit (h : Linked s nodes) (p : Pool) : Linked (tcpMempInit s p) nodes := by
  refine ⟨fun l => ?_, h.ne_null⟩
  rw [next_tcpMempInit]
  exact h.path l

/-- The first element of a pool gets the address 0, the others do not. -/
theorem localIp_tcpMempInit (hnd : (s.elems p).Nodup) (hword : ∀ a ∈ s.elems p, UInt32.ofNat a ≠ 0)
    (ha : a ∈ s.elems p) : ((tcpMempInit s p).block a).localIp = 0 ↔ (s.elems p).head? = some a := by
  obtain ⟨v, hv, hlink⟩ : ∃ v, (tcpMempInit s p).block a = { s.block a with localIp := .ofNat v } ∧
      (((s.elems p).head? = some a ∧ v = 0) ∨ ((s.elems p).head? ≠ some a ∧ v ∈ s.elems p)) :=
    mempInitLoop_of_mem hnd ha
  rw [hv]
  rcases hlink with ⟨hhead, rfl⟩ | ⟨hne, hmem⟩
  · exact iff_of_true rfl hhead
  · exact iff_of_false (hword v hmem) hne

/-- Blocks of the other pools are not touched. -/
theorem block_tcpMempInit_of_notMem (ha : a ∉ s.elems p) : (tcpMempInit s p).block a = s.block a :=
  mempInitLoop_of_notMem ha

/-! ## The interface is added -/

/-- Connections of other addresses are not aborted. -/
theorem abortOld_of_ne (h : Path s.next a l 0) (hnull : 0 ∉ l) (hn : l.length ≤ n)
    (hne : ∀ b ∈ l, (s.block b).localIp ≠ old) : abortOld c m fuel old n a s = some s := by
  induction l generalizing a n with
  | nil =>
      obtain rfl := path_nil.mp h
      cases n <;> simp [abortOld]
  | cons x l ih =>
      obtain ⟨rfl, h⟩ := path_cons.mp h
      obtain ⟨hx, hl⟩ := not_or.mp (List.mem_cons.not.mp hnull)
      obtain ⟨n, rfl⟩ := Nat.exists_eq_add_of_lt (Nat.lt_of_lt_of_le (Nat.succ_pos _) hn)
      rw [abortOld, if_neg (Ne.symm hx), if_neg (hne a List.mem_cons_self)]
      exact ih h hl (by simpa using hn) fun b hb => hne b (List.mem_cons_of_mem a hb)

/-- The loop comes to the first connection of the old address, aborts it and goes on behind it. -/
theorem abortOld_append (h : Path s.next a (l₁ ++ v :: l₂) 0) (hnull : 0 ∉ l₁ ++ v :: l₂)
    (hn : (l₁ ++ v :: l₂).length ≤ n) (hne : ∀ b ∈ l₁, (s.block b).localIp ≠ old) (hv : (s.block v).localIp = old) :
    ∃ n', l₂.length ≤ n' ∧ abortOld c m fuel old n a s =
      (s.tcpAbort c m fuel v).bind fun t => abortOld c m fuel old n' (s.next v) t := by
  induction l₁ generalizing a n with
  | nil =>
      obtain ⟨rfl, -⟩ := path_cons.mp h
      have ha : a ≠ 0 := fun h0 => hnull (h0 ▸ List.mem_cons_self)
      obtain ⟨n, rfl⟩ := Nat.exists_eq_add_of_lt (Nat.lt_of_lt_of_le (Nat.succ_pos _) hn)
      refine ⟨0 + n, by simpa using hn, ?_⟩
      rw [abortOld, if_neg ha, if_pos hv]
  | cons x l₁ ih =>
      obtain ⟨rfl, h⟩ := path_cons.mp h
      obtain ⟨hx, hl⟩ := not_or.mp (List.mem_cons.not.mp hnull)
      obtain ⟨n, rfl⟩ := Nat.exists_eq_add_of_lt (Nat.lt_of_lt_of_le (Nat.succ_pos _) hn)
      rw [abortOld, if_neg (Ne.symm hx), if_neg (hne a List.mem_cons_self)]
      exact ih h hl (by simpa using hn) fun b hb => hne b (List.mem_cons_of_mem a hb)

/-- When only `v` has the old address, it is aborted if it is an active connection, and nothing else happens. -/
theorem abortOld_spec (h : Linked s nodes) (hone : ∀ l l' a, a ∈ nodes l → a ∈ nodes l' → l = l')
    (hstate : ∀ a ∈ nodes .active, (s.block a).pcb.state ≠ .timeWait) (hfuel : (nodes .active).length ≤ fuel)
    (evicted : Option ℕ) (hmem : ∀ v, evicted = some v → v ∈ nodes .active)
    (hold : ∀ a ∈ nodes .active, (s.block a).localIp = old ↔ evicted = some a) :
    ∃ t, abortOld c m fuel old fuel (s.head .active) s = some t ∧ Kept s t nodes evicted ∧
      t.free .tcpPcb = evicted.toList ++ s.free .tcpPcb := by
  cases evicted with
  | none =>
      refine ⟨s, abortOld_of_ne c m (h.path .active) (h.ne_null .active) hfuel fun b hb hip => ?_, kept_refl h, rfl⟩
      exact absurd ((hold b hb).mp hip) (Option.some_ne_none b).symm
  | some v =>
      have hv := hmem v rfl
      obtain ⟨l₁, l₂, hsplit⟩ := List.append_of_mem hv
      have hpath := h.path .active
      have hnull := h.ne_null .active
      have hnd := h.nodup .active
      rw [hsplit] at hpath hnull hnd hfuel
      have hother : ∀ b ∈ l₁ ++ l₂, b ≠ v ∧ (s.block b).localIp ≠ old := by
        intro b hb
        have hne : b ≠ v := by
          rintro rfl
          exact (List.nodup_cons.mp (List.perm_middle.nodup hnd)).1 hb
        have hbm : b ∈ nodes .active := by
          rw [hsplit]
          rcases List.mem_append.mp hb with hb | hb <;> simp [hb]
        exact ⟨hne, fun hip => hne (Option.some.inj ((hold b hbm).mp hip)).symm⟩
      have hlist : (if (s.block v).pcb.state == .timeWait then ListName.timeWait else .active) = .active :=
        if_neg (by simpa using hstate v hv)
      obtain ⟨t, habort, hkept, hfree⟩ := h.tcpAbort c m hlist hv (hsplit ▸ hfuel)
        fun l' hl' b hb hb' => hl' (hone _ _ b hb' hb)
      obtain ⟨n', hn', hrun⟩ := abortOld_append c m hpath hnull hfuel
        (fun b hb => (hother b (List.mem_append_left _ hb)).2) ((hold v hv).mpr rfl)
      -- behind the aborted block the list is as before
      have hrest : Path t.next (s.next v) l₂ 0 := by
        have hvl₁ : v ∉ l₁ := fun hm => (hother v (List.mem_append_left _ hm)).1 rfl
        have htail := hkept.linked.path .active
        rw [remaining, hsplit, List.erase_append_right _ hvl₁, List.erase_cons_head] at htail
        obtain ⟨d, -, hd⟩ := path_append.mp htail
        rwa [hpath.next_eq, ← hd.head_eq]
      refine ⟨t, ?_, hkept, hfree⟩
      rw [hrun, habort, Option.bind_some]
      refine abortOld_of_ne c m hrest (fun h0 => hnull (by simp [h0])) hn' fun b hb => ?_
      obtain ⟨hne, hip⟩ := hother b (List.mem_append_right _ hb)
      rwa [hkept.others b fun heq => hne (Option.some.inj heq).symm]

/-- No block listens on the address 0 of a new interface. -/
theorem listenToNew_zero {ipaddr : UInt32} (h : Path s.next a l 0) (hnull : 0 ∉ l) (hn : l.length ≤ n) :
    listenToNew 0 ipaddr n a s = some s := by
  induction l generalizing a n with
  | nil =>
      obtain rfl := path_nil.mp h
      cases n <;> simp [listenToNew]
  | cons x l ih =>
      obtain ⟨rfl, h⟩ := path_cons.mp h
      obtain ⟨hx, hl⟩ := not_or.mp (List.mem_cons.not.mp hnull)
      obtain ⟨n, rfl⟩ := Nat.exists_eq_add_of_lt (Nat.lt_of_lt_of_le (Nat.succ_pos _) hn)
      have hnot : ¬(¬Ip.ipAddrIsany (s.block a).localIp ∧ (s.block a).localIp = 0) :=
        fun hip => hip.1 (beq_iff_eq.mpr hip.2)
      rw [listenToNew, if_neg (Ne.symm hx), if_neg hnot]
      exact ih h hl (by simpa using hn)

/-- What remains on a list is no longer than it was. -/
theorem length_remaining_le (hfuel : ∀ l, (nodes l).length ≤ fuel) (evicted : Option ℕ) (l : ListName) :
    (remaining nodes evicted l).length ≤ fuel := by
  cases evicted with
  | none => exact hfuel l
  | some v => exact Nat.le_trans List.length_erase_le (hfuel l)

/-- Bringing up the interface touches no pool and no list. -/
theorem netifSetUp_eq (s : Stack) : (netifSetUp s).tcp = s.tcp ∧ (netifSetUp s).udp = s.udp := by
  rw [netifSetUp]
  split <;> exact ⟨rfl, rfl⟩

/-- `netif_add` aborts the connection whose block is the first element of the pool. -/
theorem abortedPcb_eq_some_iff : abortedPcb s nodes = some a ↔ (s.elems .tcpPcb).head? = some a ∧ a ∈ nodes .active := by
  rw [abortedPcb, Option.filter_eq_some_iff, decide_eq_true_iff]

/-- `netif_add` returns the interface, and leaves the lists and pools as `Found` says. -/
theorem netifAdd_spec {s : Stack} {unodes : List ℕ} (h : InOrder s nodes unodes)
    (hfuel : ∀ l, (nodes l).length ≤ fuel) :
    ∃ t, netifAdd c m fuel (lwipInit s) ipAddr netMask ethernetifInit = some (true, t) ∧
      foundStack c m fuel s = some (netifSetUp (netifSetDefault t)) ∧
      Found s (netifSetUp (netifSetDefault t)) nodes := by
  have hlinked : Linked (lwipInit s).tcp nodes := linked_tcpMempInit (linked_tcpMempInit h.toLinked .tcpPcb) .tcpPcbListen
  have hactive : ∀ a ∈ nodes .active, ((lwipInit s).tcp.block a).pcb.state ≠ .timeWait := by
    intro a ha
    rw [lwipInit, pcb_tcpMempInit, pcb_tcpMempInit]
    exact h.active_state a ha
  -- the link of a free element lies over `local_ip`: it is 0 for the last one only
  have hzero : ∀ a ∈ nodes .active, ((lwipInit s).tcp.block a).localIp = 0 ↔ abortedPcb s.tcp nodes = some a := by
    intro a ha
    have helem : a ∈ s.tcp.elems .tcpPcb := h.listed_elems .active a ha
    have hnot : a ∉ (tcpMempInit s.tcp .tcpPcb).elems .tcpPcbListen :=
      fun hl => absurd (h.pools_disjoint _ _ a helem hl) (by decide)
    rw [lwipInit, block_tcpMempInit_of_notMem hnot, localIp_tcpMempInit (h.elems_nodup _) (h.elems_word _) helem,
      abortedPcb_eq_some_iff]
    exact (and_iff_left ha).symm
  obtain ⟨t, habort, hkept, hfree⟩ := abortOld_spec c m hlinked h.one_list hactive (hfuel .active)
    (abortedPcb s.tcp nodes) (fun v hv => (abortedPcb_eq_some_iff.mp hv).2) hzero
  -- no listening connection has the old address, so none is looked at twice
  have hlisten : listenToNew 0 ipAddr fuel (t.head .listen) t = some t :=
    listenToNew_zero (hkept.linked.path .listen) (hkept.linked.ne_null .listen) (length_remaining_le hfuel _ .listen)
  have hne : ¬ipAddr = 0 := by decide
  obtain ⟨t', hadd, htcp, hudp⟩ : ∃ t', netifAdd c m fuel (lwipInit s) ipAddr netMask ethernetifInit = some (true, t') ∧
      t'.tcp = t ∧ t'.udp = s.udp.mempInit := by
    refine ⟨{ lwipInit s with
      tcp := t
      netif := ⟨s.netifList, ipAddr, netMask, Ip.netifFlagBroadcast ||| netifFlagEtharp ||| netifFlagLinkUp⟩
      netifList := lwipNetif }, ?_, rfl, rfl⟩
    simp only [netifAdd, netifSetIpaddr, if_neg hne, habort, hlisten, Option.bind_some, Option.bind_eq_bind]
    rfl
  obtain ⟨hup, hupUdp⟩ := netifSetUp_eq (netifSetDefault t')
  rw [show (netifSetDefault t').tcp = t from htcp] at hup
  refine ⟨t', hadd, by rw [foundStack, hadd]; rfl, ?_⟩
  constructor
  · rw [hup]
    exact hkept.linked
  · intro b hb
    rw [hup]
    refine (congrArg Block.localPort (hkept.others b hb)).trans ?_
    exact (localPort_tcpMempInit _ _ b).trans (localPort_tcpMempInit _ _ b)
  · rw [hup]
    refine hfree.trans ?_
    rw [lwipInit, free_tcpMempInit, Function.update_of_ne (by decide), free_tcpMempInit, Function.update_self]
  · rw [hup]
    refine hkept.listenPool.trans ?_
    rw [lwipInit, free_tcpMempInit, Function.update_self]
    rfl
  · exact hupUdp.trans hudp

/-- The block that `netif_add` aborts does not listen. -/
theorem InOrder.remaining_listen {s : Stack} {unodes : List ℕ} (h : InOrder s nodes unodes) :
    remaining nodes (abortedPcb s.tcp nodes) .listen = nodes .listen := by
  cases hv : abortedPcb s.tcp nodes with
  | none => rfl
  | some v =>
      refine List.erase_of_not_mem fun hl => ?_
      exact absurd (h.one_list _ _ v hl (abortedPcb_eq_some_iff.mp hv).2) (by decide)

/-- The block of `tcp_new` is an element of the pool, and does not listen. -/
theorem InOrder.nextPcb_notMem {s : Stack} {unodes : List ℕ} (h : InOrder s nodes unodes)
    (ha : nextPcb s.tcp nodes = some a) : a ∉ nodes .listen := by
  have helem : a ∈ s.tcp.elems .tcpPcb := by
    rw [nextPcb] at ha
    rcases Option.or_eq_some_iff.mp ha with ha | ⟨-, ha⟩
    · exact List.mem_of_mem_head? (abortedPcb_eq_some_iff.mp ha).1
    · exact List.mem_of_getLast? ha
  intro hl
  exact absurd (h.pools_disjoint _ _ a helem (h.listed_elems .listen a hl)) (by decide)

/-- The block of `tcp_new` is the first free one. -/
theorem Found.free_cons {s t : Stack} (h : Found s t nodes) (ha : nextPcb s.tcp nodes = some a) :
    ∃ rest, t.tcp.free .tcpPcb = a :: rest := by
  refine List.head?_eq_some_iff.mp ?_
  rw [h.free, ← ha, nextPcb]
  cases abortedPcb s.tcp nodes with
  | none => exact List.head?_reverse
  | some v => rfl

end BareMetal.App
