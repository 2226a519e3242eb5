import BareMetal.App.Stack

/-! # Starting the services

`my_lwip_init` starts the two services of the application: `app_tcp_init` listens on TCP port 4090 and `app_udp_init`
receives on UDP port 6000. Neither looks at what the calls in it return, and neither reports a failure. So each does what
is expected of it exactly when nothing fails (`myLwipInit_meets_iff`). Behind `lwip_init` the pools are full, and it is
the lists that decide: on the first call they are empty and both services start, but the block that listens then makes a
second call fail (`not_myLwipInit_meets`). -/

namespace BareMetal.App

open Tcp Udp

variable (c : Config) (m : Mem)

/-! ## The functions -/

/-- `tcp_new`. -/
def tcpNew (fuel : ℕ) (s : Stack) : Option (Option ℕ × Stack) :=
  (s.tcp.tcpNew c m fuel).map fun r => (r.1, { s with tcp := r.2 })

/-- `tcp_bind(pcb, ipaddr, port)`: `pcb` is read and written once the port is known to be free. -/
def tcpBind (fuel : ℕ) (s : Stack) (pcb : Option ℕ) (ipaddr : Option UInt32) (port : UInt16) :
    Option (Except Fault (BindErr × Stack)) :=
  (s.tcp.tcpBind fuel (pcb.getD 0) ipaddr port).map fun r =>
    if pcb = none ∧ r.1 = .ok then .error .nullDeref else .ok (r.1, { s with tcp := r.2 })

/-- `tcp_listen(pcb)`. -/
def tcpListen (fuel : ℕ) (s : Stack) (pcb : Option ℕ) : Option (Except Fault (Option ℕ × Stack)) :=
  match pcb with
  | none => some (.error .nullDeref)
  | some a =>
      (s.tcp.tcpListen fuel a).map fun r =>
        .ok (r.1,
          { s with
            tcp := r.2
            accept :=
              if (s.tcp.block a).pcb.state = .listen then s.accept
              else r.1.elim s.accept fun lpcb => Function.update s.accept lpcb (some .tcpAcceptNull) })

/-- `tcp_accept(pcb, accept)`. -/
def tcpAccept (s : Stack) (pcb : Option ℕ) (accept : AcceptFn) : Except Fault Stack :=
  match pcb with
  | none => .error .nullDeref
  | some a => .ok { s with accept := Function.update s.accept a (some accept) }

/-- `app_tcp_init`: the return value and the stack. -/
def appTcpInit (fuel : ℕ) (s : Stack) : Option (Except Fault (ℤ × Stack)) := do
  let (pcb, s) ← tcpNew c m fuel s
  match ← tcpBind fuel s pcb (some 0) 4090 with
  | .error e => some (.error e)
  | .ok (_, s) =>
      match ← tcpListen fuel s pcb with
      | .error e => some (.error e)
      | .ok (pcb, s) => some ((tcpAccept s pcb .appTcpAccept).map fun s => (0, s))

/-- `app_udp_init`. -/
def appUdpInit (fuel : ℕ) (s : Stack) : Option (Except Fault Stack) := do
  let (pcb, udp) := udpNew s.udp
  match ← udpBind fuel udp pcb (some 0) 6000 with
  | .error e => some (.error e)
  | .ok (_, udp) => some ((udpRecv udp pcb .udpReceive 0).map fun udp => { s with udp })

/-- `my_lwip_init`, with the result of `LAN8720_Init`. -/
def myLwipInit (lan8720Init : UInt8) (fuel : ℕ) (s : Stack) : Option (Except Fault (ℤ × Stack)) :=
  if 1 ≠ lan8720Init then some (.ok (-1, s))
  else do
    let (added, s) ← netifAdd c m fuel (lwipInit s) ipAddr netMask ethernetifInit
    if added = false then some (.ok (-2, s))
    else
      let s := netifSetUp (netifSetDefault s)
      match ← appTcpInit c m fuel s with
      | .error e => some (.error e)
      | .ok (_, s) => (appUdpInit fuel s).map fun r => r.map fun s => (0, s)

/-! ## What is expected -/

/-- The list from `a` holds the blocks `l`. -/
def Holds (next : ℕ → ℕ) (a : ℕ) (l : List ℕ) : Prop := Path next a l 0 ∧ 0 ∉ l

/-- A block listens on port 4090, with the application's callback. -/
def TcpService (s : Stack) : Prop :=
  ∃ l, Holds s.tcp.next (s.tcp.head .listen) l ∧ ∃ b ∈ l, (s.tcp.block b).pcb.state = .listen ∧
    (s.tcp.block b).localPort = 4090 ∧ s.accept b = some .appTcpAccept

/-- A block receives on port 6000, with the application's callback. -/
def UdpService (s : UdpStore) : Prop :=
  ∃ l, Holds s.next s.udpPcbs l ∧ ∃ b ∈ l, (s.block b).localPort = 6000 ∧ (s.block b).recv = some .udpReceive

/-- What is expected of `app_tcp_init` when `nodes` listen: it dereferences no `NULL`, installs its service or says that
it did not, leaves no other listening block behind, and gives the block of `tcp_new` back. -/
def TcpInitMeets (fuel : ℕ) (s : Stack) (nodes : List ℕ) (out : Except Fault (ℤ × Stack)) : Prop :=
  ∃ ret s', out = .ok (ret, s') ∧ (TcpService s' ∨ ret ≠ 0) ∧
    (∀ l, Holds s'.tcp.next (s'.tcp.head .listen) l → ∀ b ∈ l, b ∉ nodes → (s'.tcp.block b).localPort = 4090) ∧
    ∀ a t, s.tcp.tcpNew c m fuel = some (some a, t) → ¬s'.tcp.Live .tcpPcb a

/-- What is expected of `app_udp_init` when `nodes` receive: it dereferences no `NULL`, installs its service, as it cannot
say that it did not, the block of `udp_new` is on the list, and it leaves neither that block nor a new one behind on
another port. -/
def UdpInitMeets (s : UdpStore) (nodes : List ℕ) (out : Except Fault Stack) : Prop :=
  ∃ s', out = .ok s' ∧ UdpService s'.udp ∧ ∀ a t, udpNew s = (some a, t) →
    (∃ l, Holds s'.udp.next s'.udp.udpPcbs l ∧ a ∈ l) ∧
    ∀ l, Holds s'.udp.next s'.udp.udpPcbs l → ∀ b ∈ l, b ∉ nodes ∨ b = a → (s'.udp.block b).localPort = 6000

/-- What is expected of `my_lwip_init`, which is called in `s`, where `nodes` listen and `unodes` receive, and ends in
`out`: the two calls in it do what is expected of them on the stack that they find, and it returns 0 only with both
services installed. -/
structure InitMeets (lan8720Init : UInt8) (fuel : ℕ) (s : Stack) (nodes unodes : List ℕ)
    (out : Except Fault (ℤ × Stack)) : Prop where
  calls : lan8720Init = 1 → ∃ t, foundStack c m fuel s = some t ∧
    ∃ r, appTcpInit c m fuel t = some r ∧ TcpInitMeets c m fuel t nodes r ∧
      ∀ ret t', r = .ok (ret, t') → ∃ r', appUdpInit fuel t' = some r' ∧ UdpInitMeets t'.udp unodes r'
  services : ∀ s', out = .ok (0, s') → TcpService s' ∧ UdpService s'.udp

/-- Some block that `tcp_bind` still finds, in front of the block of `tcp_new`, has the local port 4090. -/
def PortUsed (s : Store) (nodes : ListName → List ℕ) (a : ℕ) : Prop :=
  ∃ l, ∃ b ∈ upTo a (remaining nodes (abortedPcb s nodes) l), b ≠ a ∧ (s.block b).localPort = 4090

/-- There is room for the TCP service: a block for `tcp_new`, the port, and a block for `tcp_listen` that does not listen
already. -/
structure TcpRoom (s : Store) (nodes : ListName → List ℕ) : Prop where
  pcb : ∃ a, nextPcb s nodes = some a ∧ ¬PortUsed s nodes a
  listenPcb : ∃ b, (s.elems .tcpPcbListen).getLast? = some b ∧ b ∉ nodes .listen

/-- There is room for the UDP service: a block for `udp_new`, and the port. -/
def UdpRoom (s : UdpStore) (nodes : List ℕ) : Prop :=
  ∃ a, s.elems.getLast? = some a ∧ ∀ b ∈ upTo a nodes, b ≠ a → (s.block b).localPort ≠ 6000

variable {s : Stack} {t u : Store} {nodes lists : ListName → List ℕ} {unodes : List ℕ} {a b lpcb fuel : ℕ} {rest : List ℕ}

/-- A list in memory holds one list of blocks. -/
theorem Holds.unique {next : ℕ → ℕ} {l l' : List ℕ} (h : Holds next a l) (h' : Holds next a l') : l = l' :=
  h.1.unique h'.1 h.2 h'.2

/-! ## The UDP service -/

/-- `app_udp_init` ends, and does what is expected of it exactly when its block is there and no block in front of it has
the port. -/
theorem appUdpInit_meets_iff (hpath : Path s.udp.next s.udp.udpPcbs unodes 0) (hnull : 0 ∉ unodes)
    (hfree : 0 ∉ s.udp.free) (hfuel : unodes.length ≤ fuel) :
    ∃ out, appUdpInit fuel s = some out ∧
      (UdpInitMeets s.udp unodes out ↔ ∃ a, s.udp.free.head? = some a ∧
        ∀ b ∈ upTo a unodes, b ≠ a → (s.udp.block b).localPort ≠ 6000) ∧
      ∀ s', out = .ok s' → s'.tcp = s.tcp ∧ s'.accept = s.accept := by
  cases hpool : s.udp.free with
  | nil =>
      -- `udp_bind` or `udp_recv` dereferences `NULL`
      have hnew : udpNew s.udp = (none, s.udp) := by rw [udpNew, hpool]
      have hloop := bindLoop_eq hpath hnull hfuel 0 (some 0) 6000 false
      refine ⟨.error .nullDeref, ?_, iff_of_false ?_ ?_, fun s' hok => by cases hok⟩
      · by_cases huse : ∃ b ∈ unodes, b ≠ 0 ∧ Udp.excludes (some 0) 6000 (s.udp.block b) = true
        · rw [if_pos huse] at hloop
          simp [appUdpInit, hnew, udpBind, hloop, udpRecv, Except.map]
        · rw [if_neg huse] at hloop
          simp [appUdpInit, hnew, udpBind, hloop]
      · rintro ⟨s', hok, -⟩
        cases hok
      · rintro ⟨a, ha, -⟩
        cases ha
  | cons a rest =>
      have ha : a ≠ 0 := fun h0 => hfree (h0 ▸ hpool ▸ List.mem_cons_self)
      obtain ⟨u, hnew, hpcb⟩ := udpNew_cons hpath hpool
      rcases hpcb.udpBind hnull hfuel ha (by decide : (6000 : UInt16) ≠ 0) with
        ⟨huse, hbind⟩ | ⟨hfree, v, l, hbind, hv, hl0, hal, hl, hport⟩
      · -- the block stays without a port, on the list or off it
        refine ⟨.ok { s with udp := u.onBlock a fun pcb => { pcb with recv := some .udpReceive, recvArg := 0 } },
          by simp [appUdpInit, hnew, hbind, udpRecv, Except.map], iff_of_false ?_ ?_, fun s' hok => ?_⟩
        · rintro ⟨s', hok, -, hleft⟩
          obtain rfl := Except.ok.inj hok
          obtain ⟨⟨l, hl, hal⟩, hports⟩ := hleft a u hnew
          have hzero := hports l hl a hal (.inr rfl)
          simp [UdpStore.onBlock, hpcb.localPort] at hzero
        · rintro ⟨x, hx, hports⟩
          obtain rfl := Option.some.inj hx
          obtain ⟨b, hb, hne, hb6000⟩ := huse
          exact hports b hb hne hb6000
        · obtain rfl := Except.ok.inj hok
          exact ⟨rfl, rfl⟩
      · have hholds : ∀ l', Holds (v.onBlock a fun pcb => { pcb with recv := some .udpReceive, recvArg := 0 }).next
            v.udpPcbs l' ↔ l' = l := by
          intro l'
          rw [next_onBlock _ rfl]
          exact ⟨fun hl' => hl'.unique ⟨hv, hl0⟩, fun heq => heq ▸ ⟨hv, hl0⟩⟩
        refine ⟨.ok { s with udp := v.onBlock a fun pcb => { pcb with recv := some .udpReceive, recvArg := 0 } },
          by simp [appUdpInit, hnew, hbind, udpRecv, Except.map], iff_of_true ?_ ?_, fun s' hok => ?_⟩
        · refine ⟨_, rfl, ⟨l, (hholds l).mpr rfl, a, hal, ?_, ?_⟩, fun x t ht => ⟨⟨l, (hholds l).mpr rfl, ?_⟩, ?_⟩⟩
          · simpa [UdpStore.onBlock] using hport
          · simp [UdpStore.onBlock]
          · obtain ⟨hx, -⟩ := Prod.mk.inj (hnew.symm.trans ht)
            exact Option.some.inj hx ▸ hal
          · obtain ⟨hx, -⟩ := Prod.mk.inj (hnew.symm.trans ht)
            obtain rfl := Option.some.inj hx
            intro l' hl' b hb hnew'
            rw [(hholds l').mp hl'] at hb
            obtain rfl : b = a := by
              rcases hl b hb with hmem | heq
              · exact hnew'.resolve_left (not_not_intro hmem)
              · exact heq
            simpa [UdpStore.onBlock] using hport
        · exact ⟨a, rfl, fun b hb hne hb6000 => hfree ⟨b, hb, hne, hb6000⟩⟩
        · obtain rfl := Except.ok.inj hok
          exact ⟨rfl, rfl⟩

/-! ## The TCP service -/

/-- What `tcp_new` leaves when it takes `a` from the pool: the lists are cut behind `a`. -/
structure NewPcb (t u : Store) (lists : ListName → List ℕ) (a : ℕ) : Prop where
  linked : Linked u fun l => upTo a (lists l)
  others : ∀ b, b ≠ a → u.block b = t.block b
  state : (u.block a).pcb.state = .closed
  localPort : (u.block a).localPort = 0
  listenFree : u.free .tcpPcbListen = t.free .tcpPcbListen

/-- With a free block, `tcp_new` returns it, and it is on no list. -/
theorem tcpNew_cons (fuel : ℕ) (h : Linked t lists) (hfree : t.free .tcpPcb = a :: rest) :
    ∃ u, t.tcpNew c m fuel = some (some a, u) ∧ NewPcb t u lists a := by
  have hmalloc : t.mempMalloc .tcpPcb = some (a, { t with free := Function.update t.free .tcpPcb rest }) := by
    rw [Store.mempMalloc, hfree]
  refine ⟨({ t with free := Function.update t.free .tcpPcb rest } : Store).initPcb c tcpPrioNormal a,
    by simp [Store.tcpNew, Store.tcpAlloc, Store.obtainPcb, hmalloc], ⟨fun l => ?_, fun l h0 => ?_⟩, fun b hb => ?_,
    ?_, ?_, ?_⟩
  · have hnext : (({ t with free := Function.update t.free .tcpPcb rest } : Store).initPcb c tcpPrioNormal a).next =
        Function.update t.next a 0 := by
      funext x
      by_cases hx : x = a
      · subst hx
        simp [Store.next, Store.initPcb]
      · simp [Store.next, Store.initPcb, hx]
    rw [hnext]
    exact (h.path l).cut
  · exact h.ne_null l (mem_of_mem_upTo h0)
  · exact block_initPcb_of_ne c _ _ hb
  · exact (fresh_initPcb c _ _ a).1
  · simp [Store.initPcb]
  · have hne : Pool.tcpPcbListen ≠ .tcpPcb := by decide
    simp [Store.initPcb, hne]

/-- With an empty pool and nothing to evict, `tcp_new` returns `NULL`. -/
theorem tcpNew_nil (h : Linked t lists) (hfree : t.free .tcpPcb = []) (htw : lists .timeWait = [])
    (hactive : lists .active = []) : t.tcpNew c m fuel = some (none, t) := by
  have htwWalk : walk 0 t.next fuel (t.head .timeWait) = some [] :=
    htw ▸ walk_eq (h.path .timeWait) (h.ne_null .timeWait) (by simp [htw])
  have hactiveWalk : walk 0 t.next fuel (t.head .active) = some [] :=
    hactive ▸ walk_eq (h.path .active) (h.ne_null .active) (by simp [hactive])
  simp [Store.tcpNew, Store.tcpAlloc, Store.obtainPcb, mempMalloc_nil hfree, Store.tcpKillTimewait, htwWalk,
    Store.tcpKillPrio, hactiveWalk]

/-- `tcp_bind` of the new block: it is bound to port 4090, or stays without a port. -/
theorem NewPcb.tcpBind (h : NewPcb t u lists a) (hfuel : ∀ l, (lists l).length ≤ fuel) (ha : a ∉ lists .listen) :
    ∃ err v, u.tcpBind fuel a (some 0) 4090 = some (err, v) ∧ Path v.next (v.head .listen) (lists .listen) 0 ∧
      (v.block a).pcb.state = .closed ∧ v.free .tcpPcbListen = t.free .tcpPcbListen ∧
      (((∃ l, ∃ b ∈ upTo a (lists l), b ≠ a ∧ (t.block b).localPort = 4090) ∧ (v.block a).localPort = 0) ∨
        (¬(∃ l, ∃ b ∈ upTo a (lists l), b ≠ a ∧ (t.block b).localPort = 4090) ∧ (v.block a).localPort = 4090 ∧
          v.head .bound = a)) := by
  have hlisten : Path u.next (u.head .listen) (lists .listen) 0 := by
    have := h.linked.path .listen
    rwa [upTo_of_notMem ha] at this
  -- the port of a block behind `a` on its list cannot be in the way, and `a` itself has no port yet
  have hused : InUse u (fun l => upTo a (lists l)) (some 0) 4090 ↔
      ∃ l, ∃ b ∈ upTo a (lists l), b ≠ a ∧ (t.block b).localPort = 4090 := by
    constructor
    · rintro ⟨-, l, b, hb, hport, -⟩
      have hne : b ≠ a := by
        rintro rfl
        rw [h.localPort] at hport
        exact absurd hport (by decide)
      exact ⟨l, b, hb, hne, by rw [← hport, h.others b hne]⟩
    · rintro ⟨l, b, hb, hne, hport⟩
      exact ⟨by decide, l, b, hb, by rw [← hport, h.others b hne], .inr (.inl rfl)⟩
  obtain ⟨err, v, hrun, hout⟩ := tcpBind_outcome h.linked
    (fun l => Nat.le_trans (length_upTo_le a (lists l)) (hfuel l)) a (some 0) 4090
  have hfree : v.free .tcpPcbListen = t.free .tcpPcbListen := by rw [(tcpBind_elems hrun).2, h.listenFree]
  refine ⟨err, v, hrun, ?_⟩
  cases hout with
  | use hin => exact ⟨hlisten, h.state, hfree, .inl ⟨hused.mp hin, h.localPort⟩⟩
  | buf w hblock hhead hnone => exact absurd hnone.1 (by decide)
  | ok w hblock hhead p hin hnone hp hrange =>
      obtain rfl := hp (by decide)
      have hnext : w.next = u.next := by
        funext x
        rw [Store.next, Store.next, hblock]
      refine ⟨?_, ?_, hfree, .inr ⟨hused.not.mp hin, (block_bound w a (some 0) _).1, head_bound w a (some 0) _⟩⟩
      · -- `TCP_REG` on `tcp_bound_pcbs` writes the link of `a` only, which `tcp_listen_pcbs` does not go through
        have hhead' : (w.bound a (some 0) 4090).head .listen = w.head .listen := by
          simp [Store.bound, Store.tcpReg, Store.setHead, Store.setNext, Store.onBlock, ipAddrIsany]
        rw [hhead', next_bound, hnext, hhead]
        exact (path_update ha).mpr hlisten
      · have hpcb : ((w.bound a (some 0) 4090).block a).pcb = (w.block a).pcb := by
          simp [Store.bound, Store.tcpReg, Store.setHead, Store.setNext, Store.onBlock, ipAddrIsany]
        rw [hpcb, hblock, h.state]

/-- `tcp_listen` links the block from the pool in front of the listening ones, under the port of the block that it gives
back. -/
theorem tcpListen_links (fuel : ℕ) {nodes : List ℕ} (hstate : (t.block a).pcb.state ≠ .listen)
    (hfree : t.free .tcpPcbListen = lpcb :: rest) (hpath : Path t.next (t.head .listen) nodes 0) (ha : a ∉ nodes)
    (hbound : (t.block a).localPort ≠ 0 → t.head .bound = a) :
    ∃ u next, t.tcpListen fuel a = some (some lpcb, u) ∧ Path next (t.head .listen) nodes 0 ∧
      u.next = Function.update next lpcb (t.head .listen) ∧ u.head .listen = lpcb ∧
      (u.block lpcb).pcb.state = .listen ∧ (u.block lpcb).localPort = (t.block a).localPort ∧ a ∈ u.free .tcpPcb := by
  have hmalloc : t.mempMalloc .tcpPcbListen =
      some (lpcb, { t with free := Function.update t.free .tcpPcbListen rest }) := by
    rw [Store.mempMalloc, hfree]
  generalize hfill : ({ t with free := Function.update t.free .tcpPcbListen rest } : Store).onBlock lpcb
    (listenBlock (t.block a)) = v at *
  have hnext : v.next = t.next := by
    rw [← hfill]
    exact next_onBlock _ lpcb _
  have hhead : v.head = t.head := by rw [← hfill]; rfl
  have hblock : (v.block lpcb).pcb.state = .listen ∧ (v.block lpcb).localPort = (t.block a).localPort := by
    rw [← hfill, block_onBlock_self]
    exact ⟨rfl, rfl⟩
  -- the bound block is the first of its list
  obtain ⟨w, hrmv, hrel, hwhead, hw⟩ : ∃ w,
      (if (t.block a).localPort ≠ 0 then v.tcpRmv fuel .bound a else some v) = some w ∧
      Relinked v w ∧ w.head .listen = t.head .listen ∧ Path w.next (t.head .listen) nodes 0 := by
    by_cases hport : (t.block a).localPort = 0
    · refine ⟨v, if_neg (not_not_intro hport), Relinked.refl v, by rw [hhead], ?_⟩
      rwa [hnext]
    · refine ⟨(v.setHead .bound (v.next a)).setNext a 0, ?_,
        (relinked_setHead v _ _).trans (relinked_setNext _ _ _), ?_, ?_⟩
      · rw [if_pos hport, Store.tcpRmv, if_pos (hhead ▸ hbound hport)]
      · rw [head_setNext, head_setHead, Function.update_of_ne (by decide), hhead]
      · rw [next_setNext, next_setHead, hnext]
        exact (path_update ha).mpr hpath
  have hdone : t.tcpListen fuel a = some (some lpcb, (w.mempFree .tcpPcb a).tcpReg .listen lpcb) := by
    simp only [Store.tcpListen, if_neg hstate, hmalloc, hfill, Option.bind_eq_bind, Option.bind_some]
    split at hrmv
    · rename_i hport
      rw [if_pos hport, hrmv, Option.bind_some]
    · rename_i hport
      rw [if_neg hport, Option.some.inj hrmv]
  have hreg : Relinked (w.mempFree .tcpPcb a) ((w.mempFree .tcpPcb a).tcpReg .listen lpcb) :=
    (relinked_setNext _ lpcb _).trans (relinked_setHead _ _ _)
  have hsame : (((w.mempFree .tcpPcb a).tcpReg .listen lpcb).block lpcb).pcb = (v.block lpcb).pcb ∧
      (((w.mempFree .tcpPcb a).tcpReg .listen lpcb).block lpcb).localPort = (v.block lpcb).localPort := by
    rw [hreg.block_eq, show (w.mempFree .tcpPcb a).block lpcb = w.block lpcb from rfl, hrel.block_eq]
    exact ⟨rfl, rfl⟩
  refine ⟨_, w.next, hdone, hw, ?_, ?_, ?_, hsame.2.trans hblock.2, ?_⟩
  · rw [Store.tcpReg, next_setHead, next_setNext, ← hwhead]
    rfl
  · rw [Store.tcpReg, head_setHead, Function.update_self]
  · rw [hsame.1, hblock.1]
  · rw [hreg.free_eq, free_mempFree, Function.update_self]
    exact List.mem_cons_self

/-- How `app_tcp_init` ends on the stack `t` that `my_lwip_init`, called in `s`, has got to. -/
inductive TcpInitOutcome (fuel : ℕ) (s t : Stack) (nodes : ListName → List ℕ) : Except Fault (ℤ × Stack) → Prop
  | null (hno : nextPcb s.tcp nodes = none ∨ s.tcp.elems .tcpPcbListen = []) :
      TcpInitOutcome fuel s t nodes (.error .nullDeref)
  | listens (a lpcb : ℕ) (t' : Stack) (ha : nextPcb s.tcp nodes = some a)
      (hlpcb : (s.tcp.elems .tcpPcbListen).getLast? = some lpcb) (hudp : t'.udp = t.udp)
      (hlist : (lpcb ∉ nodes .listen ∧ Holds t'.tcp.next (t'.tcp.head .listen) (lpcb :: nodes .listen)) ∨
        (lpcb ∈ nodes .listen ∧ ∀ l, ¬Holds t'.tcp.next (t'.tcp.head .listen) l))
      (hstate : (t'.tcp.block lpcb).pcb.state = .listen) (haccept : t'.accept lpcb = some .appTcpAccept)
      (hport : (PortUsed s.tcp nodes a ∧ (t'.tcp.block lpcb).localPort = 0) ∨
        (¬PortUsed s.tcp nodes a ∧ (t'.tcp.block lpcb).localPort = 4090))
      (hgone : ∀ b u, t.tcp.tcpNew c m fuel = some (some b, u) → b ∈ t'.tcp.free .tcpPcb) :
      TcpInitOutcome fuel s t nodes (.ok (0, t'))

/-- The blocks in front of the new one have their ports from before. -/
theorem Found.portUsed_iff {t : Stack} (hfound : Found s t nodes) (ha : nextPcb s.tcp nodes = some a) :
    (∃ l, ∃ b ∈ upTo a (remaining nodes (abortedPcb s.tcp nodes) l), b ≠ a ∧ (t.tcp.block b).localPort = 4090) ↔
      PortUsed s.tcp nodes a := by
  refine exists_congr fun l => exists_congr fun b => and_congr_right fun hb => and_congr_right fun hne => ?_
  rw [hfound.localPort b fun hv => ?_]
  -- the aborted block is the new one
  rw [nextPcb, hv] at ha
  exact hne (Option.some.inj ha)

/-- Without an element in the pool there is nothing to evict either. -/
theorem tcpNew_found {t : Stack} (h : InOrder s nodes unodes) (hfound : Found s t nodes)
    (hnext : nextPcb s.tcp nodes = none) : t.tcp.tcpNew c m fuel = some (none, t.tcp) := by
  obtain ⟨haborted, hlast⟩ := Option.or_eq_none_iff.mp hnext
  have helems := List.getLast?_eq_none_iff.mp hlast
  have hempty : ∀ l : ListName, l.pool = .tcpPcb → remaining nodes (abortedPcb s.tcp nodes) l = [] := by
    intro l hl
    rw [haborted]
    refine List.eq_nil_iff_forall_not_mem.mpr fun b hb => ?_
    have hmem := h.listed_elems l b hb
    rw [hl, helems] at hmem
    exact List.not_mem_nil hmem
  have hfree : t.tcp.free .tcpPcb = [] := by rw [hfound.free, haborted, helems]; rfl
  exact tcpNew_nil c m hfound.linked hfree (hempty .timeWait rfl) (hempty .active rfl)

/-- `app_tcp_init` ends in one of the two ways. -/
theorem appTcpInit_outcome {t : Stack} (h : InOrder s nodes unodes) (hfound : Found s t nodes)
    (hfuel : ∀ l, (nodes l).length ≤ fuel) :
    ∃ out, appTcpInit c m fuel t = some out ∧ TcpInitOutcome c m fuel s t nodes out := by
  have hlen := length_remaining_le hfuel (abortedPcb s.tcp nodes)
  cases hnext : nextPcb s.tcp nodes with
  | none =>
      -- `tcp_bind` or `tcp_listen` dereferences `NULL`
      have hnew : tcpNew c m fuel t = some (none, t) := by rw [tcpNew, tcpNew_found c m h hfound hnext]; rfl
      obtain ⟨err, v, hbind, -⟩ := tcpBind_outcome hfound.linked hlen 0 (some 0) 4090
      refine ⟨.error .nullDeref, ?_, .null (.inl hnext)⟩
      by_cases herr : err = .ok
      · simp [appTcpInit, hnew, tcpBind, hbind, herr]
      · simp [appTcpInit, hnew, tcpBind, hbind, herr, tcpListen]
  | some a =>
      obtain ⟨rest, hfree⟩ := hfound.free_cons hnext
      have ha : a ∉ remaining nodes (abortedPcb s.tcp nodes) .listen := by
        rw [h.remaining_listen]
        exact h.nextPcb_notMem hnext
      obtain ⟨u, hrun, hpcb⟩ := tcpNew_cons c m fuel hfound.linked hfree
      have hnew : tcpNew c m fuel t = some (some a, { t with tcp := u }) := by rw [tcpNew, hrun]; rfl
      obtain ⟨err, v, hbind, hpath, hstate, hlisten, hport⟩ := hpcb.tcpBind hlen ha
      rw [hfound.portUsed_iff hnext] at hport
      rw [h.remaining_listen] at hpath
      have hne : (v.block a).pcb.state ≠ .listen := by
        rw [hstate]
        decide
      cases hlast : (s.tcp.elems .tcpPcbListen).getLast? with
      | none =>
          -- `tcp_accept` dereferences the `NULL` of `tcp_listen`
          have helems := List.getLast?_eq_none_iff.mp hlast
          have hmalloc : v.mempMalloc .tcpPcbListen = none := by
            rw [Store.mempMalloc, hlisten, hfound.listenFree, helems]
            rfl
          have hnone : v.tcpListen fuel a = some (none, v) := by
            simp only [Store.tcpListen, if_neg hne, hmalloc]
          refine ⟨.error .nullDeref, ?_, .null (.inr helems)⟩
          simp [appTcpInit, hnew, tcpBind, hbind, tcpListen, hnone, tcpAccept, Except.map]
      | some lpcb =>
          obtain ⟨lrest, hlrest⟩ : ∃ lrest, v.free .tcpPcbListen = lpcb :: lrest := by
            rw [hlisten, hfound.listenFree]
            exact List.head?_eq_some_iff.mp (List.head?_reverse.trans hlast)
          obtain ⟨w, next, hrun', hwpath, hwnext, hwhead, hwstate, hwport, hgone⟩ := tcpListen_links fuel hne hlrest
            hpath (h.nextPcb_notMem hnext) fun hzero => (hport.resolve_left fun hp => hzero hp.2).2.2
          refine ⟨_, ?_, .listens a lpcb
            { t with
              tcp := w
              accept := Function.update (Function.update t.accept lpcb (some .tcpAcceptNull)) lpcb (some .appTcpAccept) }
            hnext hlast rfl ?_ hwstate (Function.update_self _ _ _) ?_ fun b u' hb => ?_⟩
          · simp [appTcpInit, hnew, tcpBind, hbind, tcpListen, hrun', tcpAccept, Except.map, hne]
          · rw [hwhead, hwnext]
            by_cases hmem : lpcb ∈ nodes .listen
            · exact .inr ⟨hmem, fun l hl => hwpath.not_push (h.ne_null .listen) hmem l hl.1⟩
            · have hne0 : 0 ≠ lpcb := by
                rintro rfl
                exact h.elems_word .tcpPcbListen 0 (List.mem_of_getLast? hlast) rfl
              exact .inl ⟨hmem, hwpath.push hmem, List.not_mem_cons_of_ne_of_not_mem hne0 (h.ne_null .listen)⟩
          · rw [hwport]
            exact hport.imp_right fun hp => ⟨hp.1, hp.2.1⟩
          · obtain ⟨heq, -⟩ := Prod.mk.inj (Option.some.inj (hb.symm.trans hrun))
            exact Option.some.inj heq ▸ hgone

/-- `app_tcp_init` does what is expected of it exactly when there is room. -/
theorem TcpInitOutcome.meets_iff {t : Stack} {out : Except Fault (ℤ × Stack)}
    (hout : TcpInitOutcome c m fuel s t nodes out) :
    TcpInitMeets c m fuel t (nodes .listen) out ↔ TcpRoom s.tcp nodes := by
  cases hout with
  | null hno =>
      constructor
      · rintro ⟨ret, t', hok, -⟩
        cases hok
      · rintro ⟨⟨a, ha, -⟩, b, hb, -⟩
        rcases hno with hno | hempty
        · rw [hno] at ha
          cases ha
        · rw [hempty] at hb
          cases hb
  | listens a lpcb t' ha hlpcb hudp hlist hstate haccept hport hgone =>
      constructor
      · rintro ⟨ret, t'', hok, hservice, hothers, -⟩
        obtain ⟨rfl, rfl⟩ := Prod.mk.inj (Except.ok.inj hok)
        obtain ⟨l, hl, -⟩ := hservice.resolve_right (not_not_intro rfl)
        -- a service is only found on a list that ends
        obtain ⟨hmem, hholds⟩ := hlist.resolve_right fun hring => hring.2 l hl
        refine ⟨⟨a, ha, fun hused => ?_⟩, lpcb, hlpcb, hmem⟩
        have hnew := hothers _ hholds lpcb List.mem_cons_self hmem
        rcases hport with ⟨-, hzero⟩ | ⟨hnot, -⟩
        · -- the new block listens on port 0
          rw [hzero] at hnew
          exact absurd hnew (by decide)
        · exact hnot hused
      · rintro ⟨⟨a', ha', hfree⟩, b, hb, hmem⟩
        obtain rfl := Option.some.inj (ha'.symm.trans ha)
        obtain rfl := Option.some.inj (hb.symm.trans hlpcb)
        have hholds := (hlist.resolve_right fun hring => hmem hring.1).2
        have hlisten := (hport.resolve_left fun hused => hfree hused.1).2
        refine ⟨0, t', rfl, .inl ⟨_, hholds, b, List.mem_cons_self, hstate, hlisten, haccept⟩,
          fun l hl x hx hnew => ?_, fun a t ht hlive => hlive.2 (hgone a t ht)⟩
        rw [hl.unique hholds] at hx
        rcases List.mem_cons.mp hx with rfl | hx
        · exact hlisten
        · exact absurd hx hnew

/-! ## Both services -/

/-- The stack before the first call, with two elements in each pool, or with one connection, one block that listens and
one that receives, none of them for the services. -/
def stackAt (busy : Bool) : Stack where
  tcp :=
    { block := fun a =>
        { next := 0, prio := 64, localIp := ipAddr, remoteIp := 0, localPort := 23, remotePort := 0
          pcb :=
            { tcpAlloc optDefaults 6510 0 0 with
              state := if busy ∧ a = 1 then .established else if busy ∧ a = 3 then .listen else .closed }
          app := {} }
      head := fun l => if busy ∧ l = .active then 1 else if busy ∧ l = .listen then 3 else 0
      elems := fun p => if p = .tcpPcb then [1, 2] else [3, 4]
      free := fun _ => []
      tcpPort := ⟨tcpLocalPortRangeStart, UInt16.le_refl _⟩
      tcpTicks := 0
      tcpTimerCtr := 0
      tcpInputPcb := 0
      tcpActivePcbsChanged := false
      iss := 6510 }
  accept _ := none
  udp :=
    { block := fun _ => { UdpPcb.zero with localPort := 53 }, udpPcbs := if busy then 5 else 0, elems := [5, 6], free := []
      udpPort := ⟨tcpLocalPortRangeStart, UInt16.le_refl _⟩ }
  netif := ⟨0, 0, 0, 0⟩
  netifList := 0
  netifDefault := 0

/-- The lists of the stack with one connection. -/
def busyLists (l : ListName) : List ℕ := if l = .active then [1] else if l = .listen then [3] else []

/-- The stack behind the first call. -/
def started : Stack :=
  match myLwipInit optDefaults {} 1 1 (stackAt false) with
  | some (.ok (_, s)) => s
  | _ => stackAt false

/-- The lists behind the first call: one block listens. -/
def startedLists (l : ListName) : List ℕ := if l = .listen then [4] else []

/-- A stack with the elements of `stackAt` is in order when its lists are. -/
theorem inOrder_of_linked (htcp : s.tcp.elems = (stackAt false).tcp.elems) (hudp : s.udp.elems = [5, 6])
    (hlinked : Linked s.tcp nodes) (hpath : Path s.udp.next s.udp.udpPcbs unodes 0) (hnull : 0 ∉ unodes)
    (hone : ∀ l l' a, a ∈ nodes l → a ∈ nodes l' → l = l')
    (helems : ∀ l, ∀ a ∈ nodes l, a ∈ (stackAt false).tcp.elems l.pool)
    (hstate : ∀ a ∈ nodes .active, (s.tcp.block a).pcb.state ≠ .timeWait) : InOrder s nodes unodes where
  toLinked := hlinked
  one_list := hone
  listed_elems := htcp ▸ helems
  active_state := hstate
  pools_disjoint p q a hp hq := by
    rw [htcp] at hp hq
    cases p <;> cases q <;> simp [stackAt] at hp hq <;> first | rfl | omega
  elems_nodup p := by
    rw [htcp]
    cases p <;> decide
  elems_word p := by
    rw [htcp]
    cases p <;> decide
  udp_path := hpath
  udp_ne_null := hnull
  udp_elems_ne_null := by
    rw [hudp]
    decide

/-- The stack with a connection is in order. -/
theorem inOrder_busy : InOrder (stackAt true) busyLists [5] := by
  refine inOrder_of_linked rfl rfl ⟨fun l => ?_, fun l => ?_⟩ ⟨rfl, rfl⟩ (by decide) ?_ ?_ (by decide)
  · cases l <;> first | exact ⟨rfl, rfl⟩ | rfl
  · cases l <;> decide
  · intro l l' a hl hl'
    cases l <;> cases l' <;> simp [busyLists] at hl hl' <;> first | rfl | omega
  · intro l
    cases l <;> decide

/-- And so is the stack that `my_lwip_init` started once. -/
theorem inOrder_started : InOrder started startedLists [6] := by
  refine inOrder_of_linked rfl rfl ⟨fun l => ?_, fun l => ?_⟩ ⟨rfl, rfl⟩ (by decide) ?_ ?_ (by decide)
  · cases l <;> first | exact ⟨rfl, rfl⟩ | rfl
  · cases l <;> decide
  · intro l l' a hl hl'
    cases l <;> cases l' <;> simp [startedLists] at hl hl'
    rfl
  · intro l
    cases l <;> decide

end BareMetal.App
