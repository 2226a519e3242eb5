import BareMetal.Memory.MempLists
import BareMetal.Tcp.Bind

/-! # The control blocks of UDP

`udp_new`, `udp_bind` and `udp_recv` of `udp.c`, on the list `udp_pcbs`. The functions do not check their argument for
`NULL`; where they read or write through it, they end in `nullDeref`. -/

namespace BareMetal.Udp

open Tcp (BindErr LocalPort ipAddrIsany tcpNewPortLoop)

/-- What becomes of a program that reads or writes through `NULL`. -/
inductive Fault
  | nullDeref
  deriving DecidableEq, Repr

/-- The functions that `pcb->recv` can point to. -/
inductive UdpRecvFn
  | udpReceive
  deriving DecidableEq, Repr

/-- `struct udp_pcb`. -/
structure UdpPcb where
  next : ℕ
  localIp : UInt32
  remoteIp : UInt32
  ttl : UInt8
  localPort : UInt16
  remotePort : UInt16
  recv : Option UdpRecvFn
  recvArg : ℕ
  deriving DecidableEq, Repr

/-- `memset(pcb, 0, sizeof(struct udp_pcb))`. -/
def UdpPcb.zero : UdpPcb where
  next := 0
  localIp := 0
  remoteIp := 0
  ttl := 0
  localPort := 0
  remotePort := 0
  recv := none
  recvArg := 0

/-- The control blocks, `udp_pcbs`, `udp_port` and the pool `MEMP_UDP_PCB`. -/
structure UdpStore where
  block : ℕ → UdpPcb
  udpPcbs : ℕ
  /-- The elements of the pool, in the order of their addresses. -/
  elems : List ℕ
  free : List ℕ
  udpPort : LocalPort

def UdpStore.next (s : UdpStore) (a : ℕ) : ℕ := (s.block a).next

/-- Change a control block. -/
def UdpStore.onBlock (s : UdpStore) (a : ℕ) (f : UdpPcb → UdpPcb) : UdpStore :=
  { s with block := Function.update s.block a (f (s.block a)) }

/-- `memp_init` of `MEMP_UDP_PCB`; the first word of a block is its local address. -/
def UdpStore.mempInit (s : UdpStore) : UdpStore :=
  let r := mempInitLoop (fun next pcb => { pcb with localIp := .ofNat next }) s.elems s.block []
  { s with block := r.1, free := r.2 }

/-- `UDP_TTL`. -/
def udpTtl : UInt8 := 255

/-- `udp_new`. -/
def udpNew (s : UdpStore) : Option ℕ × UdpStore :=
  match s.free with
  | [] => (none, s)
  | a :: rest => (some a, { s with free := rest }.onBlock a fun _ => { UdpPcb.zero with ttl := udpTtl })

/-- `ipcb` excludes a binding to `ipaddr` and `port`. -/
def excludes (ipaddr : Option UInt32) (port : UInt16) (ipcb : UdpPcb) : Bool :=
  ipcb.localPort == port &&
    (ipAddrIsany (some ipcb.localIp) || ipAddrIsany ipaddr || ipcb.localIp == ipaddr.getD 0)

/-- The loop of `udp_bind`: `rebind` behind it, or `none` for its `return ERR_USE`. -/
def bindLoop (s : UdpStore) (pcb : ℕ) (ipaddr : Option UInt32) (port : UInt16) :
    ℕ → ℕ → Bool → Option (Option Bool)
  | 0, ipcb, rebind => if ipcb = 0 then some (some rebind) else none
  | fuel + 1, ipcb, rebind =>
      if ipcb = 0 then some (some rebind)
      else if pcb = ipcb then bindLoop s pcb ipaddr port fuel (s.next ipcb) true
      else if excludes ipaddr port (s.block ipcb) then some none
      else bindLoop s pcb ipaddr port fuel (s.next ipcb) rebind

/-- `udp_new_port`. -/
def udpNewPort (fuel : ℕ) (s : UdpStore) : Option (UInt16 × LocalPort) :=
  tcpNewPortLoop
    (fun port => (findNode 0 s.next (fun a => (s.block a).localPort == port) fuel s.udpPcbs).map Option.isSome)
    0x4000 s.udpPort

/-- `udp_bind` behind its loop. -/
def bindTo (fuel : ℕ) (s : UdpStore) (a : ℕ) (ipaddr : Option UInt32) (port : UInt16) (rebind : Bool) :
    Option (BindErr × UdpStore) := do
  let s := s.onBlock a fun pcb => { pcb with localIp := ipaddr.getD 0 }
  let (port, udpPort) ← if port = 0 then udpNewPort fuel s else some (port, s.udpPort)
  let s := { s with udpPort := udpPort }
  if port = 0 then some (.use, s)
  else
    let s := s.onBlock a fun pcb => { pcb with localPort := port }
    if rebind then some (.ok, s)
    else some (.ok, { s.onBlock a fun pcb => { pcb with next := s.udpPcbs } with udpPcbs := a })

/-- `udp_bind(pcb, ipaddr, port)`. -/
def udpBind (fuel : ℕ) (s : UdpStore) (pcb : Option ℕ) (ipaddr : Option UInt32) (port : UInt16) :
    Option (Except Fault (BindErr × UdpStore)) := do
  match ← bindLoop s (pcb.getD 0) ipaddr port fuel s.udpPcbs false with
  | none => some (.ok (.use, s))
  | some rebind =>
      match pcb with
      | none => some (.error .nullDeref)
      | some a => (bindTo fuel s a ipaddr port rebind).map .ok

/-- `udp_recv(pcb, recv, recv_arg)`. -/
def udpRecv (s : UdpStore) (pcb : Option ℕ) (recv : UdpRecvFn) (recvArg : ℕ) : Except Fault UdpStore :=
  match pcb with
  | none => .error .nullDeref
  | some a => .ok (s.onBlock a fun pcb => { pcb with recv := some recv, recvArg := recvArg })

variable {s : UdpStore} {nodes : List ℕ} {pcb fuel : ℕ} {ipaddr : Option UInt32} {port : UInt16}

/-- Writing a field other than the link leaves the list alone. -/
theorem next_onBlock (s : UdpStore) {a : ℕ} {f : UdpPcb → UdpPcb} (hf : (f (s.block a)).next = (s.block a).next) :
    (s.onBlock a f).next = s.next := by
  funext x
  by_cases hx : x = a
  · subst hx
    simpa [UdpStore.next, UdpStore.onBlock] using hf
  · simp [UdpStore.next, UdpStore.onBlock, hx]

/-- `memp_init` writes links of the pool, not of `udp_pcbs`. -/
theorem next_mempInit (s : UdpStore) : s.mempInit.next = s.next :=
  funext fun _ => mempInitLoop_keeps UdpPcb.next fun _ _ => rfl

/-- The link of a free element lies over the first word; the port is behind it. -/
theorem localPort_mempInit (s : UdpStore) (a : ℕ) : (s.mempInit.block a).localPort = (s.block a).localPort :=
  mempInitLoop_keeps UdpPcb.localPort fun _ _ => rfl

/-- The pool hands out the last element first. -/
theorem free_mempInit (s : UdpStore) : s.mempInit.free = s.elems.reverse :=
  mempInitLoop_tab.trans (List.append_nil _)

/-- The loop sees every block of the list, or stops at one that excludes the binding. -/
theorem bindLoop_eq {a : ℕ} (h : Path s.next a nodes 0) (hnull : 0 ∉ nodes) (hfuel : nodes.length ≤ fuel)
    (pcb : ℕ) (ipaddr : Option UInt32) (port : UInt16) (rebind : Bool) :
    bindLoop s pcb ipaddr port fuel a rebind =
      some (if ∃ b ∈ nodes, b ≠ pcb ∧ excludes ipaddr port (s.block b) = true then none
        else some (rebind || decide (pcb ∈ nodes))) := by
  induction nodes generalizing a fuel rebind with
  | nil =>
      obtain rfl := path_nil.mp h
      cases fuel <;> simp [bindLoop]
  | cons x l ih =>
      obtain ⟨rfl, h⟩ := path_cons.mp h
      obtain ⟨hne, hl⟩ := not_or.mp (List.mem_cons.not.mp hnull)
      obtain ⟨fuel, rfl⟩ := Nat.exists_eq_add_of_lt (Nat.lt_of_lt_of_le (Nat.succ_pos _) hfuel)
      have hlen : l.length ≤ 0 + fuel := by simpa using hfuel
      rw [bindLoop, if_neg (Ne.symm hne)]
      by_cases hpa : pcb = a
      · subst hpa
        rw [if_pos rfl, ih h hl hlen]
        simp
      · rw [if_neg hpa]
        cases hex : excludes ipaddr port (s.block a) with
        | true => simp [Ne.symm hpa, hex]
        | false =>
            rw [if_neg Bool.false_ne_true, ih h hl hlen]
            simp [hex, hpa]

/-- With ANY for an address, a block excludes the binding by its port alone. -/
theorem excludes_any_iff (hany : ipaddr.getD 0 = 0) (ipcb : UdpPcb) :
    excludes ipaddr port ipcb = true ↔ ipcb.localPort = port := by
  simp [excludes, ipAddrIsany, hany]

/-- What `udp_new` leaves when it takes `a` from the pool: the list is cut behind `a`. -/
structure NewUdpPcb (s u : UdpStore) (nodes : List ℕ) (a : ℕ) : Prop where
  path : Path u.next u.udpPcbs (upTo a nodes) 0
  others : ∀ b, b ≠ a → u.block b = s.block b
  localPort : (u.block a).localPort = 0

/-- With a free block, `udp_new` returns it, and it is on no list. -/
theorem udpNew_cons {a : ℕ} {rest : List ℕ} (hpath : Path s.next s.udpPcbs nodes 0) (hfree : s.free = a :: rest) :
    ∃ u, udpNew s = (some a, u) ∧ NewUdpPcb s u nodes a := by
  refine ⟨({ s with free := rest } : UdpStore).onBlock a fun _ => { UdpPcb.zero with ttl := udpTtl },
    by rw [udpNew, hfree], ?_, fun b hb => Function.update_of_ne hb _ _, ?_⟩
  · have hnext : (({ s with free := rest } : UdpStore).onBlock a fun _ => { UdpPcb.zero with ttl := udpTtl }).next =
        Function.update s.next a 0 := by
      funext x
      by_cases hx : x = a
      · subst hx
        simp [UdpStore.next, UdpStore.onBlock, UdpPcb.zero]
      · simp [UdpStore.next, UdpStore.onBlock, hx]
    rw [hnext]
    exact hpath.cut
  · simp [UdpStore.onBlock, UdpPcb.zero]

/-- Binding the new block to a port goes through unless a block in front of it on the list has the port: it is on the
list then, under the port. -/
theorem NewUdpPcb.udpBind {u : UdpStore} {a : ℕ} (h : NewUdpPcb s u nodes a) (hnull : 0 ∉ nodes)
    (hfuel : nodes.length ≤ fuel) (ha : a ≠ 0) (hport : port ≠ 0) :
    ((∃ b ∈ upTo a nodes, b ≠ a ∧ (s.block b).localPort = port) ∧
        udpBind fuel u (some a) (some 0) port = some (.ok (.use, u))) ∨
      ((¬∃ b ∈ upTo a nodes, b ≠ a ∧ (s.block b).localPort = port) ∧
        ∃ v l, udpBind fuel u (some a) (some 0) port = some (.ok (.ok, v)) ∧ Path v.next v.udpPcbs l 0 ∧ 0 ∉ l ∧
          a ∈ l ∧ (∀ b ∈ l, b ∈ nodes ∨ b = a) ∧ (v.block a).localPort = port) := by
  have hnull' : 0 ∉ upTo a nodes := fun h0 => hnull (mem_of_mem_upTo h0)
  have hloop := bindLoop_eq h.path hnull' (Nat.le_trans (length_upTo_le a nodes) hfuel) a (some 0) port false
  have hused : (∃ b ∈ upTo a nodes, b ≠ a ∧ excludes (some 0) port (u.block b) = true) ↔
      ∃ b ∈ upTo a nodes, b ≠ a ∧ (s.block b).localPort = port := by
    refine exists_congr fun b => and_congr_right fun _ => and_congr_right fun hb => ?_
    rw [excludes_any_iff rfl, h.others b hb]
  by_cases huse : ∃ b ∈ upTo a nodes, b ≠ a ∧ (s.block b).localPort = port
  · refine .inl ⟨huse, ?_⟩
    rw [if_pos (hused.mpr huse)] at hloop
    simp [Udp.udpBind, hloop]
  · refine .inr ⟨huse, ?_⟩
    rw [if_neg (hused.not.mpr huse), Bool.false_or] at hloop
    by_cases hmem : a ∈ nodes
    · -- the block is the last one of the list already
      have hbind : Udp.udpBind fuel u (some a) (some 0) port = some (.ok (.ok,
          (u.onBlock a fun pcb => { pcb with localIp := 0 }).onBlock a fun pcb => { pcb with localPort := port })) := by
        rw [decide_eq_true (mem_upTo_self hmem)] at hloop
        simp [Udp.udpBind, hloop, bindTo, hport]
      refine ⟨_, upTo a nodes, hbind, ?_, hnull', mem_upTo_self hmem, fun b hb => .inl (mem_of_mem_upTo hb), ?_⟩
      · rw [next_onBlock _ rfl, next_onBlock _ rfl]
        exact h.path
      · simp [UdpStore.onBlock]
    · -- the block comes in front of the list
      have hbind : Udp.udpBind fuel u (some a) (some 0) port = some (.ok (.ok,
          { u.onBlock a fun pcb => { pcb with localIp := 0, localPort := port, next := u.udpPcbs } with
            udpPcbs := a })) := by
        rw [decide_eq_false fun hm => hmem (mem_of_mem_upTo hm)] at hloop
        simp [Udp.udpBind, hloop, bindTo, hport, UdpStore.onBlock, Function.update_idem]
      have hpath := h.path
      rw [upTo_of_notMem hmem] at hpath
      refine ⟨_, a :: nodes, hbind, ?_, List.not_mem_cons_of_ne_of_not_mem (Ne.symm ha) hnull, List.mem_cons_self,
        fun b hb => (List.mem_cons.mp hb).symm, ?_⟩
      · refine (path_congr fun x _ => ?_).mp (hpath.push hmem)
        by_cases hx : x = a
        · subst hx
          simp [UdpStore.next, UdpStore.onBlock]
        · simp [UdpStore.next, UdpStore.onBlock, hx]
      · simp [UdpStore.onBlock]

end BareMetal.Udp
