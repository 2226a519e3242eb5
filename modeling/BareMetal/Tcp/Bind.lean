import Mathlib.Logic.Function.Iterate
import BareMetal.Tcp.Ownership
import BareMetal.Tcp.PcbLists

/-! # Binding a control block

`tcp_bind` and `tcp_new_port` of `tcp.c`. The port counter runs through its range and comes back to the
start, so the search for a free port sees every port of the range before it gives up
(`tcpNewPort_spec`). `tcp_bind` keeps its contract exactly for a block that is closed and, if the binding
goes through, unbound and without an address that the new binding does not set (`tcpBind_meets_iff`). -/

namespace BareMetal.Tcp

/-- The results of `tcp_bind`. -/
inductive BindErr
  | ok
  | buf
  | use
  | val
  deriving DecidableEq, Repr

/-! ## The port counter -/

/-- `if (tcp_port++ == TCP_LOCAL_PORT_RANGE_END) tcp_port = TCP_LOCAL_PORT_RANGE_START;` -/
def LocalPort.next (p : LocalPort) : LocalPort :=
  if h : p.1 = tcpLocalPortRangeEnd then ⟨tcpLocalPortRangeStart, UInt16.le_refl _⟩
  else ⟨p.1 + 1, by
    have hp := UInt16.le_iff_toNat_le.mp p.2
    have hne : p.1.toNat ≠ 0xFFFF := fun heq => h (UInt16.toNat_inj.mp heq)
    have hlt := p.1.toNat_lt
    rw [UInt16.le_iff_toNat_le, UInt16.toNat_add]
    simp only [tcpLocalPortRangeStart, UInt16.reduceToNat] at hp ⊢
    omega⟩

/-- The place of a port in its range. -/
def LocalPort.offset (p : LocalPort) : ℕ := p.1.toNat - 0xC000

/-- A local port, counted from the first one. -/
theorem LocalPort.toNat_eq (p : LocalPort) : p.1.toNat = 0xC000 + p.offset := by
  have hp := UInt16.le_iff_toNat_le.mp p.2
  exact (Nat.add_sub_of_le hp).symm

/-- There are 0x4000 local ports. -/
theorem LocalPort.offset_lt (p : LocalPort) : p.offset < 0x4000 := by
  have hlt := p.1.toNat_lt
  have := p.toNat_eq
  omega

/-- They are told apart by their place in the range. -/
theorem LocalPort.offset_inj {p q : LocalPort} (h : p.offset = q.offset) : p = q := by
  apply Subtype.ext
  rw [← UInt16.toNat_inj, p.toNat_eq, q.toNat_eq, h]

/-- The counter goes round in the range. -/
theorem LocalPort.offset_next (p : LocalPort) : p.next.offset = (p.offset + 1) % 0x4000 := by
  have hp := p.toNat_eq
  have hlt := p.offset_lt
  by_cases hend : p.1 = tcpLocalPortRangeEnd
  · -- the counter goes back to the start of the range
    have hnext : p.next = ⟨tcpLocalPortRangeStart, UInt16.le_refl _⟩ := dif_pos hend
    have hvalue : p.1.toNat = 0xFFFF := congrArg UInt16.toNat hend
    have hoffset : p.offset + 1 = 0x4000 := by omega
    rw [hnext, hoffset, Nat.mod_self]
    decide
  · have hne : p.1.toNat ≠ 0xFFFF := fun heq => hend (UInt16.toNat_inj.mp heq)
    have hnext : p.next.1 = p.1 + 1 := congrArg Subtype.val (dif_neg hend)
    have hvalue : p.next.1.toNat = p.1.toNat + 1 := by
      rw [hnext, UInt16.toNat_add]
      exact Nat.mod_eq_of_lt (by simp; omega)
    have := p.next.toNat_eq
    rw [Nat.mod_eq_of_lt (by omega)]
    omega

/-- Going on, the range begins again at its end. -/
theorem LocalPort.offset_iterate_next (p : LocalPort) (i : ℕ) :
    (LocalPort.next^[i] p).offset = (p.offset + i) % 0x4000 := by
  induction i with
  | zero =>
      rw [Function.iterate_zero_apply, Nat.add_zero, Nat.mod_eq_of_lt p.offset_lt]
  | succ i ih =>
      rw [Function.iterate_succ_apply', LocalPort.offset_next, ih]
      omega

/-- Within one round of the range the counter comes to every port. -/
theorem LocalPort.exists_iterate_next (p q : LocalPort) : ∃ i < 0x4000, LocalPort.next^[i + 1] p = q := by
  have hp := p.offset_lt
  have hq := q.offset_lt
  refine ⟨(q.offset + 0x4000 - p.offset - 1) % 0x4000, Nat.mod_lt _ (by decide), ?_⟩
  apply LocalPort.offset_inj
  rw [LocalPort.offset_iterate_next]
  omega

/-- The loop of `tcp_new_port`, with the number of collisions that are left before it gives up; the port,
0 for none, and the counter. -/
def tcpNewPortLoop (used : UInt16 → Option Bool) : ℕ → LocalPort → Option (UInt16 × LocalPort)
  | 0, tcpPort => some (0, tcpPort)
  | n + 1, tcpPort => do
      let tcpPort := tcpPort.next
      if ← used tcpPort.1 then tcpNewPortLoop used n tcpPort else some (tcpPort.1, tcpPort)

/-- `tcp_new_port`. -/
def Store.tcpNewPort (fuel : ℕ) (s : Store) : Option (UInt16 × LocalPort) :=
  tcpNewPortLoop (fun port => s.anyListed fuel (fun cpcb => cpcb.localPort == port) tcpPcbLists)
    (tcpLocalPortRangeEnd - tcpLocalPortRangeStart + 1).toNat s.tcpPort

/-- The loop returns a free port, or has seen `n` ports in use. -/
theorem tcpNewPortLoop_spec {used : UInt16 → Option Bool} {Used : UInt16 → Prop}
    (hused : ∀ port, ∃ b, used port = some b ∧ (b = true ↔ Used port)) (n : ℕ) (p : LocalPort) :
    ∃ port q, tcpNewPortLoop used n p = some (port, q) ∧
      ((port = 0 ∧ ∀ i < n, Used (LocalPort.next^[i + 1] p).1) ∨
        (tcpLocalPortRangeStart ≤ port ∧ ¬Used port)) := by
  induction n generalizing p with
  | zero => exact ⟨0, p, rfl, .inl ⟨rfl, fun i hi => absurd hi (Nat.not_lt_zero i)⟩⟩
  | succ n ih =>
      obtain ⟨b, hb, hiff⟩ := hused p.next.1
      cases b with
      | false =>
          refine ⟨p.next.1, p.next, ?_, .inr ⟨p.next.2, fun h => Bool.false_ne_true (hiff.mpr h)⟩⟩
          simp [tcpNewPortLoop, hb]
      | true =>
          obtain ⟨port, q, hrun, hport⟩ := ih p.next
          refine ⟨port, q, ?_, hport.imp_left ?_⟩
          · simp [tcpNewPortLoop, hb, hrun]
          · rintro ⟨h0, hall⟩
            refine ⟨h0, fun i hi => ?_⟩
            cases i with
            | zero => exact hiff.mp rfl
            | succ i => exact hall i (Nat.lt_of_succ_lt_succ hi)

/-! ## Binding -/

/-- The local port and address of `cpcb` exclude a binding to `ipaddr` and `port`. -/
def excludes (ipaddr : Option UInt32) (port : UInt16) (cpcb : Block) : Bool :=
  cpcb.localPort == port &&
    (ipAddrIsany (some cpcb.localIp) || ipAddrIsany ipaddr || cpcb.localIp == ipaddr.getD 0)

/-- `tcp_bind` from the search of the lists on. -/
def Store.bindTo (fuel : ℕ) (s : Store) (a : ℕ) (ipaddr : Option UInt32) (port : UInt16) :
    Option (BindErr × Store) := do
  if ← s.anyListed fuel (excludes ipaddr port) tcpPcbLists then some (.use, s)
  else
    let s := if ipAddrIsany ipaddr then s
      else s.onBlock a fun pcb => { pcb with localIp := ipaddr.getD 0 }
    let s := s.onBlock a fun pcb => { pcb with localPort := port }
    some (.ok, s.tcpReg .bound a)

/-- `tcp_bind(pcb, ipaddr, port)`. -/
def Store.tcpBind (fuel : ℕ) (s : Store) (a : ℕ) (ipaddr : Option UInt32) (port : UInt16) :
    Option (BindErr × Store) :=
  if port = 0 then do
    let (newPort, tcpPort) ← s.tcpNewPort fuel
    let s := { s with tcpPort := tcpPort }
    if newPort = 0 then some (.buf, s) else s.bindTo fuel a ipaddr newPort
  else s.bindTo fuel a ipaddr port

/-- A listed block has the local port `port`. -/
def Used (s : Store) (nodes : ListName → List ℕ) (port : UInt16) : Prop :=
  ∃ l, ∃ b ∈ nodes l, (s.block b).localPort = port

/-- A listed block has the requested port, and either address is ANY or the addresses are equal. -/
def InUse (s : Store) (nodes : ListName → List ℕ) (ipaddr : Option UInt32) (port : UInt16) : Prop :=
  port ≠ 0 ∧ ∃ l, ∃ b ∈ nodes l, (s.block b).localPort = port ∧
    ((s.block b).localIp = 0 ∨ ipaddr.getD 0 = 0 ∨ (s.block b).localIp = ipaddr.getD 0)

/-- A port is asked for, and none is free. -/
def NoneFree (s : Store) (nodes : ListName → List ℕ) (port : UInt16) : Prop :=
  port = 0 ∧ ∀ p, tcpLocalPortRangeStart ≤ p → Used s nodes p

/-- The block `a` was put in front of `tcp_bound_pcbs`, under its port and address. -/
structure Registered (s' : Store) (nodes : ListName → List ℕ) (a : ℕ) (ip : UInt32) (port : UInt16) : Prop where
  path : Path s'.next (s'.head .bound) (a :: nodes .bound) 0
  localIp : (s'.block a).localIp = ip
  localPort : (s'.block a).localPort = port

/-- What the comment of `tcp_bind` says. -/
structure BindContract (s : Store) (nodes : ListName → List ℕ) (a : ℕ) (ipaddr : Option UInt32) (port : UInt16)
    (err : BindErr) (s' : Store) : Prop where
  val : (s.block a).pcb.state ≠ .closed → err = .val
  use : (s.block a).pcb.state = .closed → (err = .use ↔ InUse s nodes ipaddr port)
  buf : (s.block a).pcb.state = .closed → (err = .buf ↔ NoneFree s nodes port)
  ok : (s.block a).pcb.state = .closed → ¬InUse s nodes ipaddr port → ¬NoneFree s nodes port →
    err = .ok ∧ ∃ p, (port ≠ 0 → p = port) ∧ (port = 0 → tcpLocalPortRangeStart ≤ p ∧ ¬Used s nodes p) ∧
      Registered s' nodes a (ipaddr.getD 0) p
  unchanged : err ≠ .ok → s'.block = s.block ∧ s'.head = s.head

variable {ipaddr : Option UInt32} {port : UInt16} {s' : Store}

/-- The store that a binding leaves. -/
def Store.bound (s : Store) (a : ℕ) (ipaddr : Option UInt32) (port : UInt16) : Store :=
  Store.tcpReg (Store.onBlock
    (if ipAddrIsany ipaddr then s else s.onBlock a fun pcb => { pcb with localIp := ipaddr.getD 0 })
    a fun pcb => { pcb with localPort := port }) .bound a

/-- The test of `tcp_bind` for a block with the port. -/
theorem excludes_iff (cpcb : Block) :
    excludes ipaddr port cpcb = true ↔ cpcb.localPort = port ∧
      (cpcb.localIp = 0 ∨ ipaddr.getD 0 = 0 ∨ cpcb.localIp = ipaddr.getD 0) := by
  simp [excludes, ipAddrIsany, or_assoc]

/-- `TCP_REG` writes the link of the new block. -/
theorem next_bound (s : Store) (a : ℕ) (ipaddr : Option UInt32) (port : UInt16) :
    (s.bound a ipaddr port).next = Function.update s.next a (s.head .bound) := by
  rw [Store.bound, Store.tcpReg, next_setHead, next_setNext, next_onBlock, head_onBlock]
  split
  · rfl
  · rw [next_onBlock, head_onBlock]

/-- The new block is the first one. -/
theorem head_bound (s : Store) (a : ℕ) (ipaddr : Option UInt32) (port : UInt16) :
    (s.bound a ipaddr port).head .bound = a := by
  rw [Store.bound, Store.tcpReg, head_setHead, Function.update_self]

/-- The block gets the port, and the address unless that is ANY. -/
theorem block_bound (s : Store) (a : ℕ) (ipaddr : Option UInt32) (port : UInt16) :
    ((s.bound a ipaddr port).block a).localPort = port ∧
      ((s.bound a ipaddr port).block a).localIp =
        if ipaddr.getD 0 = 0 then (s.block a).localIp else ipaddr.getD 0 := by
  by_cases hany : ipaddr.getD 0 = 0
  · simp [Store.bound, Store.tcpReg, Store.setHead, Store.setNext, Store.onBlock, ipAddrIsany, hany]
  · simp [Store.bound, Store.tcpReg, Store.setHead, Store.setNext, Store.onBlock, ipAddrIsany, hany]

/-- The new binding is registered when the block was on no bound list and has no address left from before. -/
theorem registered_bound_iff (h : Linked s nodes) (ha : a ≠ 0) (p : UInt16) :
    Registered (s.bound a ipaddr port) nodes a (ipaddr.getD 0) p ↔
      port = p ∧ a ∉ nodes .bound ∧ (ipaddr.getD 0 = 0 → (s.block a).localIp = 0) := by
  obtain ⟨hport, hip⟩ := block_bound s a ipaddr port
  constructor
  · intro hr
    refine ⟨hport.symm.trans hr.localPort, ?_, fun hany => ?_⟩
    · have hnull : 0 ∉ a :: nodes .bound := List.not_mem_cons_of_ne_of_not_mem ha.symm (h.ne_null .bound)
      exact (List.nodup_cons.mp (hr.path.nodup hnull)).1
    · rw [hr.localIp, if_pos hany, hany] at hip
      exact hip.symm
  · rintro ⟨rfl, hnot, hany⟩
    constructor
    · rw [next_bound, head_bound]
      exact (h.path .bound).push hnot
    · rw [hip]
      split
      · rename_i h0
        rw [hany h0, h0]
      · rfl
    · exact hport

/-- What `bindTo` does. -/
theorem bindTo_spec (h : Linked s nodes) (hfuel : ∀ l, (nodes l).length ≤ fuel) (a : ℕ) (ipaddr : Option UInt32)
    (hport : port ≠ 0) :
    (InUse s nodes ipaddr port ∧ s.bindTo fuel a ipaddr port = some (.use, s)) ∨
      (¬InUse s nodes ipaddr port ∧ s.bindTo fuel a ipaddr port = some (.ok, s.bound a ipaddr port)) := by
  obtain ⟨found, hfound, hiff⟩ := h.anyListed_iff hfuel (excludes ipaddr port)
  have huse : found = true ↔ InUse s nodes ipaddr port := by
    simp only [hiff, excludes_iff, InUse, hport, ne_eq, not_false_iff, true_and]
  cases found with
  | true =>
      refine .inl ⟨huse.mp rfl, ?_⟩
      rw [Store.bindTo, hfound]
      rfl
  | false =>
      refine .inr ⟨fun hin => Bool.false_ne_true (huse.mpr hin), ?_⟩
      rw [Store.bindTo, hfound]
      rfl

/-- `tcp_new_port` returns a free port of the range, and 0 exactly when there is none. -/
theorem tcpNewPort_spec (h : Linked s nodes) (hfuel : ∀ l, (nodes l).length ≤ fuel) :
    ∃ port q, s.tcpNewPort fuel = some (port, q) ∧
      ((port = 0 ∧ NoneFree s nodes 0) ∨ (tcpLocalPortRangeStart ≤ port ∧ ¬Used s nodes port)) := by
  have hused : ∀ port, ∃ b, s.anyListed fuel (fun cpcb => cpcb.localPort == port) tcpPcbLists = some b ∧
      (b = true ↔ Used s nodes port) := by
    intro port
    obtain ⟨found, hfound, hiff⟩ := h.anyListed_iff hfuel fun cpcb => cpcb.localPort == port
    exact ⟨found, hfound, hiff.trans (by simp [Used])⟩
  obtain ⟨port, q, hrun, hport⟩ := tcpNewPortLoop_spec hused 0x4000 s.tcpPort
  refine ⟨port, q, hrun, hport.imp_left ?_⟩
  rintro ⟨h0, hall⟩
  refine ⟨h0, rfl, fun p hp => ?_⟩
  obtain ⟨i, hi, hq⟩ := LocalPort.exists_iterate_next s.tcpPort ⟨p, hp⟩
  have := hall i hi
  rwa [hq] at this

/-- The three ways `tcp_bind` goes. -/
inductive BindOutcome (s : Store) (nodes : ListName → List ℕ) (a : ℕ) (ipaddr : Option UInt32)
    (port : UInt16) : BindErr → Store → Prop
  | use (hin : InUse s nodes ipaddr port) : BindOutcome s nodes a ipaddr port .use s
  | buf (t : Store) (hblock : t.block = s.block) (hhead : t.head = s.head) (hnone : NoneFree s nodes port) :
      BindOutcome s nodes a ipaddr port .buf t
  | ok (t : Store) (hblock : t.block = s.block) (hhead : t.head = s.head) (p : UInt16)
      (hin : ¬InUse s nodes ipaddr port) (hnone : ¬NoneFree s nodes port) (hp : port ≠ 0 → p = port)
      (hfree : port = 0 → tcpLocalPortRangeStart ≤ p ∧ ¬Used s nodes p) :
      BindOutcome s nodes a ipaddr port .ok (t.bound a ipaddr p)

/-- `tcp_bind` ends, in one of the three ways. -/
theorem tcpBind_outcome (h : Linked s nodes) (hfuel : ∀ l, (nodes l).length ≤ fuel) (a : ℕ)
    (ipaddr : Option UInt32) (port : UInt16) :
    ∃ err s', s.tcpBind fuel a ipaddr port = some (err, s') ∧ BindOutcome s nodes a ipaddr port err s' := by
  by_cases h0 : port = 0
  · subst h0
    obtain ⟨newPort, tcpPort, hnew, hport⟩ := tcpNewPort_spec h hfuel
    have hin : ¬InUse s nodes ipaddr 0 := fun hin => hin.1 rfl
    rcases hport with ⟨hzero, hnone⟩ | ⟨hrange, hfree⟩
    · refine ⟨.buf, { s with tcpPort := tcpPort }, ?_, .buf _ rfl rfl hnone⟩
      rw [Store.tcpBind, if_pos rfl, hnew, hzero]
      rfl
    · have hne : newPort ≠ 0 := by
        rintro rfl
        exact absurd hrange (by decide)
      have hnone : ¬NoneFree s nodes 0 := fun hnone => hfree (hnone.2 newPort hrange)
      have hlinked : Linked { s with tcpPort := tcpPort } nodes := ⟨h.path, h.ne_null⟩
      rcases bindTo_spec hlinked hfuel a ipaddr hne with ⟨hused, -⟩ | ⟨-, hbind⟩
      · obtain ⟨l, b, hb, hlocal, -⟩ := hused.2
        exact absurd ⟨l, b, hb, hlocal⟩ hfree
      · refine ⟨.ok, _, ?_, .ok (s := s) { s with tcpPort := tcpPort } rfl rfl newPort hin hnone
          (fun hz => absurd rfl hz) fun _ => ⟨hrange, hfree⟩⟩
        rw [Store.tcpBind, if_pos rfl, hnew]
        exact (if_neg hne).trans hbind
  · have hnone : ¬NoneFree s nodes port := fun hnone => h0 hnone.1
    rw [Store.tcpBind, if_neg h0]
    rcases bindTo_spec h hfuel a ipaddr h0 with ⟨hin, hbind⟩ | ⟨hin, hbind⟩
    · exact ⟨.use, s, hbind, .use hin⟩
    · exact ⟨.ok, _, hbind, .ok s rfl rfl port hin hnone (fun _ => rfl) fun hz => absurd hz h0⟩

/-- A block that `tcp_bind` can register: on no bound list, and with no address left if none is given. -/
def Unbound (s : Store) (nodes : ListName → List ℕ) (a : ℕ) (ipaddr : Option UInt32) : Prop :=
  a ∉ nodes .bound ∧ (ipaddr.getD 0 = 0 → (s.block a).localIp = 0)

/-- An outcome keeps the contract exactly for a closed block, which the binding, if it goes through, finds
unbound. -/
theorem BindOutcome.contract_iff {err : BindErr} (h : Linked s nodes) (ha : a ≠ 0)
    (hout : BindOutcome s nodes a ipaddr port err s') :
    BindContract s nodes a ipaddr port err s' ↔ (s.block a).pcb.state = .closed ∧
      (InUse s nodes ipaddr port ∨ NoneFree s nodes port ∨ Unbound s nodes a ipaddr) := by
  cases hout with
  -- ERR_USE
  | use hin =>
      have hnone : ¬NoneFree s' nodes port := fun hnone => hin.1 hnone.1
      constructor
      · intro hc
        exact ⟨by_contra fun hne => absurd (hc.val hne) (by decide), .inl hin⟩
      · rintro ⟨hclosed, -⟩
        constructor
        · exact fun hne => absurd hclosed hne
        · exact fun _ => iff_of_true rfl hin
        · exact fun _ => iff_of_false (by decide) hnone
        · exact fun _ hnot => absurd hin hnot
        · exact fun _ => ⟨rfl, rfl⟩
  -- ERR_BUF
  | buf t hblock hhead hnone =>
      have hin : ¬InUse s nodes ipaddr port := fun hin => hin.1 hnone.1
      constructor
      · intro hc
        exact ⟨by_contra fun hne => absurd (hc.val hne) (by decide), .inr (.inl hnone)⟩
      · rintro ⟨hclosed, -⟩
        constructor
        · exact fun hne => absurd hclosed hne
        · exact fun _ => iff_of_false (by decide) hin
        · exact fun _ => iff_of_true rfl hnone
        · exact fun _ _ hnot => absurd hnone hnot
        · exact fun _ => ⟨hblock, hhead⟩
  -- ERR_OK
  | ok t hblock hhead p hin hnone hp hfree =>
      have hnext : t.next = s.next := by
        funext x
        rw [Store.next, Store.next, hblock]
      have hlinked : Linked t nodes := by
        constructor
        · rw [hnext, hhead]
          exact h.path
        · exact h.ne_null
      have hreg : ∀ q, Registered (t.bound a ipaddr p) nodes a (ipaddr.getD 0) q ↔
          p = q ∧ Unbound s nodes a ipaddr := by
        intro q
        rw [registered_bound_iff hlinked ha q, hblock, Unbound]
      constructor
      · intro hc
        have hclosed : (s.block a).pcb.state = .closed :=
          by_contra fun hne => absurd (hc.val hne) (by decide)
        obtain ⟨-, q, -, -, hq⟩ := hc.ok hclosed hin hnone
        exact ⟨hclosed, .inr (.inr ((hreg q).mp hq).2)⟩
      · rintro ⟨hclosed, hcase⟩
        have hunbound : Unbound s nodes a ipaddr := (hcase.resolve_left hin).resolve_left hnone
        constructor
        · exact fun hne => absurd hclosed hne
        · exact fun _ => iff_of_false (by decide) hin
        · exact fun _ => iff_of_false (by decide) hnone
        · exact fun _ _ _ => ⟨rfl, p, hp, hfree, (hreg p).mpr ⟨rfl, hunbound⟩⟩
        · exact fun hne => absurd rfl hne

/-- **When `tcp_bind` keeps its contract.** It ends, and does what its comment says exactly for a block
that is closed and that, if the binding goes through, is not bound yet and has no address that the binding
leaves. -/
theorem tcpBind_meets_iff (s : Store) (nodes : ListName → List ℕ) (a fuel : ℕ) (ipaddr : Option UInt32)
    (port : UInt16) (h : Linked s nodes) (ha : a ≠ 0) (hfuel : ∀ l, (nodes l).length ≤ fuel) :
    ∃ err s', s.tcpBind fuel a ipaddr port = some (err, s') ∧
      (BindContract s nodes a ipaddr port err s' ↔ (s.block a).pcb.state = .closed ∧
        (InUse s nodes ipaddr port ∨ NoneFree s nodes port ∨ Unbound s nodes a ipaddr)) := by
  obtain ⟨err, s', hrun, hout⟩ := tcpBind_outcome h hfuel a ipaddr port
  exact ⟨err, s', hrun, hout.contract_iff h ha⟩

/-- One block, of `tcp_new`, in the state `state`; it is on `tcp_active_pcbs` if it is connected. -/
def oneBlock (state : TcpState) : Store where
  block _ :=
    { next := 0, prio := 64, localIp := 0, remoteIp := 0, localPort := 0, remotePort := 0
      pcb := { tcpAlloc optDefaults 6510 0 0 with state := state }, app := {} }
  head l := if state = .established ∧ l = .active then 1 else 0
  elems p := if p = .tcpPcb then [1] else []
  free _ := []
  tcpPort := ⟨tcpLocalPortRangeStart, UInt16.le_refl _⟩
  tcpTicks := 0
  tcpTimerCtr := 0
  tcpInputPcb := 0
  tcpActivePcbsChanged := false
  iss := 6510

/-- Block 1 is new, block 2 is bound to the first port that `tcp_new_port` tries, and block 3 is connected at the next one. -/
def busyPorts : Store :=
  { oneBlock .closed with
    block := fun x =>
      { (oneBlock (if x = 3 then .established else .closed)).block x with
        localPort := if x = 2 then 0xC001 else if x = 3 then 0xC002 else 0 }
    head := fun l => if l = .bound then 2 else if l = .active then 3 else 0 }

/-- The lists of `busyPorts`. -/
def busyNodes : ListName → List ℕ
  | .bound => [2]
  | .active => [3]
  | _ => []

/-- The lists of the example are lists. -/
theorem busyPorts_linked : Linked busyPorts busyNodes := by
  constructor
  · intro l
    cases l
    case bound => exact ⟨rfl, rfl⟩
    case active => exact ⟨rfl, rfl⟩
    all_goals rfl
  · intro l
    cases l <;> decide

/-- Block 1 gets a free port behind the two that are taken, and `ERR_USE` when it asks for one of those. -/
theorem tcpBind_meets_iff_busyPorts :
    (∃ err s', busyPorts.tcpBind 1 1 none 0 = some (err, s') ∧ BindContract busyPorts busyNodes 1 none 0 err s') ∧
      ∃ err s', busyPorts.tcpBind 1 1 none 0xC002 = some (err, s') ∧
        BindContract busyPorts busyNodes 1 none 0xC002 err s' := by
  have hfuel : ∀ l, (busyNodes l).length ≤ 1 := by
    intro l
    cases l <;> decide
  obtain ⟨err, s', hrun, hiff⟩ :=
    tcpBind_meets_iff busyPorts busyNodes 1 1 none 0 busyPorts_linked (by decide) hfuel
  obtain ⟨err', s'', hrun', hiff'⟩ :=
    tcpBind_meets_iff busyPorts busyNodes 1 1 none 0xC002 busyPorts_linked (by decide) hfuel
  refine ⟨⟨err, s', hrun, hiff.mpr ⟨rfl, .inr (.inr ?_)⟩⟩, err', s'', hrun', hiff'.mpr ⟨rfl, .inl ?_⟩⟩
  · exact ⟨by decide, fun _ => rfl⟩
  · exact ⟨by decide, .active, 3, List.mem_singleton_self 3, rfl, .inl rfl⟩

/-- An established connection is bound all the same. -/
theorem not_tcpBind_meets : ¬ ∀ (s : Store) (nodes : ListName → List ℕ) (a fuel : ℕ)
    (ipaddr : Option UInt32) (port : UInt16), Linked s nodes → a ≠ 0 → (∀ l, (nodes l).length ≤ fuel) →
    ∃ err s', s.tcpBind fuel a ipaddr port = some (err, s') ∧ BindContract s nodes a ipaddr port err s' := by
  intro hall
  have hlinked : Linked (oneBlock .established) fun l => if l = .active then [1] else [] := by
    constructor
    · intro l
      cases l
      case active => exact ⟨rfl, rfl⟩
      all_goals rfl
    · intro l
      cases l <;> decide
  have hfuel : ∀ l, (if l = ListName.active then [1] else ([] : List ℕ)).length ≤ 1 := by
    intro l
    cases l <;> decide
  obtain ⟨err, s', hrun, hc⟩ := hall (oneBlock .established) _ 1 1 none 8080 hlinked (by decide) hfuel
  obtain ⟨err', t, hrun', hout⟩ := tcpBind_outcome hlinked hfuel 1 none 8080
  obtain ⟨rfl, rfl⟩ := Prod.mk.inj (Option.some.inj (hrun.symm.trans hrun'))
  have hclosed := ((hout.contract_iff hlinked (by decide)).mp hc).1
  exact absurd hclosed (by decide)

end BareMetal.Tcp
