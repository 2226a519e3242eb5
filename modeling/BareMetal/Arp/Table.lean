import BareMetal.Ip.Addr
import BareMetal.Lib.Run

/-! # The ARP table

`etharp.c` without static entries and with one queued packet for each entry, which is how it is configured. The
table has `size` entries, `ARP_TABLE_SIZE`, and there is one interface. The results of the calls into the other modules
are arguments (`Env`), and what is sent or freed is logged. -/

namespace BareMetal.Arp

open Ip

/-- An Ethernet address. -/
abbrev EthAddr := Vector UInt8 6

/-- `ethbroadcast`. -/
def ethbroadcast : EthAddr := #v[0xff, 0xff, 0xff, 0xff, 0xff, 0xff]

/-- The Ethernet address of an IP multicast address. -/
def mcastaddr (ipaddr : UInt32) : EthAddr :=
  #v[0x01, 0x00, 0x5e, (ipaddr >>> 16).toUInt8 &&& 0x7f, (ipaddr >>> 8).toUInt8, ipaddr.toUInt8]

/-- `ARP_MAXAGE`. -/
def arpMaxage : UInt8 := 240

/-- `ARP_AGE_REREQUEST_USED`. -/
def arpAgeRerequestUsed : UInt8 := arpMaxage - 12

/-- `ARP_MAXPENDING`. -/
def arpMaxpending : UInt8 := 2

/-- `enum etharp_state`. -/
inductive EtharpState
  | empty
  | pending
  | stable
  | stableRerequesting
  deriving DecidableEq, Repr

/-- `state >= ETHARP_STATE_STABLE`. -/
def EtharpState.isStable : EtharpState → Bool
  | .stable | .stableRerequesting => true
  | .empty | .pending => false

/-- `struct etharp_entry`. -/
structure EtharpEntry where
  /-- The pending packet, or `NULL`. -/
  q : ℕ
  ipaddr : UInt32
  netif : ℕ
  ethaddr : EthAddr
  state : EtharpState
  ctime : UInt8

/-- The interface, with its gateway. -/
structure Netif extends Ip.Netif where
  gw : UInt32

/-- `ip_addr_islinklocal(addr)`. -/
def ipAddrIslinklocal (addr : UInt32) : Bool := addr &&& 0xffff0000 == 0xa9fe0000

/-- What goes out, and what is freed. -/
inductive Action
  /-- `etharp_send_ip(netif, p, netif->hwaddr, dst)`. -/
  | sendIp (p : ℕ) (dst : EthAddr)
  /-- `etharp_request(netif, ipaddr)`. -/
  | request (ipaddr : UInt32)
  /-- `pbuf_free(p)`. -/
  | free (p : ℕ)
  deriving DecidableEq

/-- The table, the index that was used last, and the log. -/
structure State where
  arpTable : ℕ → EtharpEntry
  etharpCachedEntry : ℕ
  log : List Action

/-- `err_t`. -/
abbrev Err := Int

/-- `ERR_OK`. -/
def errOk : Err := 0

/-- `ERR_MEM`. -/
def errMem : Err := -1

/-- `ERR_BUF`. -/
def errBuf : Err := -2

/-- `ERR_RTE`. -/
def errRte : Err := -4

/-- `ERR_ARG`. -/
def errArg : Err := -14

/-- The results of the other modules. -/
structure Env where
  /-- `pbuf_header` made room for the Ethernet header. -/
  room : Bool
  /-- The result of `etharp_request`. -/
  request : Err
  /-- The result of `netif->linkoutput`. -/
  linkoutput : Err
  /-- The copy of a packet that is to be queued; the packet itself, with one more reference, when all of it is in
  ROM; `NULL` when there is no memory for a copy. -/
  copy : ℕ

def State.act (s : State) (a : Action) : State := { s with log := s.log ++ [a] }

def State.set (s : State) (i : ℕ) (f : EtharpEntry → EtharpEntry) : State :=
  { s with arpTable := Function.update s.arpTable i (f (s.arpTable i)) }

/-- `etharp_free_entry(i)`. -/
def etharpFreeEntry (s : State) (i : ℕ) : State :=
  let s := if (s.arpTable i).q ≠ 0 then (s.act (.free (s.arpTable i).q)).set i fun e => { e with q := 0 } else s
  s.set i fun e => { e with state := .empty }

/-! ## The timer -/

/-- The body of the loop of `etharp_tmr`. -/
def etharpTmrEntry (i : ℕ) (s : State) : State :=
  if (s.arpTable i).state ≠ .empty then
    let s := s.set i fun e => { e with ctime := e.ctime + 1 }
    if arpMaxage ≤ (s.arpTable i).ctime ∨
        (s.arpTable i).state = .pending ∧ arpMaxpending ≤ (s.arpTable i).ctime then
      etharpFreeEntry s i
    else if (s.arpTable i).state = .stableRerequesting then s.set i fun e => { e with state := .stable }
    else s
  else s

/-- `etharp_tmr()`. -/
def etharpTmr (size : ℕ) (s : State) : State := forLoop etharpTmrEntry size s

/-- The body of the loop of `etharp_cleanup_netif`. -/
def etharpCleanupEntry (netif : ℕ) (i : ℕ) (s : State) : State :=
  if (s.arpTable i).state ≠ .empty ∧ (s.arpTable i).netif = netif then etharpFreeEntry s i else s

/-- `etharp_cleanup_netif(netif)`. -/
def etharpCleanupNetif (size : ℕ) (s : State) (netif : ℕ) : State := forLoop (etharpCleanupEntry netif) size s

/-! ## Finding an entry -/

/-- `ETHARP_FLAG_TRY_HARD`. -/
def etharpFlagTryHard : UInt8 := 1

/-- `ETHARP_FLAG_FIND_ONLY`. -/
def etharpFlagFindOnly : UInt8 := 2

/-- The candidates that `etharp_find_entry` remembers; `ARP_TABLE_SIZE` stands for none. -/
structure Candidates where
  empty : ℕ
  oldStable : ℕ
  oldPending : ℕ
  oldQueue : ℕ
  ageStable : UInt8
  agePending : UInt8
  ageQueue : UInt8

/-- Remember an entry `e` at `i` that does not match. -/
def Candidates.remember (c : Candidates) (i : ℕ) (e : EtharpEntry) : Candidates :=
  match e.state with
  | .empty => c
  | .pending =>
      if e.q ≠ 0 then
        if c.ageQueue ≤ e.ctime then { c with oldQueue := i, ageQueue := e.ctime } else c
      else if c.agePending ≤ e.ctime then { c with oldPending := i, agePending := e.ctime }
      else c
  | .stable | .stableRerequesting =>
      if c.ageStable ≤ e.ctime then { c with oldStable := i, ageStable := e.ctime } else c

/-- The sweep over the entries `is`: the entry with the address, or the candidates. -/
def sweep (size : ℕ) (table : ℕ → EtharpEntry) (ipaddr : UInt32) : List ℕ → Candidates → ℕ ⊕ Candidates
  | [], c => .inr c
  | i :: is, c =>
      if c.empty = size ∧ (table i).state = .empty then sweep size table ipaddr is { c with empty := i }
      else if (table i).state ≠ .empty then
        if ipaddr = (table i).ipaddr then .inl i
        else sweep size table ipaddr is (c.remember i (table i))
      else sweep size table ipaddr is c

/-- The entry to recycle. -/
def Candidates.recycle (c : Candidates) (size : ℕ) : Option ℕ :=
  if c.oldStable < size then some c.oldStable
  else if c.oldPending < size then some c.oldPending
  else if c.oldQueue < size then some c.oldQueue
  else none

/-- `etharp_find_entry(ipaddr, flags)` of an address that is given; `none` is `ERR_MEM`. -/
def etharpFindEntry (size : ℕ) (s : State) (ipaddr : UInt32) (flags : UInt8) : Option ℕ × State :=
  match sweep size s.arpTable ipaddr (List.range size) ⟨size, size, size, size, 0, 0, 0⟩ with
  | .inl i => (some i, s)
  | .inr c =>
      if flags &&& etharpFlagFindOnly ≠ 0 ∨ c.empty = size ∧ flags &&& etharpFlagTryHard = 0 then (none, s)
      else if c.empty < size then
        (some c.empty, s.set c.empty fun e => { e with ipaddr := ipaddr, ctime := 0 })
      else
        match c.recycle size with
        | none => (none, s)
        | some i => (some i, (etharpFreeEntry s i).set i fun e => { e with ipaddr := ipaddr, ctime := 0 })

/-! ## Updating and sending -/

variable (size : ℕ) (netif : Netif) (self : ℕ)

/-- The address is none of a single host. -/
def nonUnicast (ipaddr : UInt32) : Bool :=
  ip4AddrIsbroadcast ipaddr netif.toNetif || ipAddrIsmulticast ipaddr || ipAddrIsany ipaddr

/-- `etharp_send_ip(netif, p, netif->hwaddr, dst)`. -/
def etharpSendIp (env : Env) (s : State) (p : ℕ) (dst : EthAddr) : State × Err :=
  (s.act (.sendIp p dst), env.linkoutput)

/-- `etharp_update_arp_entry(netif, ipaddr, ethaddr, flags)`. -/
def etharpUpdateArpEntry (env : Env) (s : State) (ipaddr : UInt32) (ethaddr : EthAddr) (flags : UInt8) :
    State × Err :=
  if nonUnicast netif ipaddr then (s, errArg)
  else
    match etharpFindEntry size s ipaddr flags with
    | (none, s) => (s, errMem)
    | (some i, s) =>
        let s := s.set i fun e => { e with state := .stable, netif := self, ethaddr := ethaddr, ctime := 0 }
        let p := (s.arpTable i).q
        if p ≠ 0 then
          let s := s.set i fun e => { e with q := 0 }
          let (s, _) := etharpSendIp env s p ethaddr
          (s.act (.free p), errOk)
        else (s, errOk)

/-- `etharp_query` for the entry `i` that `etharp_find_entry` returned. -/
def etharpQueryEntry (env : Env) (s : State) (ipaddr : UInt32) (q i : ℕ) : State × Err :=
  let s := if (s.arpTable i).state = .empty then s.set i fun e => { e with state := .pending } else s
  let s := if (s.arpTable i).state = .pending ∨ q = 0 then s.act (.request ipaddr) else s
  if q = 0 then (s, env.request)
  else if (s.arpTable i).state.isStable then
    etharpSendIp env { s with etharpCachedEntry := i } q (s.arpTable i).ethaddr
  else if env.copy ≠ 0 then
    -- one packet for each entry: the one that was queued is dropped
    let s := if (s.arpTable i).q ≠ 0 then s.act (.free (s.arpTable i).q) else s
    (s.set i fun e => { e with q := env.copy }, errOk)
  else (s, errMem)

/-- `etharp_query(netif, ipaddr, q)`; `q` may be `NULL`. -/
def etharpQuery (env : Env) (s : State) (ipaddr : UInt32) (q : ℕ) : State × Err :=
  if nonUnicast netif ipaddr then (s, errArg)
  else
    match etharpFindEntry size s ipaddr etharpFlagTryHard with
    | (none, s) => (s, errMem)
    | (some i, s) => etharpQueryEntry env s ipaddr q i

/-- `etharp_output_to_arp_index(netif, q, arp_idx)`. -/
def etharpOutputToArpIndex (env : Env) (s : State) (q i : ℕ) : State × Err :=
  let s :=
    if (s.arpTable i).state = .stable ∧ arpAgeRerequestUsed ≤ (s.arpTable i).ctime then
      let s := s.act (.request (s.arpTable i).ipaddr)
      if env.request = errOk then s.set i fun e => { e with state := .stableRerequesting } else s
    else s
  etharpSendIp env s q (s.arpTable i).ethaddr

/-- The entry is stable and has the address. -/
def hit (s : State) (dst : UInt32) (i : ℕ) : Bool := (s.arpTable i).state.isStable && dst == (s.arpTable i).ipaddr

/-- The part of `etharp_output` for a next hop: the entry that was used last, the stable entries, or a query. -/
def etharpOutputVia (env : Env) (s : State) (q : ℕ) (dst : UInt32) : State × Err :=
  if hit s dst s.etharpCachedEntry then etharpOutputToArpIndex env s q s.etharpCachedEntry
  else
    match (List.range size).find? (hit s dst) with
    | some i => etharpOutputToArpIndex env { s with etharpCachedEntry := i } q i
    | none => etharpQuery size netif env s dst q

/-- `etharp_output(netif, q, ipaddr)`. -/
def etharpOutput (env : Env) (s : State) (q : ℕ) (ipaddr : UInt32) : State × Err :=
  if !env.room then (s, errBuf)
  else if ip4AddrIsbroadcast ipaddr netif.toNetif then etharpSendIp env s q ethbroadcast
  else if ipAddrIsmulticast ipaddr then etharpSendIp env s q (mcastaddr ipaddr)
  else if !ipAddrNetcmp ipaddr netif.ipAddr netif.netmask && !ipAddrIslinklocal ipaddr then
    if !ipAddrIsany netif.gw then etharpOutputVia size netif env s q netif.gw
    else (s, errRte)
  else etharpOutputVia size netif env s q ipaddr

/-! ## Runs -/

/-- A call. -/
inductive Event
  | query (env : Env) (ipaddr : UInt32) (q : ℕ)
  | update (env : Env) (ipaddr : UInt32) (ethaddr : EthAddr) (flags : UInt8)
  | tmr
  | cleanup (netif : ℕ)
  | output (env : Env) (q : ℕ) (ipaddr : UInt32)

/-- The state after a call. -/
def step (s : State) : Event → Option State
  | .query env ipaddr q => some (etharpQuery size netif env s ipaddr q).1
  | .update env ipaddr ethaddr flags => some (etharpUpdateArpEntry size netif self env s ipaddr ethaddr flags).1
  | .tmr => some (etharpTmr size s)
  | .cleanup netif => some (etharpCleanupNetif size s netif)
  | .output env q ipaddr => some (etharpOutput size netif env s q ipaddr).1

/-- The table after the start: all zero. -/
def start : State where
  arpTable _ := ⟨0, 0, 0, #v[0, 0, 0, 0, 0, 0], .empty, 0⟩
  etharpCachedEntry := 0
  log := []

end BareMetal.Arp
