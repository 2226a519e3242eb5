import BareMetal.Ip.Addr
import BareMetal.Ip.Chksum
import BareMetal.Pbuf.StoreRealloc

/-! # `ip_input`

What becomes of a packet that arrives from an interface: `ip_input` checks its header, cuts the chain to
the length in the header, looks for an interface that the packet is for, and passes it on or frees it. Reassembly and
the upper layers are parameters, and the calls are logged with the state in which they are made. The packet
is dropped or passed on as it should be, with two exceptions: nothing relates the two lengths of the header to each
other and to the fixed part of the header, and `pbuf_realloc` fails for some pbufs of the type `PBUF_RAM`
(`ipInput_meets_iff`). -/

namespace BareMetal.Ip

open Pbufs

/-! ## The header

The bytes of a header are given from its start on. Addresses are in the order of the host. -/

/-- `IPH_V(hdr)`. -/
def iphV (hdr : ℕ → UInt8) : UInt8 := hdr 0 >>> 4

/-- `IPH_HL(hdr)`. -/
def iphHl (hdr : ℕ → UInt8) : UInt8 := hdr 0 &&& 0x0f

/-- The 16 bits at `i`, in the order of the host. -/
def u16At (hdr : ℕ → UInt8) (i : ℕ) : UInt16 := UInt16.ofNat (256 * (hdr i).toNat + (hdr (i + 1)).toNat)

/-- The 32 bits at `i`, in the order of the host. -/
def u32At (hdr : ℕ → UInt8) (i : ℕ) : UInt32 :=
  UInt32.ofNat (2 ^ 16 * (u16At hdr i).toNat + (u16At hdr (i + 2)).toNat)

/-- `ntohs(IPH_LEN(hdr))`. -/
def iphLen (hdr : ℕ → UInt8) : UInt16 := u16At hdr 2

/-- `ntohs(IPH_OFFSET(hdr))`. -/
def iphOffset (hdr : ℕ → UInt8) : UInt16 := u16At hdr 6

/-- `IPH_PROTO(hdr)`. -/
def iphProto (hdr : ℕ → UInt8) : UInt8 := hdr 9

/-- `hdr->src`. -/
def iphSrc (hdr : ℕ → UInt8) : UInt32 := u32At hdr 12

/-- `hdr->dest`. -/
def iphDest (hdr : ℕ → UInt8) : UInt32 := u32At hdr 16

/-- `IP_MF`. -/
def ipMf : UInt16 := 0x2000

/-- `IP_OFFMASK`. -/
def ipOffmask : UInt16 := 0x1fff

/-- `IP_PROTO_ICMP`. -/
def ipProtoIcmp : UInt8 := 1

/-- `IP_PROTO_TCP`. -/
def ipProtoTcp : UInt8 := 6

/-- `IP_PROTO_UDP`. -/
def ipProtoUdp : UInt8 := 17

/-! ## The function -/

/-- The pbufs with the memory behind them, the interfaces, and the variables of the packet that is handled. -/
structure World (σ : Type) where
  store : Store
  /-- The bytes outside the heap of `mem.c`. -/
  ext : ByteMem
  netif : ℕ → Netif
  netifList : ℕ
  currentNetif : ℕ
  /-- `current_header`: the address of the header. -/
  currentHeader : ℕ
  currentIphdrDest : UInt32
  currentIphdrSrc : UInt32
  /-- The PCBs, queues and tables of the other modules. -/
  rest : σ

/-- The functions that a packet is passed to. -/
inductive Handler
  | ipReass
  | rawInput
  | udpInput
  | tcpInput
  | icmpInput
  | icmpDestUnreach
  deriving DecidableEq, Repr

/-- What these functions do. `ip_reass` returns the packet that is complete now, or `NULL`, and `raw_input` whether
a callback took the packet. -/
structure Handlers (σ : Type) where
  ipReass : World σ → ℕ → World σ × ℕ
  rawInput : World σ → ℕ → ℕ → World σ × Bool
  udpInput : World σ → ℕ → ℕ → World σ
  tcpInput : World σ → ℕ → ℕ → World σ
  icmpInput : World σ → ℕ → ℕ → World σ
  icmpDestUnreach : World σ → ℕ → World σ

/-- A call of `pbuf_free`, or one that passes the packet on. -/
inductive Call (σ : Type)
  | free (p : ℕ)
  | pass (handler : Handler) (world : World σ) (p : ℕ)

/-- The calls that were made, and the state in the end; `none` when a loop does not end. -/
structure Outcome (σ : Type) where
  calls : List (Call σ)
  world : Option (World σ)

variable {σ : Type} (c : StoreConfig)

/-- The bytes of the pbufs, from their payload pointers on. -/
def World.data (w : World σ) : Data := w.store.data c w.ext

/-- `pbuf_free(p)` and the return of `ERR_OK`. -/
def dropPacket (w : World σ) (p : ℕ) : Outcome σ where
  calls := [.free p]
  world := (w.store.pbufFree c p).map fun (_, store) => { w with store }

/-- `while (netif != NULL)` of the search for an interface, which visits `inp` first and skips it in the list. It goes
at most `fuel` times round. -/
def findNetifLoop (netif : ℕ → Netif) (netifList inp : ℕ) (dest : UInt32) : ℕ → Bool → ℕ → Option ℕ
  | 0, _, _ => none
  | fuel + 1, first, n =>
      if netifTakes dest (netif n) then some n
      else
        let n := if first then netifList else (netif n).next
        let n := if n = inp then (netif n).next else n
        if n = 0 then some 0 else findNetifLoop netif netifList inp dest fuel false n

/-- The end of `ip_input`: nothing is handled. -/
def endInput (w : World σ) : World σ :=
  { w with currentNetif := 0, currentHeader := 0, currentIphdrSrc := ipaddrAny, currentIphdrDest := ipaddrAny }

/-- `raw_input` and then the protocol of the packet. -/
def ipUpper (u : Handlers σ) (w : World σ) (p inp : ℕ) : Outcome σ :=
  let iphdr := (w.store.pbufs.pbuf p).payload
  let proto := iphProto (w.data c p)
  let w := { w with currentNetif := inp, currentHeader := iphdr }
  let raw := Call.pass .rawInput w p
  let (w, eaten) := u.rawInput w p inp
  if eaten then ⟨[raw], some (endInput w)⟩
  else if proto = ipProtoUdp then ⟨[raw, .pass .udpInput w p], some (endInput (u.udpInput w p inp))⟩
  else if proto = ipProtoTcp then ⟨[raw, .pass .tcpInput w p], some (endInput (u.tcpInput w p inp))⟩
  else if proto = ipProtoIcmp then ⟨[raw, .pass .icmpInput w p], some (endInput (u.icmpInput w p inp))⟩
  else if !ip4AddrIsbroadcast w.currentIphdrDest (w.netif inp) && !ipAddrIsmulticast w.currentIphdrDest then
    let w := { w with store := { w.store with pbufs := w.store.pbufs.set p fun q => { q with payload := iphdr } } }
    let unreach := Call.pass .icmpDestUnreach w p
    let o := dropPacket c (u.icmpDestUnreach w p) p
    ⟨raw :: unreach :: o.calls, o.world.map endInput⟩
  else
    let o := dropPacket c w p
    ⟨raw :: o.calls, o.world.map endInput⟩

/-- Fragments go to `ip_reass` first. -/
def ipDeliver (u : Handlers σ) (w : World σ) (p inp : ℕ) : Outcome σ :=
  if iphOffset (w.data c p) &&& (ipOffmask ||| ipMf) ≠ 0 then
    let (w', q) := u.ipReass w p
    if q = 0 then ⟨[.pass .ipReass w p], some w'⟩
    else
      let o := ipUpper c u w' q inp
      ⟨.pass .ipReass w p :: o.calls, o.world⟩
  else ipUpper c u w p inp

/-- `ip_input(p, inp)`. The world is `none` when `pbuf_realloc` uses `NULL` as a pbuf. -/
def ipInput (u : Handlers σ) (fuel : ℕ) (w : World σ) (p inp : ℕ) : Outcome σ :=
  let iphdr := w.data c p
  let iphdrHlen := (iphHl iphdr).toUInt16 * 4
  let iphdrLen := iphLen iphdr
  if iphV iphdr ≠ 4 then dropPacket c w p
  else if (w.store.pbufs.pbuf p).len < iphdrHlen ∨ (w.store.pbufs.pbuf p).totLen < iphdrLen then dropPacket c w p
  else if inetChksum ((w.store.pbufs.pbuf p).payload % 2 == 1) ((List.range iphdrHlen.toNat).map iphdr) ≠ 0 then
    dropPacket c w p
  else
    match w.store.pbufRealloc c p iphdrLen with
    | none => ⟨[], none⟩
    | some store =>
        -- the addresses are copied behind the cut
        let iphdr := store.data c w.ext p
        let dest := iphDest iphdr
        let src := iphSrc iphdr
        let w := { w with store, currentIphdrDest := dest, currentIphdrSrc := src }
        match findNetifLoop w.netif w.netifList inp dest fuel true inp with
        | none => ⟨[], none⟩
        | some netif =>
            if ip4AddrIsbroadcast src (w.netif inp) ∨ ipAddrIsmulticast src then dropPacket c w p
            else if netif = 0 then dropPacket c w p
            else ipDeliver c u w p inp

/-! ## The search for an interface -/

variable {netif : ℕ → Netif} {netifList inp p n fuel : ℕ} {dest : UInt32} {l netifs : List ℕ} {owner : ℕ → ℕ}
  {w w' : World σ} {u : Handlers σ} {bs : List Blk} {store : Store}

/-- The interface to look at next, when the list goes on at `n`. -/
def skipInp (netif : ℕ → Netif) (inp n : ℕ) : ℕ := if n = inp then (netif n).next else n

/-- The search in the rest of the list, after `inp` was not it. -/
theorem findNetifLoop_rest (hpath : Path (fun n => (netif n).next) n l 0) (hnull : 0 ∉ l) (hinp : inp ≠ 0)
    (hnot : netifTakes dest (netif inp) = false) (hfuel : l.length ≤ fuel) :
    ∃ r, (if skipInp netif inp n = 0 then some 0
        else findNetifLoop netif netifList inp dest fuel false (skipInp netif inp n)) = some r ∧
      (r ≠ 0 ↔ ∃ x ∈ l, netifTakes dest (netif x)) := by
  induction l generalizing n fuel with
  | nil =>
      obtain rfl := path_nil.mp hpath
      have hskip : skipInp netif inp 0 = 0 := if_neg (Ne.symm hinp)
      exact ⟨0, if_pos hskip, by simp⟩
  | cons x l ih =>
      have hnd := hpath.nodup hnull
      obtain ⟨rfl, hpath⟩ := path_cons.mp hpath
      obtain ⟨hn0, hnull⟩ := not_or.mp (List.mem_cons.not.mp hnull)
      have hn0 : n ≠ 0 := Ne.symm hn0
      by_cases hskip : n = inp
      · -- `inp` was looked at already
        subst hskip
        have hnext : (netif n).next ≠ n := by
          intro heq
          cases l with
          | nil => exact hinp (heq.symm.trans (path_nil.mp hpath))
          | cons y l => exact (List.nodup_cons.mp hnd).1 (heq ▸ (path_cons.mp hpath).1 ▸ List.mem_cons_self)
        obtain ⟨r, hrun, hr⟩ := ih hpath hnull (Nat.le_of_succ_le hfuel)
        have hsame : skipInp netif n n = skipInp netif n (netif n).next := by
          rw [skipInp, if_pos rfl, skipInp, if_neg hnext]
        refine ⟨r, hsame ▸ hrun, ?_⟩
        rw [hr, List.exists_mem_cons_iff, hnot]
        simp
      · have hself : skipInp netif inp n = n := if_neg hskip
        obtain ⟨fuel, rfl⟩ : ∃ k, fuel = k + 1 := Nat.exists_eq_succ_of_ne_zero (by simp at hfuel; omega)
        rw [hself, if_neg hn0, findNetifLoop]
        by_cases htakes : netifTakes dest (netif n) = true
        · exact ⟨n, if_pos htakes, iff_of_true hn0 ⟨n, List.mem_cons_self, htakes⟩⟩
        · obtain ⟨r, hrun, hr⟩ := ih hpath hnull (Nat.le_of_succ_le_succ hfuel)
          refine ⟨r, (if_neg htakes).trans hrun, ?_⟩
          rw [hr, List.exists_mem_cons_iff]
          simp [htakes]

/-- The search finds an interface that takes the packet when there is one. -/
theorem findNetifLoop_spec (dest : UInt32) (hpath : Path (fun n => (netif n).next) netifList l 0) (hnull : 0 ∉ l) (hinp : inp ≠ 0)
    (hfuel : l.length < fuel) :
    ∃ r, findNetifLoop netif netifList inp dest fuel true inp = some r ∧
      (r ≠ 0 ↔ ∃ x ∈ inp :: l, netifTakes dest (netif x)) := by
  obtain ⟨fuel, rfl⟩ : ∃ k, fuel = k + 1 := Nat.exists_eq_succ_of_ne_zero (by omega)
  rw [findNetifLoop]
  by_cases htakes : netifTakes dest (netif inp) = true
  · exact ⟨inp, if_pos htakes, iff_of_true hinp ⟨inp, List.mem_cons_self, htakes⟩⟩
  · obtain ⟨r, hrun, hr⟩ := findNetifLoop_rest hpath hnull hinp (Bool.eq_false_iff.mpr htakes)
      (Nat.le_of_lt_succ hfuel)
    refine ⟨r, (if_neg htakes).trans hrun, ?_⟩
    rw [hr, List.exists_mem_cons_iff]
    simp [htakes]

/-! ## What becomes of a packet -/

/-- The caller's packet: the chain `l` of `p` is well formed, the reference to `p` is the caller's, and the list of
interfaces ends. -/
structure Ready (w : World σ) (bs : List Blk) (owner : ℕ → ℕ) (p : ℕ) (l : List ℕ) (inp : ℕ) (netifs : List ℕ)
    (fuel : ℕ) : Prop where
  chain : ChainOk c w.store bs owner p l
  owned : 0 < owner p
  list : Path (fun n => (w.netif n).next) w.netifList netifs 0
  null : 0 ∉ netifs
  inp : inp ≠ 0
  fuel : netifs.length < fuel

/-- The length of the header. -/
def hdrLen (w : World σ) (p : ℕ) : ℕ := 4 * (iphHl (w.data c p)).toNat

/-- The length of the packet in its header. -/
def totalLen (w : World σ) (p : ℕ) : ℕ := (iphLen (w.data c p)).toNat

/-- The bytes of the header. -/
def hdrBytes (w : World σ) (p : ℕ) : List UInt8 := (List.range (hdrLen c w p)).map (w.data c p)

/-- The source in the header is neither broadcast nor multicast, and an interface takes the destination. -/
def AddressesOk (hdr : ℕ → UInt8) (w : World σ) (inp : ℕ) (netifs : List ℕ) : Prop :=
  (ip4AddrIsbroadcast (iphSrc hdr) (w.netif inp) = false ∧ ipAddrIsmulticast (iphSrc hdr) = false) ∧
    ∃ n ∈ inp :: netifs, netifTakes (iphDest hdr) (w.netif n)

/-- The packets that are to be passed on. -/
structure Accept (w : World σ) (p inp : ℕ) (netifs : List ℕ) : Prop where
  version : iphV (w.data c p) = 4
  hdrLen_ge : 20 ≤ hdrLen c w p
  hdrLen_le : hdrLen c w p ≤ totalLen c w p
  totalLen_le : totalLen c w p ≤ (w.store.pbufs.pbuf p).totLen.toNat
  hdr_first : hdrLen c w p ≤ (w.store.pbufs.pbuf p).len.toNat
  /-- The words of the header add up to zero in ones' complement. -/
  chksum : 2 ^ 16 - 1 ∣ wordSum (hdrBytes c w p)
  addresses : AddressesOk (w.data c p) w inp netifs

/-- The packet was passed on, as the first thing, and its chain was well formed and held the bytes up to its length. -/
def Passed (w : World σ) (owner : ℕ → ℕ) (p : ℕ) (l : List ℕ) (o : Outcome σ) : Prop :=
  ∃ handler w₁ calls, o.calls = .pass handler w₁ p :: calls ∧
    ReallocMeets c w.ext w.store owner p l (iphLen (w.data c p)) w₁.store ∧ w₁.ext = w.ext ∧ w₁.rest = w.rest

/-- The packet was freed, and nothing else happened. -/
def Dropped (w : World σ) (owner : ℕ → ℕ) (p : ℕ) (o : Outcome σ) : Prop :=
  o.calls = [.free p] ∧ ∃ w', o.world = some w' ∧ Counted w'.store.pbufs (dropRef owner p) ∧ w'.rest = w.rest

/-- A packet is passed on when it is to be accepted, and dropped else. -/
def InputMeets (w : World σ) (owner : ℕ → ℕ) (p : ℕ) (l : List ℕ) (inp : ℕ) (netifs : List ℕ) (o : Outcome σ) : Prop :=
  (Accept c w p inp netifs → Passed c w owner p l o) ∧ (¬Accept c w p inp netifs → Dropped w owner p o)

/-- What `ip_input` checks in the header before it cuts the chain. -/
structure Checks (w : World σ) (p : ℕ) : Prop where
  version : iphV (w.data c p) = 4
  hdr_first : hdrLen c w p ≤ (w.store.pbufs.pbuf p).len.toNat
  totalLen_le : totalLen c w p ≤ (w.store.pbufs.pbuf p).totLen.toNat
  chksum : inetChksum ((w.store.pbufs.pbuf p).payload % 2 == 1) (hdrBytes c w p) = 0

/-- What stands in the place of the header when the addresses are copied: `mem_trim` and `mem_free` may have written
there if the packet is to be shorter than its header. -/
def copiedHeader (w : World σ) (p : ℕ) : ℕ → UInt8 :=
  match w.store.pbufRealloc c p (iphLen (w.data c p)) with
  | none => w.data c p
  | some store => store.data c w.ext p

/-- The lengths in the header are in order. -/
def LengthsOk (w : World σ) (p : ℕ) : Prop := 20 ≤ hdrLen c w p ∧ hdrLen c w p ≤ totalLen c w p

/-- The condition on a packet that passes the checks: `mem_trim` does not return `NULL` for it, its lengths are in order
if its addresses will do, and then it can be cut. -/
structure InputFits (w : World σ) (p : ℕ) (l : List ℕ) (inp : ℕ) (netifs : List ℕ) : Prop where
  returns : ReallocReturns c w.store l (iphLen (w.data c p))
  lengths : AddressesOk (copiedHeader c w p) w inp netifs → LengthsOk c w p
  fits : LengthsOk c w p → AddressesOk (w.data c p) w inp netifs ∨ AddressesOk (copiedHeader c w p) w inp netifs →
    ReallocFits c w.store l (iphLen (w.data c p))

variable {c}

/-- The addresses are read from the header only. -/
theorem addressesOk_congr {hdr hdr' : ℕ → UInt8} (hsame : ∀ i < 20, hdr i = hdr' i) :
    AddressesOk hdr w inp netifs ↔ AddressesOk hdr' w inp netifs := by
  have hsrc : iphSrc hdr = iphSrc hdr' := by
    simp only [iphSrc, u32At, u16At, hsame 12 (by decide), hsame 13 (by decide), hsame 14 (by decide),
      hsame 15 (by decide)]
  have hdest : iphDest hdr = iphDest hdr' := by
    simp only [iphDest, u32At, u16At, hsame 16 (by decide), hsame 17 (by decide), hsame 18 (by decide),
      hsame 19 (by decide)]
  rw [AddressesOk, AddressesOk, hsrc, hdest]

/-- A header has at most 60 bytes. -/
theorem hdrLen_le (c : StoreConfig) (w : World σ) (p : ℕ) : hdrLen c w p ≤ 60 := by
  have hand : (iphHl (w.data c p)).toNat ≤ 15 := by
    rw [iphHl, UInt8.toNat_and]
    exact Nat.and_le_right
  rw [hdrLen]
  omega

/-- The words of a header of version 4 do not add up to zero. -/
theorem wordSum_hdrBytes_ne (hversion : iphV (w.data c p) = 4) (hlen : 20 ≤ hdrLen c w p) :
    wordSum (hdrBytes c w p) ≠ 0 := by
  have hfirst : (w.data c p 0).toNat ≠ 0 := by
    intro h0
    have hzero : w.data c p 0 = 0 := UInt8.toNat_inj.mp h0
    rw [iphV, hzero] at hversion
    exact absurd hversion (by decide)
  obtain ⟨n, hn⟩ : ∃ n, hdrLen c w p = n + 1 := Nat.exists_eq_succ_of_ne_zero (by omega)
  rw [hdrBytes, hn, List.range_succ_eq_map, List.map_cons, wordSum_cons]
  omega

/-- With its lengths in order, the packets that pass the checks and have the right addresses are those to be accepted. -/
theorem accept_iff : Accept c w p inp netifs ↔
    Checks c w p ∧ LengthsOk c w p ∧ AddressesOk (w.data c p) w inp netifs := by
  have hchksum : iphV (w.data c p) = 4 → 20 ≤ hdrLen c w p →
      (inetChksum ((w.store.pbufs.pbuf p).payload % 2 == 1) (hdrBytes c w p) = 0 ↔
        2 ^ 16 - 1 ∣ wordSum (hdrBytes c w p)) := by
    intro hversion hlen
    have hlt : (hdrBytes c w p).length < 2 ^ 16 := by
      rw [hdrBytes, List.length_map, List.length_range]
      exact lt_of_le_of_lt (hdrLen_le c w p) (by decide)
    rw [inetChksum_eq_zero_iff _ hlt, and_iff_right (wordSum_hdrBytes_ne hversion hlen)]
  constructor
  · rintro ⟨hversion, hge, hle, htotal, hfirst, hsum, haddrs⟩
    exact ⟨⟨hversion, hfirst, htotal, (hchksum hversion hge).mpr hsum⟩, ⟨hge, hle⟩, haddrs⟩
  · rintro ⟨⟨hversion, hfirst, htotal, hsum⟩, ⟨hge, hle⟩, haddrs⟩
    exact ⟨hversion, hge, hle, htotal, hfirst, (hchksum hversion hge).mp hsum, haddrs⟩

/-- When the header stays whole, the addresses are copied as they came. -/
theorem addressesOk_copied (hok : ChainOk c w.store bs owner p l)
    (hrun : w.store.pbufRealloc c p (iphLen (w.data c p)) = some store) (hchecks : Checks c w p) (hlens : LengthsOk c w p)
    (hfits : ReallocFits c w.store l (iphLen (w.data c p))) :
    AddressesOk (store.data c w.ext p) w inp netifs ↔ AddressesOk (w.data c p) w inp netifs := by
  obtain ⟨hge, hle⟩ := hlens
  have hfirst := hchecks.hdr_first
  refine addressesOk_congr fun i hi => pbufRealloc_head hok hrun hfits ?_ ?_
  · exact lt_of_lt_of_le hi (hge.trans hle)
  · exact lt_of_lt_of_le hi (hge.trans hfirst)

/-- Dropping a packet frees the reference that `ip_input` was given. -/
theorem dropPacket_dropped (hc : Counted w'.store.pbufs owner) (hp : p ∈ w'.store.pbufs.allocated) (hown : 0 < owner p)
    (hrest : w'.rest = w.rest) : Dropped w owner p (dropPacket c w' p) := by
  obtain ⟨count, store, hrun, hc'⟩ := Store.pbufFree_spec (c := c) (p := p) hc fun _ => hown
  rw [dropped, if_neg (hc.ne_null hp)] at hc'
  refine ⟨rfl, { w' with store }, ?_, hc', hrest⟩
  rw [dropPacket, hrun, Option.map_some]

/-- The packet goes to `raw_input` first. -/
theorem ipUpper_calls (u : Handlers σ) (w : World σ) (p inp : ℕ) :
    ∃ calls, (ipUpper c u w p inp).calls =
      .pass .rawInput { w with currentNetif := inp, currentHeader := (w.store.pbufs.pbuf p).payload } p :: calls := by
  simp only [ipUpper]
  split
  · exact ⟨_, rfl⟩
  split
  · exact ⟨_, rfl⟩
  split
  · exact ⟨_, rfl⟩
  split
  · exact ⟨_, rfl⟩
  split
  · exact ⟨_, rfl⟩
  · exact ⟨_, rfl⟩

/-- The first thing that happens to a packet that is delivered. -/
theorem ipDeliver_calls (u : Handlers σ) (w : World σ) (p inp : ℕ) :
    ∃ handler w₁ calls, (ipDeliver c u w p inp).calls = .pass handler w₁ p :: calls ∧ w₁.store = w.store ∧
      w₁.ext = w.ext ∧ w₁.rest = w.rest := by
  rw [ipDeliver]
  split
  · -- a fragment
    dsimp only
    split
    · exact ⟨.ipReass, w, [], rfl, rfl, rfl, rfl⟩
    · exact ⟨.ipReass, w, _, rfl, rfl, rfl, rfl⟩
  · obtain ⟨calls, hcalls⟩ := ipUpper_calls u w p inp
    exact ⟨.rawInput, _, calls, hcalls, rfl, rfl, rfl⟩

/-- The length of the header, in the 16 bits of the code. -/
theorem toNat_iphdrHlen (c : StoreConfig) (w : World σ) (p : ℕ) :
    ((iphHl (w.data c p)).toUInt16 * 4).toNat = hdrLen c w p := by
  have hle := hdrLen_le c w p
  rw [hdrLen] at hle ⊢
  rw [UInt16.toNat_mul, UInt8.toNat_toUInt16]
  simp only [UInt16.reduceToNat]
  omega

/-- The checks, as the code makes them. -/
theorem checks_iff : Checks c w p ↔ iphV (w.data c p) = 4 ∧
    ¬((w.store.pbufs.pbuf p).len < (iphHl (w.data c p)).toUInt16 * 4 ∨
      (w.store.pbufs.pbuf p).totLen < iphLen (w.data c p)) ∧
    inetChksum ((w.store.pbufs.pbuf p).payload % 2 == 1)
      ((List.range ((iphHl (w.data c p)).toUInt16 * 4).toNat).map (w.data c p)) = 0 := by
  rw [not_or, UInt16.lt_iff_toNat_lt, UInt16.lt_iff_toNat_lt, toNat_iphdrHlen, Nat.not_lt, Nat.not_lt]
  constructor
  · rintro ⟨hversion, hfirst, htotal, hsum⟩
    exact ⟨hversion, ⟨hfirst, htotal⟩, hsum⟩
  · rintro ⟨hversion, ⟨hfirst, htotal⟩, hsum⟩
    exact ⟨hversion, hfirst, htotal, hsum⟩

/-- A packet that fails a check is dropped. -/
theorem ipInput_of_not_checks (hnot : ¬Checks c w p) : ipInput c u fuel w p inp = dropPacket c w p := by
  rw [checks_iff] at hnot
  rw [ipInput]
  by_cases hversion : iphV (w.data c p) ≠ 4
  · exact if_pos hversion
  rw [if_neg hversion]
  by_cases hlen : (w.store.pbufs.pbuf p).len < (iphHl (w.data c p)).toUInt16 * 4 ∨
      (w.store.pbufs.pbuf p).totLen < iphLen (w.data c p)
  · exact if_pos hlen
  rw [if_neg hlen]
  exact if_pos fun hsum => hnot ⟨not_not.mp hversion, hlen, hsum⟩

/-- For `NULL` nothing is left to be done. -/
theorem ipInput_of_none (hchecks : Checks c w p) (hrun : w.store.pbufRealloc c p (iphLen (w.data c p)) = none) :
    ipInput c u fuel w p inp = ⟨[], none⟩ := by
  obtain ⟨hversion, hlen, hsum⟩ := checks_iff.mp hchecks
  rw [ipInput, if_neg (not_not.mpr hversion), if_neg hlen, if_neg (not_not.mpr hsum)]
  simp only [hrun]

/-- With the chain cut, the addresses decide. -/
theorem ipInput_of_some (hr : Ready c w bs owner p l inp netifs fuel) (hchecks : Checks c w p)
    (hrun : w.store.pbufRealloc c p (iphLen (w.data c p)) = some store) (hc : Counted store.pbufs owner)
    (hp : p ∈ store.pbufs.allocated) :
    (AddressesOk (store.data c w.ext p) w inp netifs → ∃ handler w₁ calls,
      (ipInput c u fuel w p inp).calls = .pass handler w₁ p :: calls ∧ w₁.store = store ∧ w₁.ext = w.ext ∧
        w₁.rest = w.rest) ∧
    (¬AddressesOk (store.data c w.ext p) w inp netifs → Dropped w owner p (ipInput c u fuel w p inp)) := by
  obtain ⟨hversion, hlen, hsum⟩ := checks_iff.mp hchecks
  rw [ipInput, if_neg (not_not.mpr hversion), if_neg hlen, if_neg (not_not.mpr hsum)]
  obtain ⟨r, hfind, hfound⟩ :=
    findNetifLoop_spec (iphDest (store.data c w.ext p)) hr.list hr.null hr.inp hr.fuel
  simp only [hrun, hfind]
  by_cases hsrc : ip4AddrIsbroadcast (iphSrc (store.data c w.ext p)) (w.netif inp) = true ∨
      ipAddrIsmulticast (iphSrc (store.data c w.ext p)) = true
  · rw [if_pos hsrc]
    refine ⟨fun haddrs => ?_, fun _ => dropPacket_dropped hc hp hr.owned rfl⟩
    obtain ⟨⟨hbroad, hmulti⟩, -⟩ := haddrs
    rw [hbroad, hmulti] at hsrc
    exact absurd hsrc (by decide)
  rw [if_neg hsrc]
  by_cases hr0 : r = 0
  · rw [if_pos hr0]
    exact ⟨fun haddrs => absurd hr0 (hfound.mpr haddrs.2), fun _ => dropPacket_dropped hc hp hr.owned rfl⟩
  · rw [if_neg hr0]
    refine ⟨fun _ => ipDeliver_calls u _ p inp, fun hnot => absurd ⟨?_, hfound.mp hr0⟩ hnot⟩
    obtain ⟨hbroad, hmulti⟩ := not_or.mp hsrc
    exact ⟨Bool.eq_false_iff.mpr hbroad, Bool.eq_false_iff.mpr hmulti⟩

/-- A packet is not both passed on and dropped. -/
theorem Passed.not_dropped {o : Outcome σ} (hpassed : Passed c w owner p l o) : ¬Dropped w owner p o := by
  rintro ⟨hfree, -⟩
  obtain ⟨handler, w₁, calls, hcalls, -⟩ := hpassed
  exact nomatch (List.cons.inj (hfree.symm.trans hcalls)).1

/-- A packet for which `mem_trim` returns `NULL` is neither passed on nor dropped. -/
theorem not_inputMeets_of_none : ¬InputMeets c w owner p l inp netifs ⟨[], none⟩ := by
  rintro ⟨hpass, hdrop⟩
  by_cases haccept : Accept c w p inp netifs
  · obtain ⟨handler, w₁, calls, hcalls, -⟩ := hpass haccept
    cases hcalls
  · cases (hdrop haccept).1

/-- A packet that passes the checks, with the chain cut. -/
theorem inputMeets_iff_of_some (hr : Ready c w bs owner p l inp netifs fuel) (hchecks : Checks c w p)
    (hrun : w.store.pbufRealloc c p (iphLen (w.data c p)) = some store) (hc : Counted store.pbufs owner)
    (hp : p ∈ store.pbufs.allocated) :
    InputMeets c w owner p l inp netifs (ipInput c u fuel w p inp) ↔
      (AddressesOk (store.data c w.ext p) w inp netifs → LengthsOk c w p) ∧
      (LengthsOk c w p → AddressesOk (w.data c p) w inp netifs ∨ AddressesOk (store.data c w.ext p) w inp netifs →
        ReallocFits c w.store l (iphLen (w.data c p))) := by
  obtain ⟨hpass, hdrop⟩ := ipInput_of_some (u := u) hr hchecks hrun hc hp
  have hmeets := pbufRealloc_meets_iff c w.ext w.store bs owner p l (iphLen (w.data c p)) hr.chain
  have hfits : ReallocMeets c w.ext w.store owner p l (iphLen (w.data c p)) store ↔
      ReallocFits c w.store l (iphLen (w.data c p)) := by
    rw [← hmeets]
    refine ⟨fun hmeets => ⟨store, hrun, hmeets⟩, ?_⟩
    rintro ⟨store', hrun', hmeets⟩
    exact Option.some.inj (hrun'.symm.trans hrun) ▸ hmeets
  -- a packet that is passed on keeps its promise exactly when it can be cut
  have hpassed : AddressesOk (store.data c w.ext p) w inp netifs →
      ¬Dropped w owner p (ipInput c u fuel w p inp) ∧
        (Passed c w owner p l (ipInput c u fuel w p inp) ↔ ReallocFits c w.store l (iphLen (w.data c p))) := by
    intro hcopied
    obtain ⟨handler, w₁, calls, hcalls, hstore, hext, hrest⟩ := hpass hcopied
    refine ⟨fun hdropped => ?_, ?_, fun hyes => ?_⟩
    · exact nomatch (List.cons.inj (hdropped.1.symm.trans hcalls)).1
    · rintro ⟨handler', w₁', calls', hcalls', hmeets', -⟩
      have hcall := (List.cons.inj (hcalls'.symm.trans hcalls)).1
      simp only [Call.pass.injEq] at hcall
      exact hfits.mp (hstore ▸ hcall.2.1 ▸ hmeets')
    · exact ⟨handler, w₁, calls, hcalls, hstore ▸ hfits.mpr hyes, hext, hrest⟩
  constructor
  · rintro ⟨haccepted, hrefused⟩
    have hlengths : AddressesOk (store.data c w.ext p) w inp netifs → LengthsOk c w p := by
      intro hcopied
      by_contra hlens
      exact (hpassed hcopied).1 (hrefused fun haccept => hlens (accept_iff.mp haccept).2.1)
    refine ⟨hlengths, fun hlens haddrs => ?_⟩
    by_cases haddr : AddressesOk (w.data c p) w inp netifs
    · have hpass' := haccepted (accept_iff.mpr ⟨hchecks, hlens, haddr⟩)
      by_cases hcopied : AddressesOk (store.data c w.ext p) w inp netifs
      · exact (hpassed hcopied).2.mp hpass'
      · exact absurd (hdrop hcopied) hpass'.not_dropped
    · -- the packet is for us only after the cut
      have hcopied := haddrs.resolve_left haddr
      exact absurd (hrefused fun haccept => haddr (accept_iff.mp haccept).2.2) (hpassed hcopied).1
  · rintro ⟨hlengths, hcut⟩
    have hsame : LengthsOk c w p → ReallocFits c w.store l (iphLen (w.data c p)) →
        (AddressesOk (store.data c w.ext p) w inp netifs ↔ AddressesOk (w.data c p) w inp netifs) :=
      fun hlens hyes => addressesOk_copied hr.chain hrun hchecks hlens hyes
    refine ⟨fun haccept => ?_, fun hnot => ?_⟩
    · obtain ⟨-, hlens, haddr⟩ := accept_iff.mp haccept
      have hyes := hcut hlens (.inl haddr)
      exact (hpassed ((hsame hlens hyes).mpr haddr)).2.mpr hyes
    · refine hdrop fun hcopied => hnot ?_
      have hlens := hlengths hcopied
      have hyes := hcut hlens (.inr hcopied)
      exact accept_iff.mpr ⟨hchecks, hlens, (hsame hlens hyes).mp hcopied⟩

/-- The pbufs of `store`, the bytes `ext` outside the heap, and one interface, 192.168.1.2/24. -/
def packetWorld (store : Store) (ext : ByteMem) : World Unit where
  store := store
  ext := ext
  netif _ := ⟨0, 0xC0A80102, 0xFFFFFF00, netifFlagUp ||| netifFlagBroadcast⟩
  netifList := 1
  currentNetif := 0
  currentHeader := 0
  currentIphdrDest := ipaddrAny
  currentIphdrSrc := ipaddrAny
  rest := ()

/-- No PCB takes the packet. -/
def noPcbs : Handlers Unit :=
  let free := fun (w : World Unit) p => match w.store.pbufFree smallStoreConfig p with
    | some (_, store) => { w with store }
    | none => w
  { ipReass := fun w p => (free w p, 0), rawInput := fun w _ _ => (w, false), udpInput := fun w p _ => free w p
    tcpInput := fun w p _ => free w p, icmpInput := fun w p _ => free w p, icmpDestUnreach := fun w _ => w }

/-- A packet in memory, with the interface that it came by. -/
theorem ready_packetWorld {ext : ByteMem} (hok : ChainOk smallStoreConfig store bs (oneRef p) p l) :
    Ready smallStoreConfig (packetWorld store ext) bs (oneRef p) p l 1 [1] 2 := by
  constructor
  · exact hok
  · rw [oneRef, if_pos rfl]
    exact Nat.one_pos
  · exact ⟨rfl, rfl⟩
  · decide
  · decide
  · decide

/-- A packet from 192.168.1.1 to `udp_input` that is all header. -/
def udpHeader : List UInt8 := [0x45, 0, 0, 20, 0, 0, 0, 0, 64, 17, 0xF7, 0x85, 192, 168, 1, 1, 192, 168, 1, 2]

/-- A header of 20 bytes with a total length of 10, and the right checksum. -/
def shortHeader : List UInt8 := [0x45, 0, 0, 10, 0, 0, 0, 0, 64, 17, 0xF7, 0x8F, 192, 168, 1, 1, 192, 168, 1, 2]

/-- The header in a small frame, in a pbuf from the pool. -/
def shortPacket : World Unit := packetWorld (onePbuf 46 .pool 0) fun x => shortHeader.getD (x - 8192) 0

end BareMetal.Ip
