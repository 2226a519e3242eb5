import Mathlib.Data.List.Chain
import Mathlib.Data.UInt
import BareMetal.Ip.Addr
import BareMetal.Ip.Chksum
import BareMetal.Ip.Input

/-! # Reassembly

`ip_reass` of `ip_frag.c`: the datagrams that are being put together, newest first, each with the fragments that have
come so far in the order of their offsets. A pbuf chain is the list of the data of its pbufs, behind the IP header of the
first one. `memp_malloc` of `MEMP_REASSDATA` fails when all elements are in use. The result `none` says that an
element which has been given back to its pool stays on `reassdatagrams`, as `LWIP_ASSERT("prev->next == ipr")` would tell. -/

namespace BareMetal.Ip

/-! ## Headers -/

/-- `struct ip_hdr`. But for the checksum, which is stored as it is computed, the numbers are in the order of the host. -/
structure IpHdr where
  vHl : UInt8
  tos : UInt8
  len : UInt16
  id : UInt16
  offset : UInt16
  ttl : UInt8
  proto : UInt8
  chksum : UInt16
  src : UInt32
  dest : UInt32
  deriving DecidableEq, Repr

/-- The two bytes of a number, the high one first. -/
def beBytes (x : UInt16) : List UInt8 := [UInt8.ofNat (x.toNat / 256), UInt8.ofNat x.toNat]

/-- The header as it lies in memory. -/
def IpHdr.bytes (h : IpHdr) : List UInt8 :=
  [h.vHl, h.tos] ++ beBytes h.len ++ beBytes h.id ++ beBytes h.offset ++ [h.ttl, h.proto] ++
    [UInt8.ofNat h.chksum.toNat, UInt8.ofNat (h.chksum.toNat / 256)] ++
    beBytes (UInt16.ofNat (h.src.toNat / 0x10000)) ++ beBytes (UInt16.ofNat h.src.toNat) ++
    beBytes (UInt16.ofNat (h.dest.toNat / 0x10000)) ++ beBytes (UInt16.ofNat h.dest.toNat)

/-- `IPH_CHKSUM_SET(hdr, 0)`, and then `IPH_CHKSUM_SET(hdr, inet_chksum(hdr, IP_HLEN))`. -/
def IpHdr.withChksum (h : IpHdr) : IpHdr :=
  { h with chksum := UInt16.ofNat (inetChksum false { h with chksum := 0 }.bytes) }

/-- `IP_ADDRESSES_AND_ID_MATCH(iphdrA, iphdrB)`. -/
def IpHdr.matches (a b : IpHdr) : Bool := a.src == b.src && a.dest == b.dest && a.id == b.id

/-- `(ntohs(IPH_OFFSET(hdr)) & IP_OFFMASK) * 8`. -/
def IpHdr.fragOffset (h : IpHdr) : UInt16 := (h.offset &&& ipOffmask) * 8

/-- `IPH_OFFSET(hdr) & PP_NTOHS(IP_MF)` is not 0. -/
def IpHdr.moreFragments (h : IpHdr) : Bool := h.offset &&& ipMf != 0

/-- The length of the data, `ntohs(IPH_LEN(hdr)) - IPH_HL(hdr) * 4`. -/
def IpHdr.dataLen (h : IpHdr) : UInt16 := h.len - (h.vHl &&& 0x0f).toUInt16 * 4

/-! ## The data -/

/-- The data of the pbufs of a chain. -/
abbrev PbufData : Type := List (List UInt8)

/-- A fragment that `ip_input` passes on, with fewer than 256 pbufs, so that `pbuf_clen` counts them. -/
structure Packet where
  hdr : IpHdr
  chain : PbufData
  chain_ne : chain ≠ []
  clen_lt : chain.length < 256
  /-- `ip_input` has looked at the offset and the flag. -/
  fragmented : hdr.fragOffset ≠ 0 ∨ hdr.moreFragments = true

/-- A fragment in a queue, with the `struct ip_reass_helper` that is written over its header. -/
structure Frag where
  start : UInt16
  stop : UInt16
  chain : PbufData
  deriving DecidableEq, Repr

/-- `struct ip_reassdata`; `next` is the rest of the list. -/
structure ReassData where
  /-- `p`, in the order of `next_pbuf`. -/
  p : List Frag
  iphdr : IpHdr
  datagramLen : UInt16
  /-- `IP_REASS_FLAG_LASTFRAG`. -/
  lastfrag : Bool
  timer : UInt8
  deriving DecidableEq, Repr

/-- What is done with the chains that are not kept. -/
inductive ReassCall
  | pbufFree (chain : PbufData)
  /-- `icmp_time_exceeded(p, ICMP_TE_FRAG)`. -/
  | icmpTimeExceeded (hdr : IpHdr) (chain : PbufData)
  /-- `ip_reass` returns the datagram. -/
  | deliver (hdr : IpHdr) (chain : PbufData)
  deriving DecidableEq, Repr

/-- The variables of `ip_frag.c`, the number of free elements in the pool, and the calls so far. -/
structure Reass where
  reassdatagrams : List ReassData
  pbufcount : UInt16
  pool : ℕ
  calls : List ReassCall
  deriving DecidableEq, Repr

/-- `IP_REASS_MAX_PBUFS`. -/
def ipReassMaxPbufs : ℕ := 10

/-- `IP_REASS_MAXAGE`. -/
def ipReassMaxage : UInt8 := 3

/-- `MEMP_NUM_REASSDATA`. -/
def mempNumReassdata : ℕ := 5

/-- After the initialisation. -/
def Reass.init : Reass := ⟨[], 0, mempNumReassdata, []⟩

/-- `pbuf_clen`. -/
def pbufClen (chain : PbufData) : UInt8 := UInt8.ofNat chain.length

/-! ## Giving datagrams up -/

/-- The number of pbufs in the queue, as it is summed up. -/
def ReassData.pbufs (r : ReassData) : UInt16 := (r.p.map fun q => (pbufClen q.chain).toUInt16).sum

/-- What `ip_reass_free_complete_datagram` does with the fragments. -/
def ReassData.freeCalls (r : ReassData) : List ReassCall :=
  match r.p with
  | [] => []
  | q :: rest =>
      (if q.start = 0 then [.icmpTimeExceeded r.iphdr q.chain] else []) ++
        (q :: rest).map fun q => .pbufFree q.chain

/-- `ip_reass_free_complete_datagram` for a datagram that has been taken off the list. -/
def Reass.freeCompleteDatagram (s : Reass) (r : ReassData) : Reass :=
  { s with
    pbufcount := s.pbufcount - r.pbufs
    pool := s.pool + 1
    calls := s.calls ++ r.freeCalls }

/-- The loop of `ip_reass_tmr`. -/
def ipReassTmrLoop : List ReassData → Reass → List ReassData × Reass
  | [], s => ([], s)
  | r :: rest, s =>
      if 0 < r.timer then
        let (kept, s) := ipReassTmrLoop rest s
        ({ r with timer := r.timer - 1 } :: kept, s)
      else ipReassTmrLoop rest (s.freeCompleteDatagram r)

/-- `ip_reass_tmr`. -/
def Reass.ipReassTmr (s : Reass) : Reass :=
  let (kept, s) := ipReassTmrLoop s.reassdatagrams s
  { s with reassdatagrams := kept }

/-- The older one of the datagram `r` at place `i` and the oldest one so far. -/
def keepOlder (i : ℕ) (r : ReassData) : Option (ℕ × ReassData) → ℕ × ReassData
  | none => (i, r)
  | some (j, o) => if r.timer ≤ o.timer then (i, r) else (j, o)

/-- The loop of `ip_reass_remove_oldest_datagram` over the list from place `i` on: the oldest datagram that the fragment
is not of, with its place. -/
def oldestOther (fraghdr : IpHdr) : List ReassData → ℕ → Option (ℕ × ReassData) → Option (ℕ × ReassData)
  | [], _, oldest => oldest
  | r :: rest, i, oldest =>
      if r.iphdr.matches fraghdr then oldestOther fraghdr rest (i + 1) oldest
      else oldestOther fraghdr rest (i + 1) (some (keepOlder i r oldest))

/-- `other_datagrams`. -/
def otherDatagrams (fraghdr : IpHdr) (l : List ReassData) : ℕ := l.countP fun r => !r.iphdr.matches fraghdr

/-- `ip_reass_remove_oldest_datagram(fraghdr, pbufs_needed)`, which goes at most `fuel` times round; with `pbufs_freed`.
The loop over the list leaves the last element but one in `prev`. An element that is not the first one of the list is
unlinked through `prev`. -/
def Reass.removeOldestDatagram (fraghdr : IpHdr) (pbufsNeeded : ℕ) : ℕ → ℕ → Reass → Option (ℕ × Reass)
  | 0, _, _ => none
  | fuel + 1, pbufsFreed, s =>
      match oldestOther fraghdr s.reassdatagrams 0 none with
      | none => some (pbufsFreed, s)
      | some (i, oldest) =>
          if i = 0 ∨ i + 1 = s.reassdatagrams.length then
            let others := otherDatagrams fraghdr s.reassdatagrams
            let s := { s with reassdatagrams := s.reassdatagrams.eraseIdx i }.freeCompleteDatagram oldest
            let pbufsFreed := pbufsFreed + oldest.pbufs.toNat
            if pbufsFreed < pbufsNeeded ∧ 1 < others then s.removeOldestDatagram fraghdr pbufsNeeded fuel pbufsFreed
            else some (pbufsFreed, s)
          else none

/-! ## Queueing a fragment -/

/-- The loop of `ip_reass_chain_frag_into_datagram_and_validate` over the queue from `q` on, and the insertion: the
fragments in front of the new one, those behind it, and `valid`. `none` means that the fragment is freed. `prev` is
the fragment before `q`. -/
def chainFrag (new : Frag) : Option Frag → Bool → List Frag → Option (List Frag × List Frag × Bool)
  | none, valid, [] => some ([], [], valid)
  | some prev, valid, [] => some ([], [], valid && prev.stop == new.start)
  | prev, valid, q :: rest =>
      if new.start < q.start then
        if prev.any fun prev => new.start < prev.stop || q.start < new.stop then none
        else some ([], q :: rest, valid)
      else if new.start = q.start then none
      else if new.start < q.stop then none
      else
        (chainFrag new (some q) (valid && prev.all fun prev => prev.stop == q.start) rest).map
          fun (front, behind, valid) => (q :: front, behind, valid)

/-- `while (q != NULL)` of the validation: there are no holes behind `prev`. -/
def noHoles : Frag → List Frag → Bool
  | _, [] => true
  | prev, q :: rest => if prev.stop ≠ q.start then false else noHoles q rest

/-- The validation of the queue `front ++ new :: behind`. -/
def validDatagram (lastfrag valid : Bool) (new : Frag) (front behind : List Frag) : Bool :=
  lastfrag && valid && ((front ++ [new]).head?.any fun q => q.start == 0) && noHoles new behind

/-- The search for the datagram of the fragment: the datagrams in front of it, itself, and those behind it. -/
def findDatagram (fraghdr : IpHdr) : List ReassData → Option (List ReassData × ReassData × List ReassData)
  | [] => none
  | r :: rest =>
      if r.iphdr.matches fraghdr then some ([], r, rest)
      else (findDatagram fraghdr rest).map fun (front, ipr, behind) => (r :: front, ipr, behind)

/-- `ip_reass_enqueue_new_datagram(fraghdr, clen)`, without the insertion of the element, which is made here: it is
`none` in the result if there is no memory. -/
def Reass.enqueueNewDatagram (s : Reass) (fraghdr : IpHdr) (clen : ℕ) : Option (Option ReassData × Reass) :=
  let ipr : ReassData := ⟨[], fraghdr, 0, false, ipReassMaxage⟩
  if 0 < s.pool then some (some ipr, { s with pool := s.pool - 1 })
  else
    (s.removeOldestDatagram fraghdr clen (s.reassdatagrams.length + 1) 0).map fun (freed, s) =>
      if clen ≤ freed ∧ 0 < s.pool then (some ipr, { s with pool := s.pool - 1 }) else (none, s)

/-! ## `ip_reass` -/

/-- `nullreturn`: the fragment is freed. -/
def Reass.nullreturn (s : Reass) (p : Packet) : Reass := { s with calls := s.calls ++ [.pbufFree p.chain] }

/-- The header of the fragment goes into the element when it is the first one of the datagram, and that of the element
is not; the last fragment sets the flag and the length. -/
def ReassData.note (r : ReassData) (fraghdr : IpHdr) : ReassData :=
  let r := if fraghdr.fragOffset = 0 ∧ r.iphdr.fragOffset ≠ 0 then { r with iphdr := fraghdr } else r
  if fraghdr.moreFragments then r
  else { r with lastfrag := true, datagramLen := fraghdr.fragOffset + fraghdr.dataLen }

/-- The header of a datagram that is complete. -/
def ReassData.header (r : ReassData) : IpHdr :=
  IpHdr.withChksum { r.iphdr with len := r.datagramLen + 20, offset := 0 }

/-- The fragment as it is queued. -/
def Packet.frag (p : Packet) : Frag := ⟨p.hdr.fragOffset, p.hdr.fragOffset + p.hdr.dataLen, p.chain⟩

/-- `ip_reass` from the place on where the datagram `ipr` of the fragment has been found between `front` and `behind`. -/
def Reass.queueFragment (s : Reass) (p : Packet) (front : List ReassData) (ipr : ReassData) (behind : List ReassData) :
    Reass :=
  let clen := (pbufClen p.chain).toUInt16
  let s := { s with pbufcount := s.pbufcount + clen }
  let ipr := ipr.note p.hdr
  match chainFrag p.frag none true ipr.p with
  | none =>
      { s with
        reassdatagrams := front ++ ipr :: behind
        pbufcount := s.pbufcount - clen
        calls := s.calls ++ [.pbufFree p.chain] }
  | some (before, after, valid) =>
      let queue := before ++ p.frag :: after
      if validDatagram ipr.lastfrag valid p.frag before after then
        let chain := queue.flatMap Frag.chain
        { s with
          reassdatagrams := front ++ behind
          pbufcount := s.pbufcount - (pbufClen chain).toUInt16
          pool := s.pool + 1
          calls := s.calls ++ [.deliver ipr.header chain] }
      else { s with reassdatagrams := front ++ { ipr with p := queue } :: behind }

/-- There are too many pbufs in the queues for one more chain. -/
def Reass.overfull (s : Reass) (p : Packet) : Bool :=
  ipReassMaxPbufs < s.pbufcount.toNat + (pbufClen p.chain).toNat

/-- The first part of `ip_reass`: when there are too many pbufs, datagrams are given up. The number of pbufs that were
freed is not 0 if there is room now. -/
def Reass.makeRoom (s : Reass) (p : Packet) : Option (ℕ × Reass) :=
  if s.overfull p then
    s.removeOldestDatagram p.hdr (pbufClen p.chain).toNat (s.reassdatagrams.length + 1) 0
  else some (1, s)

/-- The second part: the datagram of the fragment is looked for, or made. -/
def Reass.acceptFragment (s : Reass) (p : Packet) : Option Reass :=
  match findDatagram p.hdr s.reassdatagrams with
  | some (front, ipr, behind) => some (s.queueFragment p front ipr behind)
  | none =>
      (s.enqueueNewDatagram p.hdr (pbufClen p.chain).toNat).map fun
        | (none, s) => s.nullreturn p
        | (some ipr, s) => s.queueFragment p [] ipr s.reassdatagrams

/-- `ip_reass(p)`. -/
def Reass.ipReass (s : Reass) (p : Packet) : Option Reass :=
  if p.hdr.vHl &&& 0x0f ≠ 5 then some (s.nullreturn p)
  else
    (s.makeRoom p).bind fun (freed, s) =>
      if freed = 0 ∨ s.overfull p = true then some (s.nullreturn p) else s.acceptFragment p

end BareMetal.Ip
