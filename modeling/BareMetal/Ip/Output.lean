import BareMetal.Ip.ChksumChain
import BareMetal.Ip.Frag

/-! # `ip_output`

`ip_route`, `ip_output_if` and `ip_output` of `ip.c`, with `ip_id`, and what comes of the datagrams when `ip_reass` of
another host gets the fragments. Every header that is sent passes the checks of `ip_input` (`output_accepted`). As `ip_id` goes
once round before it comes back, the fragments of the datagrams of a run are told apart, and what is delivered at
the other end are the datagrams of the run (`output_reass`). -/

namespace BareMetal.Ip

/-! ## Headers that `ip_input` reads -/

variable {h : IpHdr}

/-- A word is read from its two bytes. -/
theorem ofNat_beBytes (x : UInt16) :
    UInt16.ofNat (256 * (UInt8.ofNat (x.toNat / 256)).toNat + (UInt8.ofNat x.toNat).toNat) = x := by
  have hx := x.toNat_lt
  apply UInt16.toNat_inj.mp
  rw [UInt16.toNat_ofNat', UInt8.toNat_ofNat', UInt8.toNat_ofNat']
  omega

/-- An address is read from its two words. -/
theorem ofNat_words (x : UInt32) :
    UInt32.ofNat (2 ^ 16 * (UInt16.ofNat (x.toNat / 0x10000)).toNat + (UInt16.ofNat x.toNat).toNat) = x := by
  have hx := x.toNat_lt
  apply UInt32.toNat_inj.mp
  rw [UInt32.toNat_ofNat', UInt16.toNat_ofNat', UInt16.toNat_ofNat']
  omega

/-- The memory from the header on. -/
def IpHdr.memory (h : IpHdr) (data : List UInt8) (i : ℕ) : UInt8 := (h.bytes ++ data).getD i 0

/-- The fields are read as they were written. -/
theorem fields_memory (h : IpHdr) (data : List UInt8) :
    iphV (h.memory data) = h.vHl >>> 4 ∧ iphHl (h.memory data) = h.vHl &&& 0x0f ∧ iphLen (h.memory data) = h.len ∧
      iphOffset (h.memory data) = h.offset ∧ iphProto (h.memory data) = h.proto ∧ iphSrc (h.memory data) = h.src ∧
      iphDest (h.memory data) = h.dest := by
  have hsrc : iphSrc (h.memory data) = h.src := by
    refine Eq.trans ?_ (ofNat_words h.src)
    rw [← ofNat_beBytes (UInt16.ofNat (h.src.toNat / 0x10000)), ← ofNat_beBytes (UInt16.ofNat h.src.toNat)]
    rfl
  have hdest : iphDest (h.memory data) = h.dest := by
    refine Eq.trans ?_ (ofNat_words h.dest)
    rw [← ofNat_beBytes (UInt16.ofNat (h.dest.toNat / 0x10000)), ← ofNat_beBytes (UInt16.ofNat h.dest.toNat)]
    rfl
  exact ⟨rfl, rfl, ofNat_beBytes h.len, ofNat_beBytes h.offset, rfl, hsrc, hdest⟩

/-- The header lies in front of the data. -/
theorem map_memory (h : IpHdr) (data : List UInt8) : (List.range 20).map (h.memory data) = h.bytes := by
  have hlen : h.bytes.length = 20 := length_bytes h
  refine List.ext_getElem (by rw [List.length_map, List.length_range, hlen]) fun i hi hi' => ?_
  rw [List.getElem_map, List.getElem_range, IpHdr.memory, List.getD_append _ _ _ _ hi', List.getD_eq_getElem _ _ hi']

/-- The checksum adds itself to the sum of the header. -/
theorem leWordSum_bytes (h : IpHdr) : leWordSum h.bytes = leWordSum { h with chksum := 0 }.bytes + h.chksum.toNat := by
  have hlt := h.chksum.toNat_lt
  have hchksum : (UInt8.ofNat h.chksum.toNat).toNat + 256 * (UInt8.ofNat (h.chksum.toNat / 256)).toNat =
      h.chksum.toNat := by
    rw [UInt8.toNat_ofNat', UInt8.toNat_ofNat']
    omega
  simp only [IpHdr.bytes, beBytes, List.cons_append, List.nil_append, leWordSum]
  have hzero : (UInt8.ofNat 0).toNat = 0 := rfl
  rw [hchksum, UInt16.toNat_zero, Nat.zero_div, hzero]
  omega

/-- **The checksum of a header that was made.** `ip_input` takes it, wherever the header lies. -/
theorem inetChksum_withChksum (odd : Bool) (h : IpHdr) : inetChksum odd h.withChksum.bytes = 0 := by
  have hlen : h.withChksum.bytes.length < 2 ^ 16 := by
    rw [length_bytes]
    decide
  have hlen' : { h with chksum := 0 }.bytes.length = 20 := length_bytes _
  have hsame : { h.withChksum with chksum := 0 } = { h with chksum := 0 } := rfl
  rw [inetChksum_eq_zero_iff odd hlen, Ne, ← leWordSum_eq_zero_iff, ← dvd_leWordSum_iff, leWordSum_bytes, hsame]
  have hlt := leWordSum_lt { h with chksum := 0 }.bytes
  rw [hlen'] at hlt
  have hfold := fold_fold_lt (u := leWordSum { h with chksum := 0 }.bytes) (by omega)
  have hmod := (fold_modEq (fold (leWordSum { h with chksum := 0 }.bytes))).trans (fold_modEq _)
  have hzero : fold (fold (leWordSum { h with chksum := 0 }.bytes)) = 0 ↔ leWordSum { h with chksum := 0 }.bytes = 0 :=
    fold_eq_zero_iff.trans fold_eq_zero_iff
  have hchksum : h.withChksum.chksum.toNat = 2 ^ 16 - 1 - fold (fold (leWordSum { h with chksum := 0 }.bytes)) := by
    show (UInt16.ofNat (inetChksum false _)).toNat = _
    rw [UInt16.toNat_ofNat', inetChksum, lwipStandardChksum_eq, if_neg Bool.false_ne_true, Nat.mod_eq_of_lt hfold]
    omega
  rw [Nat.ModEq] at hmod
  rw [hchksum]
  omega

/-! ## The checksum of `ip_output_if` -/

/-- `LWIP_MAKE_U16(a, b)`. -/
def lwipMakeU16 (a b : UInt8) : ℕ := 256 * a.toNat + b.toNat

/-- The checksum that `ip_output_if` adds up while it writes the fields, with `CHECKSUM_GEN_IP_INLINE`. -/
def IpHdr.chkSum (h : IpHdr) : UInt16 :=
  let chkSum := lwipMakeU16 h.proto h.ttl
  let chkSum := chkSum + (htonl h.dest).2 + (htonl h.dest).1
  let chkSum := chkSum + lwipMakeU16 h.tos h.vHl
  let chkSum := chkSum + swapBytesInWord h.len.toNat
  let chkSum := chkSum + swapBytesInWord h.id.toNat
  let chkSum := chkSum + (htonl h.src).2 + (htonl h.src).1
  let chkSum := chkSum / 2 ^ 16 + chkSum % 2 ^ 16
  let chkSum := chkSum / 2 ^ 16 + chkSum
  UInt16.ofNat (2 ^ 32 - 1 - chkSum)

/-- The words of a header. -/
theorem leWordSum_words (h : IpHdr) :
    leWordSum { h with chksum := 0 }.bytes =
      lwipMakeU16 h.tos h.vHl + swapBytesInWord h.len.toNat + swapBytesInWord h.id.toNat +
        swapBytesInWord h.offset.toNat + lwipMakeU16 h.proto h.ttl + ((htonl h.src).2 + (htonl h.src).1) +
        ((htonl h.dest).2 + (htonl h.dest).1) := by
  have hhigh : ∀ x : UInt32, (UInt16.ofNat (x.toNat / 0x10000)).toNat = x.toNat / 2 ^ 16 := fun x => by
    have hx := x.toNat_lt
    rw [UInt16.toNat_ofNat']
    omega
  have hlast : ∀ x : UInt16, leWordSum (beBytes x) = swapBytesInWord x.toNat := fun x => by
    have hx := leWordSum_beBytes x []
    rwa [List.append_nil, leWordSum, Nat.add_zero] at hx
  have hpair : ∀ (a b : UInt8) (m : List UInt8), leWordSum ([a, b] ++ m) = lwipMakeU16 b a + leWordSum m :=
    fun a b m => by
      show a.toNat + 256 * b.toNat + leWordSum m = _
      rw [lwipMakeU16]
      omega
  have hzero : lwipMakeU16 (UInt8.ofNat ((0 : UInt16).toNat / 256)) (UInt8.ofNat (0 : UInt16).toNat) = 0 := rfl
  simp only [IpHdr.bytes, List.append_assoc, leWordSum_beBytes, hlast, hpair, hhigh, hzero, htonl, UInt16.toNat_ofNat']
  omega

/-- It is the checksum that `inet_chksum` makes of the header with 0 in the field. -/
theorem chkSum_eq (h : IpHdr) (hoffset : h.offset = 0) : h.chkSum = h.withChksum.chksum := by
  have hwords := leWordSum_words h
  have hlt := leWordSum_lt { h with chksum := 0 }.bytes
  have hlen : { h with chksum := 0 }.bytes.length = 20 := length_bytes _
  have hswap : swapBytesInWord h.offset.toNat = 0 := by
    rw [hoffset]
    rfl
  rw [hswap] at hwords
  rw [hlen] at hlt
  have hsum : ∀ u, u = leWordSum { h with chksum := 0 }.bytes →
      UInt16.ofNat (2 ^ 32 - 1 - ((u / 2 ^ 16 + u % 2 ^ 16) / 2 ^ 16 + (u / 2 ^ 16 + u % 2 ^ 16))) =
        h.withChksum.chksum := by
    rintro u rfl
    have hfold := fold_fold_lt (u := leWordSum { h with chksum := 0 }.bytes) (by omega)
    apply UInt16.toNat_inj.mp
    show _ = (UInt16.ofNat (inetChksum false _)).toNat
    rw [inetChksum, lwipStandardChksum_eq, if_neg Bool.false_ne_true, Nat.mod_eq_of_lt hfold, UInt16.toNat_ofNat',
      UInt16.toNat_ofNat']
    unfold fold at hfold ⊢
    omega
  refine hsum _ ?_
  rw [hwords]
  omega

/-! ## `ip_output` -/

/-- `struct netif`, with its MTU. -/
structure OutNetif extends Netif where
  mtu : UInt16

/-- What `ip_output` is called with, and what it meets: room for the header in front of the data, memory for the fragments,
and what `netif->output` returns. The length with the header fits in 16 bits. -/
structure OutCall where
  chain : PbufData
  src : UInt32
  dest : UInt32
  ttl : UInt8
  tos : UInt8
  proto : UInt8
  room : Bool
  mem : ℕ → Bool
  outErr : Err
  short : chain.flatten.length + 20 < 0x10000

/-- What came of a datagram: the fragments that were given to `netif->output`, and the error. -/
structure OutRecord where
  dgram : Datagram
  mtu : UInt16
  sent : List Fragment
  err : Err

/-- The variables of `ip.c` and `netif.c`, and the datagrams so far. -/
structure Host where
  netifList : List OutNetif
  netifDefault : Option OutNetif
  ipId : UInt16
  log : List OutRecord

/-- `ip_route(dest)`. -/
def Host.ipRoute (h : Host) (dest : UInt32) : Option OutNetif :=
  match h.netifList.find? fun n => netifIsUp n.toNetif && ipAddrNetcmp dest n.ipAddr n.netmask with
  | some n => some n
  | none => h.netifDefault.filter fun n => netifIsUp n.toNetif

/-- The header that `ip_output_if` makes. -/
def OutCall.iphdr (c : OutCall) (netif : OutNetif) (ipId : UInt16) : IpHdr :=
  let iphdr : IpHdr :=
    ⟨0x45, c.tos, UInt16.ofNat (c.chain.flatten.length + 20), ipId, 0, c.ttl, c.proto, 0,
      if ipAddrIsany c.src then netif.ipAddr else c.src, c.dest⟩
  { iphdr with chksum := iphdr.chkSum }

/-- The header has the checksum that `inet_chksum` makes of it. -/
theorem OutCall.withChksum_iphdr (c : OutCall) (netif : OutNetif) (ipId : UInt16) :
    (c.iphdr netif ipId).withChksum = c.iphdr netif ipId := by
  unfold OutCall.iphdr
  dsimp only
  rw [chkSum_eq _ rfl]
  rfl

/-- The length of the header and the data does not wrap. -/
theorem OutCall.toNat_len (c : OutCall) (netif : OutNetif) (ipId : UInt16) :
    (c.iphdr netif ipId).len.toNat = 20 + c.chain.flatten.length := by
  have hshort := c.short
  show (UInt16.ofNat (c.chain.flatten.length + 20)).toNat = _
  rw [UInt16.toNat_ofNat']
  omega

/-- The header has five words. -/
theorem hl_vHl : (0x45 : UInt8) &&& 0x0f = 5 := by decide

/-- The datagram, with its header. -/
def OutCall.datagram (c : OutCall) (netif : OutNetif) (ipId : UInt16) : Datagram where
  hdr := c.iphdr netif ipId
  chain := c.chain
  len_eq := c.toNat_len netif ipId
  offset_eq := rfl
  hl_eq := hl_vHl
  chksum_eq := c.withChksum_iphdr netif ipId

/-- `ip_output_if`. -/
def Host.ipOutputIf (h : Host) (c : OutCall) (netif : OutNetif) : Option (Err × Host) :=
  if c.room then
    let d := c.datagram netif h.ipId
    let h := { h with ipId := h.ipId + 1 }
    if netif.mtu ≠ 0 ∧ netif.mtu < d.hdr.len then
      (ipFrag d.hdr d.chain netif.mtu c.mem).map fun (sent, err) =>
        (err, { h with log := h.log ++ [⟨d, netif.mtu, sent, err⟩] })
    else some (c.outErr, { h with log := h.log ++ [⟨d, netif.mtu, [⟨d.hdr, d.chain⟩], c.outErr⟩] })
  else some (.buf, h)

/-- `ip_output`. -/
def Host.ipOutput (h : Host) (c : OutCall) : Option (Err × Host) :=
  match h.ipRoute c.dest with
  | none => some (.rte, h)
  | some netif => h.ipOutputIf c netif

def Host.step (h : Host) (c : OutCall) : Option Host := (h.ipOutput c).map Prod.snd

/-! ## Runs of the sender -/

/-- No interface has an MTU with no room for 8 bytes. -/
def Host.Wide (h : Host) : Prop := ∀ n, n ∈ h.netifList ∨ n ∈ h.netifDefault → n.mtu = 0 ∨ 28 ≤ n.mtu.toNat

/-- The header is one of version 4 without options, and the datagram was sent whole, or by `ip_frag`. -/
structure OutRecord.Proper (x : OutRecord) : Prop where
  vHl : x.dgram.hdr.vHl = 0x45
  how : x.sent = [⟨x.dgram.hdr, x.dgram.chain⟩] ∧ (x.mtu = 0 ∨ x.dgram.hdr.len ≤ x.mtu) ∨
    28 ≤ x.mtu.toNat ∧ ∃ mem, ipFrag x.dgram.hdr x.dgram.chain x.mtu mem = some (x.sent, x.err)

variable {host host' : Host} {c : OutCall} {netif : OutNetif} {ipId : UInt16}

/-- A route is an interface of the list, or the default one. -/
theorem ipRoute_mem {dest : UInt32} (h : host.ipRoute dest = some netif) :
    netif ∈ host.netifList ∨ netif ∈ host.netifDefault := by
  rw [Host.ipRoute] at h
  cases hfind : host.netifList.find? fun n => netifIsUp n.toNetif && ipAddrNetcmp dest n.ipAddr n.netmask with
  | some n =>
      rw [hfind] at h
      obtain rfl := Option.some.inj h
      exact .inl (List.mem_of_find?_eq_some hfind)
  | none =>
      rw [hfind] at h
      exact .inr (Option.filter_eq_some_iff.mp h).1

/-- The call finds a route, and room for the header. -/
def Host.sends (h : Host) (c : OutCall) : Bool := c.room && (h.ipRoute c.dest).isSome

/-- The datagram is the one of the call, on the interface of its route. -/
def Host.Made (h : Host) (c : OutCall) (x : OutRecord) : Prop :=
  ∃ netif ipId, h.ipRoute c.dest = some netif ∧ x.dgram = c.datagram netif ipId

/-- What one call does: nothing, or it sends a datagram with the next `ip_id`. -/
theorem step_cases (hwide : host.Wide) (c : OutCall) :
    ∃ host', host.step c = some host' ∧ (host.sends c = false ∧ host' = host ∨
      host.sends c = true ∧ ∃ x : OutRecord, x.Proper ∧ host.Made c x ∧ x.dgram.hdr.id = host.ipId ∧
        host' = { host with ipId := host.ipId + 1, log := host.log ++ [x] }) := by
  rw [Host.step, Host.ipOutput, Host.sends]
  cases hroute : host.ipRoute c.dest with
  | none => exact ⟨host, rfl, .inl ⟨Bool.and_false _, rfl⟩⟩
  | some netif =>
      dsimp only
      rw [Host.ipOutputIf]
      -- `pbuf_header` finds room for the header
      by_cases hroom : c.room = true
      · have hsends : (c.room && (some netif).isSome) = true := by
          rw [hroom]
          rfl
        rw [if_pos hroom]
        dsimp only
        by_cases hfrag : netif.mtu ≠ 0 ∧ netif.mtu < (c.datagram netif host.ipId).hdr.len
        · -- the datagram is longer than the MTU: `ip_frag` sends it
          rw [if_pos hfrag]
          have hmtu := (hwide netif (ipRoute_mem hroute)).resolve_left hfrag.1
          obtain ⟨sent, err, b, hrun, -⟩ := ipFrag_sent (c.datagram netif host.ipId) netif.mtu c.mem hmtu
          rw [hrun]
          let x : OutRecord := ⟨c.datagram netif host.ipId, netif.mtu, sent, err⟩
          exact ⟨_, rfl, .inr ⟨hsends, x, ⟨rfl, .inr ⟨hmtu, c.mem, hrun⟩⟩, ⟨netif, _, hroute, rfl⟩, rfl, rfl⟩⟩
        · -- it is sent as it is
          rw [if_neg hfrag]
          let x : OutRecord :=
            ⟨c.datagram netif host.ipId, netif.mtu, [⟨c.iphdr netif host.ipId, c.chain⟩], c.outErr⟩
          refine ⟨_, rfl, .inr ⟨hsends, x, ⟨rfl, .inl ⟨rfl, ?_⟩⟩, ⟨netif, _, hroute, rfl⟩, rfl, rfl⟩⟩
          by_cases hzero : netif.mtu = 0
          · exact .inl hzero
          · exact .inr (UInt16.not_lt.mp fun hlt => hfrag ⟨hzero, hlt⟩)
      · rw [if_neg hroom, Bool.eq_false_iff.mpr hroom]
        exact ⟨host, rfl, .inl ⟨rfl, rfl⟩⟩

/-- The numbers of the datagrams follow each other, from `id` on. -/
structure Host.Numbered (id : UInt16) (h : Host) : Prop where
  ipId : h.ipId = id + UInt16.ofNat h.log.length
  ids : ∀ i x, h.log[i]? = some x → x.dgram.hdr.id = id + UInt16.ofNat i
  proper : ∀ x ∈ h.log, x.Proper

/-- The next datagram gets the next number. -/
theorem Host.Numbered.snoc {id : UInt16} {x : OutRecord} (h : host.Numbered id) (hx : x.Proper)
    (hid : x.dgram.hdr.id = host.ipId) :
    Host.Numbered id { host with ipId := host.ipId + 1, log := host.log ++ [x] } where
  ipId := by
    rw [h.ipId, List.length_append, List.length_singleton, UInt16.ofNat_add, UInt16.add_assoc]
    rfl
  ids i y hy := by
    rcases Nat.lt_or_ge i host.log.length with hlt | hge
    · rw [List.getElem?_append_left hlt] at hy
      exact h.ids i y hy
    · rw [List.getElem?_append_right hge] at hy
      obtain ⟨hlt, -⟩ := List.getElem?_eq_some_iff.mp hy
      obtain rfl : i = host.log.length := Nat.le_antisymm (Nat.sub_eq_zero_iff_le.mp (Nat.lt_one_iff.mp hlt)) hge
      rw [Nat.sub_self] at hy
      obtain rfl := Option.some.inj hy
      rw [hid, h.ipId]
  proper y hy := by
    rcases List.mem_append.mp hy with hy | hy
    · exact h.proper y hy
    · rw [List.mem_singleton.mp hy]
      exact hx

/-- A run of the sender goes through, and numbers its datagrams: one for each call that finds a route and room. -/
theorem Host.Numbered.run {id : UInt16} (h : host.Numbered id) (hwide : host.Wide) (calls : List OutCall) :
    ∃ host' xs, run Host.step host calls = some host' ∧ host'.Numbered id ∧ host'.log = host.log ++ xs ∧
      List.Forall₂ host.Made (calls.filter host.sends) xs := by
  induction calls generalizing host with
  | nil => exact ⟨host, [], rfl, h, (List.append_nil _).symm, .nil⟩
  | cons c calls ih =>
      obtain ⟨t, hstep, hcases⟩ := step_cases hwide c
      rw [run_cons, hstep, Option.bind_some]
      rcases hcases with ⟨hnot, rfl⟩ | ⟨hsends, x, hx, hmade, hid, rfl⟩
      · rw [List.filter_cons_of_neg (Bool.not_eq_true _ ▸ hnot)]
        exact ih h hwide
      · -- the routes do not change
        obtain ⟨host', xs, hrun, hnum, hlog, hall⟩ := ih (h.snoc hx hid) hwide
        rw [List.append_assoc, List.singleton_append] at hlog
        rw [List.filter_cons_of_pos hsends]
        exact ⟨host', x :: xs, hrun, hnum, hlog, .cons hmade hall⟩

/-- Until `ip_id` has gone round, no two datagrams have the same key. -/
theorem Host.Numbered.eq_of_key {id : UInt16} {x y : OutRecord} (h : host.Numbered id)
    (hlen : host.log.length ≤ 0x10000) (hx : x ∈ host.log) (hy : y ∈ host.log)
    (hkey : x.dgram.hdr.key = y.dgram.hdr.key) : x = y := by
  obtain ⟨i, hi⟩ := List.mem_iff_getElem?.mp hx
  obtain ⟨j, hj⟩ := List.mem_iff_getElem?.mp hy
  have hilt := (List.getElem?_eq_some_iff.mp hi).1
  have hjlt := (List.getElem?_eq_some_iff.mp hj).1
  have hid : x.dgram.hdr.id = y.dgram.hdr.id := congrArg (fun k : Key => k.2.2) hkey
  rw [h.ids i x hi, h.ids j y hj] at hid
  have hij := congrArg UInt16.toNat ((UInt16.add_right_inj id).mp hid)
  rw [UInt16.toNat_ofNat', UInt16.toNat_ofNat', Nat.mod_eq_of_lt (by omega), Nat.mod_eq_of_lt (by omega)] at hij
  rw [hij] at hi
  exact Option.some.inj (hi.symm.trans hj)

/-- The numbers begin with `ip_id`. -/
theorem Host.numbered_init (host : Host) (hempty : host.log = []) : host.Numbered host.ipId where
  ipId := by
    rw [hempty]
    exact (UInt16.add_zero _).symm
  ids i x hx := by
    rw [hempty] at hx
    cases hx
  proper x hx := by
    rw [hempty] at hx
    exact absurd hx List.not_mem_nil

/-! ## What is sent -/

/-- `ip_input` takes the header: of the version, the lengths, and the checksum it asks no more. -/
structure Fragment.Accepted (o : Fragment) : Prop where
  version : iphV (o.hdr.memory o.chain.flatten) = 4
  hl : iphHl (o.hdr.memory o.chain.flatten) = 5
  len : (iphLen (o.hdr.memory o.chain.flatten)).toNat = 20 + o.chain.flatten.length
  chksum : ∀ odd, inetChksum odd ((List.range 20).map (o.hdr.memory o.chain.flatten)) = 0

/-- A header that was made with its checksum and its length is taken. -/
theorem accepted_of_hdr {o : Fragment} {h : IpHdr} (hdr : o.hdr = h.withChksum) (hvHl : h.vHl = 0x45)
    (hlen : h.len.toNat = 20 + o.chain.flatten.length) : o.Accepted := by
  obtain ⟨hv, hhl, hl, -⟩ := fields_memory o.hdr o.chain.flatten
  have hvHl' : o.hdr.vHl = 0x45 := by
    rw [hdr]
    exact hvHl
  refine ⟨?_, ?_, ?_, fun odd => ?_⟩
  · rw [hv, hvHl']
    rfl
  · rw [hhl, hvHl']
    rfl
  · rw [hl, hdr]
    exact hlen
  · rw [map_memory, hdr]
    exact inetChksum_withChksum odd h

/-- A fragment of `ip_frag` is taken. -/
theorem Fragment.Carries.accepted {orig : IpHdr} {data : List UInt8} {mtu : UInt16} {o : Fragment}
    (h : o.Carries orig data mtu) (hvHl : orig.vHl = 0x45) (hdata : data.length + 20 < 0x10000) : o.Accepted := by
  refine accepted_of_hdr h.hdr hvHl ?_
  have hlt := h.lt
  have hlen := length_slice (a := o.lo) h.le
  have hdataLen : o.hdr.dataLen = o.hdr.len - 20 := by
    rw [IpHdr.dataLen, h.hdr]
    show o.hdr.len - (orig.vHl &&& 0x0f).toUInt16 * 4 = o.hdr.len - 20
    rw [hvHl]
    rfl
  have hhi : o.hi = o.lo + (o.hdr.len - 20).toNat := by
    rw [← hdataLen]
    rfl
  have hle := h.le
  have htwenty : (20 : UInt16).toNat = 20 := rfl
  have hlenlt := o.hdr.len.toNat_lt
  rw [UInt16.toNat_sub, htwenty] at hhi
  rw [h.text, hlen]
  show o.hdr.len.toNat = 20 + (o.hi - o.lo)
  omega

/-- The fragments of one datagram. -/
structure OutRecord.SentWell (x : OutRecord) : Prop where
  accepted : ∀ o ∈ x.sent, o.Accepted
  fits : ∀ o ∈ x.sent, x.mtu = 0 ∨ o.hdr.len ≤ x.mtu
  key : ∀ o ∈ x.sent, o.hdr.key = x.dgram.hdr.key
  /-- They carry the data from its beginning on, all of it if there was no error. -/
  carried : ∃ b, Tiles Fragment.lo Fragment.hi x.sent 0 b ∧ (x.err = .ok → b = x.dgram.data.length) ∧
    ∀ o ∈ x.sent, o.chain.flatten = slice x.dgram.data o.lo o.hi

/-- **A datagram** is sent well, whole or in fragments. -/
theorem OutRecord.Proper.sentWell {x : OutRecord} (h : x.Proper) : x.SentWell := by
  have hlen := x.dgram.len_eq
  have hlt := x.dgram.hdr.len.toNat_lt
  rcases h.how with ⟨hsent, hmtu⟩ | ⟨hmtu, mem, hrun⟩
  · -- one piece, which is the whole datagram
    have hlo : (Fragment.mk x.dgram.hdr x.dgram.chain).lo = 0 := by
      rw [Fragment.lo, toNat_fragOffset, x.dgram.offset_eq]
      rfl
    have hhi : (Fragment.mk x.dgram.hdr x.dgram.chain).hi = x.dgram.data.length := by
      rw [Fragment.hi, ← Fragment.lo, hlo, Nat.zero_add, IpHdr.dataLen, h.vHl]
      show (x.dgram.hdr.len - 20).toNat = x.dgram.chain.flatten.length
      have htwenty : (20 : UInt16).toNat = 20 := rfl
      rw [UInt16.toNat_sub, htwenty, hlen]
      omega
    have hwhole : ∀ o ∈ x.sent, o = ⟨x.dgram.hdr, x.dgram.chain⟩ := fun o ho => by
      rw [hsent] at ho
      exact List.mem_singleton.mp ho
    refine ⟨fun o ho => ?_, fun o ho => ?_, fun o ho => ?_, x.dgram.data.length, ?_, fun _ => rfl, fun o ho => ?_⟩
    · rw [hwhole o ho]
      exact accepted_of_hdr x.dgram.chksum_eq.symm h.vHl hlen
    · rw [hwhole o ho]
      exact hmtu
    · rw [hwhole o ho]
    · rw [hsent]
      exact ⟨hlo, hhi⟩
    · rw [hwhole o ho, hlo, hhi, slice_all]
      rfl
  · -- the pieces of `ip_frag`
    obtain ⟨sent, err, b, hrun', htiles, hcarries, hok, -⟩ := ipFrag_sent x.dgram x.mtu mem hmtu
    obtain ⟨rfl, rfl⟩ := Prod.mk.inj (Option.some.inj (hrun'.symm.trans hrun))
    refine ⟨fun o ho => (hcarries o ho).accepted h.vHl ?_, fun o ho => .inr ?_, fun o ho => ?_, b, htiles, hok.mp,
      fun o ho => (hcarries o ho).text⟩
    · rw [Datagram.data]
      omega
    · exact UInt16.le_iff_toNat_le.mpr (hcarries o ho).fits
    · rw [(hcarries o ho).hdr]
      rfl

/-- **What `ip_output` sends.** A run goes through, whatever fails, with a datagram for each call that finds a route and room.
Each datagram has the next `ip_id`; the fragments that it is sent in carry its data and fit the MTU, and `ip_input` takes their
headers. -/
theorem output_accepted (host : Host) (calls : List OutCall) (hempty : host.log = []) (hwide : host.Wide) :
    ∃ host', run Host.step host calls = some host' ∧
      List.Forall₂ host.Made (calls.filter host.sends) host'.log ∧
      (∀ i x, host'.log[i]? = some x → x.dgram.hdr.id = host.ipId + UInt16.ofNat i) ∧
      ∀ x ∈ host'.log, x.SentWell := by
  obtain ⟨host', xs, hrun, hnum, hlog, hall⟩ := (host.numbered_init hempty).run hwide calls
  rw [hempty, List.nil_append] at hlog
  exact ⟨host', hrun, hlog ▸ hall, hnum.ids, fun x hx => (hnum.proper x hx).sentWell⟩

/-! A host with one interface sends 28 bytes, which do not fit into one packet. -/

def smallData : List UInt8 := (List.range 28).map UInt8.ofNat

def smallHost : Host where
  netifList := [⟨⟨0, 0xC0A80101, 0xFFFFFF00, netifFlagUp⟩, 36⟩]
  netifDefault := none
  ipId := 7
  log := []

/-- The data are short. -/
theorem smallData_short : [smallData.take 20, smallData.drop 20].flatten.length + 20 < 0x10000 := by decide

/-- In its pbufs, the data is cut at another place than in the fragments. -/
def smallCall : OutCall where
  chain := [smallData.take 20, smallData.drop 20]
  src := ipaddrAny
  dest := 0xC0A80102
  ttl := 64
  tos := 0
  proto := 17
  room := true
  mem _ := true
  outErr := .ok
  short := smallData_short

/-- The interface has room for eight bytes in a fragment. -/
theorem smallHost_wide : smallHost.Wide := by
  intro n hn
  rcases hn with hn | hn
  · rw [List.mem_singleton.mp hn]
    exact .inr (by decide)
  · cases hn

/-- The datagram goes out in two fragments. -/
theorem output_accepted_small : ∃ host', run Host.step smallHost [smallCall] = some host' ∧
    List.Forall₂ smallHost.Made ([smallCall].filter smallHost.sends) host'.log ∧
    (∀ i x, host'.log[i]? = some x → x.dgram.hdr.id = smallHost.ipId + UInt16.ofNat i) ∧ ∀ x ∈ host'.log, x.SentWell :=
  output_accepted smallHost [smallCall] rfl smallHost_wide

/-! ## The way to the other host -/

/-- A datagram without data. -/
def emptyDatagram (k : Key) : Datagram where
  hdr := IpHdr.withChksum ⟨0x45, 0, 20, k.2.2, 0, 0, 0, 0, k.1, k.2.1⟩
  chain := []
  len_eq := rfl
  offset_eq := rfl
  hl_eq := hl_vHl
  chksum_eq := rfl

/-- The datagram with this key. -/
def Host.recordOf (h : Host) (k : Key) : Option OutRecord := h.log.find? fun x => x.dgram.hdr.key = k

/-- The datagram with this key, which has no data if there is none. -/
def Host.dgramOf (h : Host) (k : Key) : Datagram := ((h.recordOf k).map OutRecord.dgram).getD (emptyDatagram k)

/-- The MTU of the interface that the datagram went out on, if it could be too long for it. -/
def Host.mtuOf (h : Host) (k : Key) : UInt16 :=
  (((h.recordOf k).map OutRecord.mtu).filter fun mtu => 28 ≤ mtu).getD 28

/-- The datagram that is found has the key. -/
theorem recordOf_some {k : Key} {x : OutRecord} (h : host.recordOf k = some x) :
    x ∈ host.log ∧ x.dgram.hdr.key = k := by
  rw [Host.recordOf] at h
  exact ⟨List.mem_of_find?_eq_some h, by simpa using List.find?_some h⟩

/-- The datagram of a key has the key. -/
theorem Host.key_dgramOf (h : Host) (k : Key) : (h.dgramOf k).hdr.key = k := by
  unfold Host.dgramOf
  cases hfind : h.recordOf k with
  | none => rfl
  | some x => exact (recordOf_some hfind).2

/-- The MTU of a key leaves room for eight bytes. -/
theorem Host.le_mtuOf (h : Host) (k : Key) : 28 ≤ (h.mtuOf k).toNat := by
  unfold Host.mtuOf
  cases hfilter : ((h.recordOf k).map OutRecord.mtu).filter fun mtu => 28 ≤ mtu with
  | none => exact Nat.le_refl 28
  | some mtu => exact UInt16.le_iff_toNat_le.mp (of_decide_eq_true (Option.filter_eq_some_iff.mp hfilter).2)

/-- While the keys are different, the datagram is found by its key. -/
theorem Host.Numbered.recordOf_key {id : UInt16} {x : OutRecord} (h : host.Numbered id)
    (hlen : host.log.length ≤ 0x10000) (hx : x ∈ host.log) : host.recordOf x.dgram.hdr.key = some x := by
  cases hfind : host.recordOf x.dgram.hdr.key with
  | none => exact absurd rfl (of_decide_eq_false (Bool.not_eq_true _ ▸ List.find?_eq_none.mp hfind x hx))
  | some y =>
      obtain ⟨hy, hkey⟩ := recordOf_some hfind
      rw [h.eq_of_key hlen hy hx hkey]

/-- A fragment that was sent whole does not come to `ip_reass`. -/
theorem not_copies_whole {d : Datagram} {p : Packet} (h : p.Copies ⟨d.hdr, d.chain⟩) : False := by
  have hoffset : p.hdr.offset = 0 := by
    rw [h.hdr]
    exact d.offset_eq
  rcases p.fragmented with hne | hmore
  · apply hne
    rw [IpHdr.fragOffset, hoffset]
    rfl
  · rw [IpHdr.moreFragments, hoffset] at hmore
    cases hmore

/-- **From host to host.** A host sends datagrams, not more than there are numbers for them, and copies of the fragments come to
`ip_reass` of another one in any order and any number of times. The run there goes through if there is room for each of
them, none goes behind a hole and no datagram becomes too old. What is delivered there was sent here, and a datagram has been
delivered when all its fragments have come. -/
theorem output_reass (host host' : Host) (calls : List OutCall) (es : List ReassEvent) (hempty : host.log = [])
    (hwide : host.Wide) (hcount : calls.length ≤ 0x10000) (hrun : run Host.step host calls = some host')
    (hes : ∀ p, .fragment p ∈ es → ∃ x ∈ host'.log, ∃ o ∈ x.sent, p.Copies o)
    (hcalm : RunMeets Reass.step Reass.Calm Reass.init es) :
    ∃ s, run Reass.step Reass.init es = some s ∧
      (∀ hdr chain, ReassCall.deliver hdr chain ∈ s.calls →
        ∃ x ∈ host'.log, hdr = x.dgram.hdr ∧ chain.flatten = x.dgram.data) ∧
      ∀ x ∈ host'.log, x.err = .ok → x.dgram.data ≠ [] → (∀ o ∈ x.sent, ∃ p, .fragment p ∈ es ∧ p.Copies o) →
        ∃ chain, ReassCall.deliver x.dgram.hdr chain ∈ s.calls ∧ chain.flatten = x.dgram.data := by
  obtain ⟨host₁, xs, hrun₁, hnum, hlog, hmade⟩ := (host.numbered_init hempty).run hwide calls
  obtain rfl := Option.some.inj (hrun₁.symm.trans hrun)
  rw [hempty, List.nil_append] at hlog
  have hlen : host₁.log.length ≤ 0x10000 := by
    rw [hlog, ← hmade.length_eq]
    exact (List.length_filter_le _ _).trans hcount
  -- the datagrams that `ip_frag` has sent are those of the family
  have hfrag : ∀ x ∈ host₁.log, ∀ o ∈ x.sent, (∃ p : Packet, p.Copies o) → ∃ mem,
      ipFrag (host₁.dgramOf x.dgram.hdr.key).hdr (host₁.dgramOf x.dgram.hdr.key).chain
        (host₁.mtuOf x.dgram.hdr.key) mem = some (x.sent, x.err) := by
    rintro x hx o ho ⟨p, hp⟩
    rcases (hnum.proper x hx).how with ⟨hsent, -⟩ | ⟨hmtu, mem, hfrag⟩
    · rw [hsent] at ho
      rw [List.mem_singleton.mp ho] at hp
      exact (not_copies_whole hp).elim
    · have hmtu' : (28 : UInt16) ≤ x.mtu := UInt16.le_iff_toNat_le.mpr hmtu
      refine ⟨mem, ?_⟩
      simp only [Host.dgramOf, Host.mtuOf, hnum.recordOf_key hlen hx, Option.map_some, Option.getD_some,
        Option.filter_some, hmtu', decide_true, if_true]
      exact hfrag
  obtain ⟨s, hs, hright, hcomplete⟩ := frag_reass host₁.dgramOf host₁.mtuOf host₁.key_dgramOf host₁.le_mtuOf es
    (fun p hp => by
      obtain ⟨x, hx, o, ho, hcopy⟩ := hes p hp
      obtain ⟨mem, hmem⟩ := hfrag x hx o ho ⟨p, hcopy⟩
      exact ⟨_, mem, x.sent, x.err, hmem, o, ho, hcopy⟩) hcalm
  refine ⟨s, hs, fun hdr chain hmem => ?_, fun x hx herr hdata hall => ?_⟩
  · obtain ⟨hhdr, htext, hne⟩ := hright hdr chain hmem
    cases hrecord : host₁.recordOf hdr.key with
    | none =>
        refine absurd ?_ hne
        rw [Host.dgramOf, hrecord]
        rfl
    | some x =>
        rw [Host.dgramOf, hrecord] at hhdr htext
        exact ⟨x, (recordOf_some hrecord).1, hhdr, htext⟩
  · have hdgram : host₁.dgramOf x.dgram.hdr.key = x.dgram := by
      rw [Host.dgramOf, hnum.recordOf_key hlen hx]
      rfl
    have hne : x.sent ≠ [] := fun hnil => by
      obtain ⟨b, htiles, hb, -⟩ := (hnum.proper x hx).sentWell.carried
      rw [hnil, hb herr] at htiles
      exact hdata (List.length_eq_zero_iff.mp htiles.symm)
    obtain ⟨o, ho⟩ := List.exists_mem_of_ne_nil _ hne
    obtain ⟨p, -, hcopy⟩ := hall o ho
    obtain ⟨mem, hmem⟩ := hfrag x hx o ho ⟨p, hcopy⟩
    rw [herr] at hmem
    have hdata' : (host₁.dgramOf x.dgram.hdr.key).data ≠ [] := by
      rw [hdgram]
      exact hdata
    have hdone := hcomplete _ mem x.sent hmem hdata' hall
    rw [hdgram] at hdone
    exact hdone

/-! The last fragment comes before the first one. -/

def headPacket : Packet where
  hdr := IpHdr.withChksum ⟨0x45, 0, 36, 7, 0x2000, 64, 17, 0, 0xC0A80101, 0xC0A80102⟩
  chain := [smallData.take 16]
  chain_ne := List.cons_ne_nil _ _
  clen_lt := Nat.le_of_ble_eq_true rfl
  fragmented := .inr rfl

/-- The second fragment has an offset. -/
theorem tail_fragmented :
    (⟨0x45, 0, 32, 7, 2, 64, 17, 0, 0xC0A80101, 0xC0A80102⟩ : IpHdr).withChksum.fragOffset ≠ 0 := by decide

def tailPacket : Packet where
  hdr := IpHdr.withChksum ⟨0x45, 0, 32, 7, 2, 64, 17, 0, 0xC0A80101, 0xC0A80102⟩
  chain := [smallData.drop 16]
  chain_ne := List.cons_ne_nil _ _
  clen_lt := Nat.le_of_ble_eq_true rfl
  fragmented := .inl tail_fragmented

/-- The host after the call. -/
def sentHost : Host := (run Host.step smallHost [smallCall]).getD smallHost

/-- The call goes through. -/
theorem run_sentHost : run Host.step smallHost [smallCall] = some sentHost := by
  have hsome : (run Host.step smallHost [smallCall]).isSome = true := by decide +kernel
  obtain ⟨h, hrun⟩ := Option.isSome_iff_exists.mp hsome
  rw [sentHost, hrun]
  rfl

def headFragment : Fragment := ⟨headPacket.hdr, [[], smallData.take 16]⟩

def tailFragment : Fragment := ⟨tailPacket.hdr, [[], (smallData.drop 16).take 4, smallData.drop 20]⟩

/-- It was cut at another place than its pbufs. -/
theorem log_sentHost : sentHost.log.map (fun x => (x.err, x.dgram.data, x.sent)) =
    [(.ok, smallData, [headFragment, tailFragment])] := by decide +kernel

/-- The datagram is put together again, the last fragment first. -/
theorem output_reass_small : ∃ s, run Reass.step Reass.init [.fragment tailPacket, .tmr, .fragment headPacket] = some s ∧
    ∃ hdr chain, ReassCall.deliver hdr chain ∈ s.calls ∧ chain.flatten = smallData := by
  obtain ⟨x, hlog, hx⟩ := List.map_eq_singleton_iff.mp log_sentHost
  obtain ⟨herr, hx⟩ := Prod.mk.inj hx
  obtain ⟨hdata, hsent⟩ := Prod.mk.inj hx
  have hmem : x ∈ sentHost.log := by
    rw [hlog]
    exact List.mem_cons_self
  have hhead : headPacket.Copies headFragment := ⟨rfl, rfl⟩
  have htail : tailPacket.Copies tailFragment := ⟨rfl, rfl⟩
  have hes : ∀ p, ReassEvent.fragment p ∈ [.fragment tailPacket, .tmr, .fragment headPacket] →
      ∃ x ∈ sentHost.log, ∃ o ∈ x.sent, p.Copies o := by
    intro p hp
    refine ⟨x, hmem, ?_⟩
    rw [hsent]
    simp only [List.mem_cons, ReassEvent.fragment.injEq, List.not_mem_nil, or_false, reduceCtorEq, false_or] at hp
    rcases hp with rfl | rfl
    · exact ⟨tailFragment, by simp, htail⟩
    · exact ⟨headFragment, by simp, hhead⟩
  obtain ⟨s, hrun, -, hall⟩ := output_reass smallHost sentHost [smallCall] _ rfl smallHost_wide (by decide) run_sentHost
    hes (by decide +kernel)
  have hdone := hall x hmem herr (by rw [hdata]; decide) fun o ho => by
    rw [hsent] at ho
    simp only [List.mem_cons, List.not_mem_nil, or_false] at ho
    rcases ho with rfl | rfl
    · exact ⟨headPacket, by simp, hhead⟩
    · exact ⟨tailPacket, by simp, htail⟩
  obtain ⟨chain, hmem', htext⟩ := hdone
  exact ⟨s, hrun, x.dgram.hdr, chain, hmem', htext.trans hdata⟩

end BareMetal.Ip
