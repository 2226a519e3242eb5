import BareMetal.Ip.ReassOrder

/-! # Fragmentation

`ip_frag` of `ip_frag.c`, as it is compiled without a static buffer: each fragment is a header of its own and a chain of
pbufs that refer to the data of the datagram. What it sends are pieces that `ip_reass` puts together again, whatever the
pbufs of the datagram are and whatever the network does with the fragments (`frag_reass`). -/

namespace BareMetal.Ip

/-! ## `ip_frag` -/

/-- A fragment that is given to `netif->output`: the header, and the data of the pbufs behind it. -/
structure Fragment where
  hdr : IpHdr
  chain : PbufData
  deriving DecidableEq, Repr

/-- `err_t`: `ERR_OK`, `ERR_MEM`, `ERR_BUF`, `ERR_RTE`, and what an interface returns else. -/
inductive Err
  | ok
  | mem
  | buf
  | rte
  | netif
  deriving DecidableEq, Repr

/-- The chain with the header in the first pbuf. -/
def IpHdr.onto (h : IpHdr) : PbufData → PbufData
  | [] => [h.bytes]
  | d :: rest => (h.bytes ++ d) :: rest

/-- `p->payload += poff` and `p->len -= poff`. -/
def skipBytes (poff : ℕ) : PbufData → PbufData
  | [] => []
  | d :: rest => d.drop poff :: rest

/-- `while (left_to_copy)`: the pbufs that mirror the next `leftToCopy` bytes, the place in the chain where the loop ends,
and `newpbuflen`. -/
def mirror : ℕ → ℕ → PbufData → Option (PbufData × PbufData × ℕ)
  | leftToCopy, newpbuflen, [] => if leftToCopy = 0 then some ([], [], newpbuflen) else none
  | leftToCopy, newpbuflen, d :: rest =>
      if leftToCopy = 0 then some ([], d :: rest, newpbuflen)
      else
        let newpbuflen := min leftToCopy d.length
        if newpbuflen = 0 then mirror leftToCopy newpbuflen rest
        else if leftToCopy - newpbuflen = 0 then some ([d.take newpbuflen], d :: rest, newpbuflen)
        else
          (mirror (leftToCopy - newpbuflen) newpbuflen rest).map fun (refs, p, n) => (d.take newpbuflen :: refs, p, n)

/-- `nfb`, the number of blocks of 8 bytes in a fragment. -/
def nfb (mtu : UInt16) : UInt16 := UInt16.ofInt (Int.tdiv (mtu.toNat - 20) 8)

/-- `while (left)`, which goes fewer than `fuel` times round. `mem i` says whether there is memory for the pbufs of the
fragment `i`. -/
def ipFragLoop (orig : IpHdr) (mtu : UInt16) (mem : ℕ → Bool) :
    ℕ → ℕ → UInt16 → UInt16 → ℕ → ℕ → PbufData → Option (List Fragment × Err)
  | 0, _, _, _, _, _, _ => none
  | fuel + 1, i, left, ofo, poff, newpbuflen, p =>
      if left = 0 then some ([], .ok)
      else
        let last : Bool := (left.toNat : ℤ) ≤ mtu.toNat - 20
        let tmp := (orig.offset &&& ipMf) ||| (ipOffmask &&& ofo)
        let tmp := if last then tmp else tmp ||| ipMf
        let cop := if last then left else nfb mtu * 8
        if mem i then
          (mirror cop.toNat newpbuflen (skipBytes poff p)).bind fun (refs, p, newpbuflen) =>
            let iphdr := IpHdr.withChksum { orig with offset := tmp, len := cop + 20 }
            (ipFragLoop orig mtu mem fuel (i + 1) (left - cop) (ofo + nfb mtu) newpbuflen newpbuflen p).map
              fun (sent, err) => (⟨iphdr, [] :: refs⟩ :: sent, err)
        else some ([], .mem)

/-- `ip_frag` for the datagram with the header `orig` and the data in `chain` behind it. -/
def ipFrag (orig : IpHdr) (chain : PbufData) (mtu : UInt16) (mem : ℕ → Bool) : Option (List Fragment × Err) :=
  let p := orig.onto chain
  let left := UInt16.ofNat p.flatten.length - 20
  ipFragLoop orig mtu mem (left.toNat + 1) 0 left (orig.offset &&& ipOffmask) 20 0 p

/-- A datagram that is sent: `ip_output_if` has made the header. -/
structure Datagram where
  hdr : IpHdr
  chain : PbufData
  len_eq : hdr.len.toNat = 20 + chain.flatten.length
  offset_eq : hdr.offset = 0
  hl_eq : hdr.vHl &&& 0x0f = 5
  chksum_eq : hdr.withChksum = hdr

/-- The data behind the header. -/
def Datagram.data (d : Datagram) : List UInt8 := d.chain.flatten

/-! ## Copying -/

variable {p refs : PbufData} {n leftToCopy newpbuflen poff : ℕ}

/-- The bytes of a chain whose first 20 bytes are a header. -/
theorem flatten_onto (h : IpHdr) (chain : PbufData) : (h.onto chain).flatten = h.bytes ++ chain.flatten := by
  cases chain with
  | nil => simp [IpHdr.onto]
  | cons d rest => simp [IpHdr.onto]

/-- A field of 16 bits. -/
@[simp] theorem length_beBytes (x : UInt16) : (beBytes x).length = 2 := rfl

/-- A header without options. -/
theorem length_bytes (h : IpHdr) : h.bytes.length = 20 := by simp [IpHdr.bytes]

/-- Behind the header there is what was there before. -/
theorem flatten_skipBytes_onto (h : IpHdr) (chain : PbufData) : (skipBytes 20 (h.onto chain)).flatten = chain.flatten := by
  have hlen := length_bytes h
  cases chain with
  | nil => simp [IpHdr.onto, skipBytes, hlen]
  | cons d rest => simp [IpHdr.onto, skipBytes, hlen]

/-- The mirrors hold the next bytes, and the copying goes on behind them. -/
theorem mirror_spec (newpbuflen : ℕ) (hpos : 0 < leftToCopy) (hle : leftToCopy ≤ p.flatten.length) :
    ∃ refs p' n, mirror leftToCopy newpbuflen p = some (refs, p', n) ∧ refs.flatten = p.flatten.take leftToCopy ∧
      (skipBytes n p').flatten = p.flatten.drop leftToCopy := by
  induction p generalizing leftToCopy newpbuflen with
  | nil => exact absurd hle (Nat.not_le_of_gt hpos)
  | cons d rest ih =>
      rw [List.flatten_cons, List.length_append] at hle
      rw [mirror, if_neg (Nat.pos_iff_ne_zero.mp hpos), List.flatten_cons]
      dsimp only
      by_cases hempty : min leftToCopy d.length = 0
      · have hd : d = [] := List.length_eq_zero_iff.mp (by omega)
        subst hd
        rw [if_pos hempty]
        exact ih _ hpos (by simpa using hle)
      rw [if_neg hempty]
      by_cases hdone : leftToCopy - min leftToCopy d.length = 0
      · -- the last pbuf is mirrored in part
        have hmin : min leftToCopy d.length = leftToCopy := by omega
        have hfits : leftToCopy ≤ d.length := by omega
        rw [if_pos hdone, hmin]
        refine ⟨_, _, _, rfl, ?_, ?_⟩
        · simp [List.take_append_of_le_length hfits]
        · rw [skipBytes, List.flatten_cons, List.drop_append_of_le_length hfits]
      · -- the whole pbuf is mirrored
        have hmin : min leftToCopy d.length = d.length := by omega
        have hmore : d.length < leftToCopy := by omega
        rw [if_neg hdone, hmin]
        have hpos' : 0 < leftToCopy - d.length := Nat.sub_pos_of_lt hmore
        obtain ⟨refs, p', n, hrun, hrefs, hrest⟩ := ih d.length hpos' (by omega)
        rw [hrun]
        refine ⟨_, _, _, rfl, ?_, ?_⟩
        · rw [List.flatten_cons, hrefs, List.take_length, List.take_append, List.take_of_length_le hmore.le]
        · rw [hrest, List.drop_append, List.drop_of_length_le hmore.le, List.nil_append]

/-! ## The fields of the headers -/

variable {x mtu : UInt16}

/-- The mask of the offset, as a remainder. -/
theorem toNat_and_ipOffmask (x : UInt16) : (x &&& ipOffmask).toNat = x.toNat % 0x2000 := by
  rw [UInt16.toNat_and]
  exact Nat.and_two_pow_sub_one_eq_mod x.toNat 13

/-- The offset counts units of 8 bytes. -/
theorem toNat_fragOffset (h : IpHdr) : h.fragOffset.toNat = 8 * (h.offset.toNat % 0x2000) := by
  have hmod : h.offset.toNat % 0x2000 < 0x2000 := Nat.mod_lt _ (by decide)
  have height : (8 : UInt16).toNat = 8 := rfl
  rw [IpHdr.fragOffset, UInt16.toNat_mul, toNat_and_ipOffmask, height, Nat.mod_eq_of_lt (by omega), Nat.mul_comm]

/-- The bit above the offset. -/
theorem moreFragments_iff (h : IpHdr) : h.moreFragments = true ↔ h.offset.toNat / 0x2000 % 2 = 1 := by
  rw [IpHdr.moreFragments, bne_iff_ne, Ne, ← UInt16.toNat_inj, UInt16.toNat_and]
  have hmf : ipMf.toNat = 2 ^ 13 := rfl
  rw [hmf, Nat.and_two_pow]
  have hbit : h.offset.toNat.testBit 13 = decide (h.offset.toNat / 0x2000 % 2 = 1) := Nat.testBit_eq_decide_div_mod_eq
  rw [hbit]
  by_cases hm : h.offset.toNat / 0x2000 % 2 = 1 <;> simp [hm]

/-- The field of the offset with the flag. -/
theorem toNat_or_ipMf (hx : x.toNat < 0x2000) : (x ||| ipMf).toNat = 0x2000 + x.toNat := by
  rw [UInt16.toNat_or, Nat.or_comm]
  exact (Nat.two_pow_add_eq_or_of_lt (i := 13) hx 1).symm
/-- The number of 8-byte units that fit into a fragment. -/
theorem toNat_nfb (h : 20 ≤ mtu.toNat) : (nfb mtu).toNat = (mtu.toNat - 20) / 8 := by
  have hlt := mtu.toNat_lt
  have hdiv : Int.tdiv ((mtu.toNat : ℤ) - 20) 8 = ((mtu.toNat - 20) / 8 : ℕ) := by
    rw [Int.tdiv_eq_ediv_of_nonneg (by omega)]
    omega
  rw [nfb, hdiv, UInt16.ofInt, UInt16.toNat_ofNat']
  omega

/-! ## The fragments -/

/-- Where the data of the fragment begins. -/
def Fragment.lo (o : Fragment) : ℕ := o.hdr.fragOffset.toNat

/-- Where the data of the fragment ends. -/
def Fragment.hi (o : Fragment) : ℕ := o.hdr.fragOffset.toNat + o.hdr.dataLen.toNat

/-- The fragment carries its part of the data. -/
structure Fragment.Carries (orig : IpHdr) (data : List UInt8) (mtu : UInt16) (o : Fragment) : Prop where
  hdr : o.hdr = IpHdr.withChksum { orig with offset := o.hdr.offset, len := o.hdr.len }
  lt : o.lo < o.hi
  le : o.hi ≤ data.length
  text : o.chain.flatten = slice data o.lo o.hi
  more : o.hdr.moreFragments = true ↔ o.hi < data.length
  fits : o.hdr.len.toNat ≤ mtu.toNat

variable {orig : IpHdr} {data : List UInt8} {fuel i a : ℕ} {left ofo : UInt16} {mem : ℕ → Bool}

/-- One fragment, with the data from `a` on. -/
theorem carries_fragment (tmp : UInt16) {cop : UInt16} (hhl : orig.vHl &&& 0x0f = 5) (hcop : 0 < cop.toNat)
    (hle : a + cop.toNat ≤ data.length) (hdata : data.length + 20 < 0x10000) (hoffset : 8 * (tmp.toNat % 0x2000) = a)
    (hmore : tmp.toNat / 0x2000 % 2 = 1 ↔ a + cop.toNat < data.length) (hfits : cop.toNat + 20 ≤ mtu.toNat)
    (hrefs : refs.flatten = (data.drop a).take cop.toNat) :
    (Fragment.mk (IpHdr.withChksum { orig with offset := tmp, len := cop + 20 }) ([] :: refs)).lo = a ∧
      (Fragment.mk (IpHdr.withChksum { orig with offset := tmp, len := cop + 20 }) ([] :: refs)).hi = a + cop.toNat ∧
      (Fragment.mk (IpHdr.withChksum { orig with offset := tmp, len := cop + 20 }) ([] :: refs)).Carries orig data mtu := by
  have htwenty : (20 : UInt16).toNat = 20 := rfl
  have hlen : (cop + 20).toNat = cop.toNat + 20 := by
    rw [UInt16.toNat_add, htwenty, Nat.mod_eq_of_lt (by omega)]
  have hlo : (Fragment.mk (IpHdr.withChksum { orig with offset := tmp, len := cop + 20 }) ([] :: refs)).lo = a := by
    rw [← hoffset]
    exact toNat_fragOffset _
  have hdataLen : (IpHdr.withChksum { orig with offset := tmp, len := cop + 20 }).dataLen = cop := by
    show cop + 20 - (orig.vHl &&& 0x0f).toUInt16 * 4 = cop
    rw [hhl]
    exact UInt16.add_sub_cancel cop 20
  have hhi : (Fragment.mk (IpHdr.withChksum { orig with offset := tmp, len := cop + 20 }) ([] :: refs)).hi =
      a + cop.toNat := by
    rw [Fragment.hi, hdataLen, ← hlo]
    rfl
  refine ⟨hlo, hhi, rfl, by omega, by omega, ?_, ?_, ?_⟩
  · rw [hlo, hhi, slice, Nat.add_sub_cancel_left]
    exact hrefs
  · rw [hhi, ← hmore]
    exact moreFragments_iff _
  · exact hlen.trans_le hfits

/-- The fields of the next fragment, when it is the last one and when it is not. -/
theorem next_fields (ofo : UInt16) (hoffset : orig.offset = 0) (hmtu : 28 ≤ mtu.toNat) (hofo : ofo.toNat < 0x2000)
    (hpos : 0 < left.toNat) (hfit : 8 * ofo.toNat + left.toNat + 20 < 0x10000) {last : Bool} {tmp cop : UInt16}
    (hlast : last = true ↔ left.toNat + 20 ≤ mtu.toNat)
    (htmp : tmp = if last then orig.offset &&& ipMf ||| ipOffmask &&& ofo
      else (orig.offset &&& ipMf ||| ipOffmask &&& ofo) ||| ipMf)
    (hcop : cop = if last then left else nfb mtu * 8) :
    0 < cop.toNat ∧ cop.toNat ≤ left.toNat ∧ tmp.toNat % 0x2000 = ofo.toNat ∧
      (tmp.toNat / 0x2000 % 2 = 1 ↔ cop.toNat < left.toNat) ∧ cop.toNat + 20 ≤ mtu.toNat ∧
      (cop.toNat < left.toNat → 8 * (ofo + nfb mtu).toNat = 8 * ofo.toNat + cop.toNat) := by
  have hmtu' := mtu.toNat_lt
  have hnfb := toNat_nfb (by omega : 20 ≤ mtu.toNat)
  have height : (8 : UInt16).toNat = 8 := rfl
  -- the flags of the original are clear, and the mask leaves the offset as it is
  have hfield : orig.offset &&& ipMf ||| ipOffmask &&& ofo = ofo := by
    apply UInt16.toNat_inj.mp
    rw [hoffset, UInt16.zero_and, UInt16.zero_or, UInt16.and_comm, toNat_and_ipOffmask, Nat.mod_eq_of_lt hofo]
  rw [hfield] at htmp
  cases last with
  | true =>
      have hle := hlast.mp rfl
      rw [if_pos rfl] at htmp hcop
      subst htmp hcop
      exact ⟨hpos, Nat.le_refl _, by omega, by omega, hle, fun h => absurd h (Nat.lt_irrefl _)⟩
  | false =>
      have hgt := hlast.not.mp Bool.false_ne_true
      rw [if_neg Bool.false_ne_true] at htmp hcop
      have htmp' : tmp.toNat = 0x2000 + ofo.toNat := by
        rw [htmp, toNat_or_ipMf hofo]
      have hcop' : cop.toNat = 8 * ((mtu.toNat - 20) / 8) := by
        rw [hcop, UInt16.toNat_mul, hnfb, height, Nat.mod_eq_of_lt (by omega), Nat.mul_comm]
      refine ⟨by omega, by omega, by omega, by omega, by omega, fun _ => ?_⟩
      rw [UInt16.toNat_add, hnfb, Nat.mod_eq_of_lt (by omega)]
      omega

/-- **The loop of `ip_frag`.** With memory, it sends all of the data from `a` on. -/
theorem ipFragLoop_spec (hoffset : orig.offset = 0) (hhl : orig.vHl &&& 0x0f = 5) (hmtu : 28 ≤ mtu.toNat)
    (hdata : data.length + 20 < 0x10000) (ha : a ≤ data.length) (hp : (skipBytes poff p).flatten = data.drop a)
    (hleft : left.toNat = data.length - a) (hofo : a < data.length → 8 * ofo.toNat = a) (hfuel : left.toNat < fuel) :
    ∃ sent, ipFragLoop orig mtu (fun _ => true) fuel i left ofo poff newpbuflen p = some (sent, .ok) ∧
      Tiles Fragment.lo Fragment.hi sent a data.length ∧ ∀ o ∈ sent, o.Carries orig data mtu := by
  induction fuel generalizing i left ofo poff newpbuflen p a with
  | zero => exact absurd hfuel (Nat.not_lt_zero _)
  | succ fuel ih =>
      rw [ipFragLoop]
      by_cases hzero : left = 0
      · rw [if_pos hzero]
        rw [hzero, UInt16.toNat_zero] at hleft
        -- nothing is left
        exact ⟨[], rfl, (by omega : a = data.length), fun o ho => absurd ho List.not_mem_nil⟩
      rw [if_neg hzero]
      dsimp only
      rw [if_pos rfl]
      have hpos : 0 < left.toNat := Nat.pos_of_ne_zero fun h => hzero (UInt16.toNat_inj.mp h)
      have hofo := hofo (by omega)
      -- the condition of the last fragment is computed with signed numbers
      have hlast : decide ((left.toNat : ℤ) ≤ mtu.toNat - 20) = true ↔ left.toNat + 20 ≤ mtu.toNat := by
        rw [decide_eq_true_iff]
        omega
      obtain ⟨hcop, hle, htmp, hmore, hfits, hnext⟩ := next_fields ofo hoffset hmtu (by omega) hpos (by omega)
        hlast rfl rfl
      generalize (if decide ((left.toNat : ℤ) ≤ mtu.toNat - 20) = true then left else nfb mtu * 8) = cop at *
      generalize (if decide ((left.toNat : ℤ) ≤ mtu.toNat - 20) = true then orig.offset &&& ipMf ||| ipOffmask &&& ofo
        else (orig.offset &&& ipMf ||| ipOffmask &&& ofo) ||| ipMf) = tmp at *
      have hrest : (skipBytes poff p).flatten.length = data.length - a := by rw [hp, List.length_drop]
      obtain ⟨refs, p', n, hrun, hrefs, hskip⟩ := mirror_spec newpbuflen hcop (hrest ▸ hleft ▸ hle)
      rw [hp] at hrefs hskip
      rw [List.drop_drop] at hskip
      obtain ⟨hlo, hhi, hcarries⟩ := carries_fragment tmp hhl hcop (by omega) hdata (by omega)
        (hmore.trans (by omega)) hfits hrefs
      -- the next round begins where this fragment ends
      have hsub : (left - cop).toNat = left.toNat - cop.toNat := UInt16.toNat_sub_of_le _ _ (UInt16.le_iff_toNat_le.mpr hle)
      have hofo' : a + cop.toNat < data.length → 8 * (ofo + nfb mtu).toNat = a + cop.toNat := fun hlt => by
        rw [hnext (by omega), hofo]
      obtain ⟨sent, hloop, htiles, hall⟩ : ∃ sent, ipFragLoop orig mtu (fun _ => true) fuel (i + 1) (left - cop)
          (ofo + nfb mtu) n n p' = some (sent, .ok) ∧
            Tiles Fragment.lo Fragment.hi sent (a + cop.toNat) data.length ∧ ∀ o ∈ sent, o.Carries orig data mtu :=
        ih (by omega) hskip (by omega) hofo' (by omega)
      rw [hrun, Option.bind_some, hloop]
      refine ⟨_, rfl, ⟨hlo, hhi ▸ htiles⟩, fun o ho => ?_⟩
      rcases List.mem_cons.mp ho with rfl | ho
      · exact hcarries
      · exact hall o ho

/-- Without memory for a fragment, the loop ends in front of it. -/
theorem ipFragLoop_mem (mem : ℕ → Bool) {sent : List Fragment}
    (h : ipFragLoop orig mtu (fun _ => true) fuel i left ofo poff newpbuflen p = some (sent, .ok)) :
    ∃ sent' err, ipFragLoop orig mtu mem fuel i left ofo poff newpbuflen p = some (sent', err) ∧
      (∀ j < sent'.length, mem (i + j) = true) ∧
      (err = .ok ∧ sent' = sent ∨
        err = .mem ∧ mem (i + sent'.length) = false ∧ ∃ o rest, sent = sent' ++ o :: rest) := by
  induction fuel generalizing i left ofo poff newpbuflen p sent with
  | zero => cases h
  | succ fuel ih =>
      rw [ipFragLoop] at h ⊢
      by_cases hzero : left = 0
      · rw [if_pos hzero] at h ⊢
        obtain ⟨rfl, -⟩ := Prod.mk.inj (Option.some.inj h)
        exact ⟨[], .ok, rfl, fun j hj => absurd hj (Nat.not_lt_zero j), .inl ⟨rfl, rfl⟩⟩
      rw [if_neg hzero] at h ⊢
      dsimp only at h ⊢
      rw [if_pos rfl] at h
      obtain ⟨⟨refs, p', n⟩, hrun, h⟩ := Option.bind_eq_some_iff.mp h
      obtain ⟨⟨rest, err⟩, hloop, h⟩ := Option.map_eq_some_iff.mp h
      obtain ⟨rfl, rfl⟩ := Prod.mk.inj h
      -- `pbuf_alloc` fails in round `i`, or the round is as it would be with memory
      cases hmem : mem i with
      | false => exact ⟨[], .mem, rfl, fun j hj => absurd hj (Nat.not_lt_zero j), .inr ⟨rfl, hmem, _, rest, rfl⟩⟩
      | true =>
          obtain ⟨sent', err', hloop', hbefore, hend⟩ := ih hloop
          have hshift : ∀ j, i + (j + 1) = i + 1 + j := fun j => by omega
          rw [if_pos rfl, hrun, Option.bind_some, hloop']
          refine ⟨_, _, rfl, fun j hj => ?_, ?_⟩
          · cases j with
            | zero => exact hmem
            | succ j =>
                rw [hshift]
                exact hbefore j (Nat.lt_of_succ_lt_succ hj)
          · rcases hend with ⟨herr, rfl⟩ | ⟨herr, hfail, o, rest', rfl⟩
            · exact .inl ⟨herr, rfl⟩
            · refine .inr ⟨herr, ?_, o, rest', rfl⟩
              rw [List.length_cons, hshift]
              exact hfail

/-! ## What is sent -/

/-- With memory, all of the datagram is sent. -/
theorem ipFrag_ok (d : Datagram) (hmtu : 28 ≤ mtu.toNat) :
    ∃ sent, ipFrag d.hdr d.chain mtu (fun _ => true) = some (sent, .ok) ∧
      Tiles Fragment.lo Fragment.hi sent 0 d.data.length ∧ ∀ o ∈ sent, o.Carries d.hdr d.data mtu := by
  have hlen := d.len_eq
  have hlt := d.hdr.len.toNat_lt
  have htotal : (d.hdr.onto d.chain).flatten.length = 20 + d.chain.flatten.length := by
    rw [flatten_onto, List.length_append, length_bytes]
  have hleft : (UInt16.ofNat (d.hdr.onto d.chain).flatten.length - 20).toNat = d.chain.flatten.length := by
    have htwenty : (20 : UInt16).toNat = 20 := rfl
    rw [htotal, ← hlen, UInt16.ofNat_toNat, UInt16.toNat_sub_of_le _ _ (by rw [UInt16.le_iff_toNat_le]; omega), htwenty]
    omega
  refine ipFragLoop_spec d.offset_eq d.hl_eq hmtu (by rw [Datagram.data]; omega) (Nat.zero_le _)
    (flatten_skipBytes_onto d.hdr d.chain) hleft (fun _ => ?_) (Nat.lt_succ_self _)
  rw [d.offset_eq]
  rfl

/-- **What `ip_frag` sends.** It returns, and the fragments that it has sent carry the data from its beginning on, each
within the MTU. It stops in front of the first fragment that there is no memory for, and else has sent all. -/
theorem ipFrag_sent (d : Datagram) (mtu : UInt16) (mem : ℕ → Bool) (hmtu : 28 ≤ mtu.toNat) :
    ∃ sent err b, ipFrag d.hdr d.chain mtu mem = some (sent, err) ∧ Tiles Fragment.lo Fragment.hi sent 0 b ∧
      (∀ o ∈ sent, o.Carries d.hdr d.data mtu) ∧ (err = .ok ↔ b = d.data.length) ∧
      (∀ i < sent.length, mem i = true) ∧ (err = .mem → mem sent.length = false) := by
  obtain ⟨sent, hrun, htiles, hcarries⟩ := ipFrag_ok d hmtu
  obtain ⟨sent', err, hrun', hbefore, hend⟩ := ipFragLoop_mem mem hrun
  simp only [Nat.zero_add] at hbefore hend
  rcases hend with ⟨rfl, rfl⟩ | ⟨rfl, hfail, o, rest, rfl⟩
  · exact ⟨sent', .ok, _, hrun', htiles, hcarries, iff_of_true rfl rfl, hbefore, fun h => absurd h (by decide)⟩
  · obtain ⟨b, htiles', ho, hrest⟩ := htiles.of_append
    have hlt := (hcarries o (by simp)).lt
    have hle := hrest.le fun x hx => (hcarries x (by simp [hx])).lt.le
    exact ⟨sent', .mem, b, hrun', htiles', fun x hx => hcarries x (List.mem_append_left _ hx),
      iff_of_false (by decide) (by omega), hbefore, fun _ => hfail⟩

/-! ## The way through the network -/

/-- The packet is a copy of the fragment, in whatever pbufs. -/
structure Packet.Copies (p : Packet) (o : Fragment) : Prop where
  hdr : p.hdr = o.hdr
  text : p.chain.flatten = o.chain.flatten

/-- The host that sends the datagrams `d`, each over a network with its own MTU. -/
def fragSender (d : Key → Datagram) (mtu : Key → UInt16) (hkey : ∀ k, (d k).hdr.key = k)
    (hmtu : ∀ k, 28 ≤ (mtu k).toNat) : Sender where
  hdr k := (d k).hdr
  data k := (d k).data
  piece k a b := ∃ sent, ipFrag (d k).hdr (d k).chain (mtu k) (fun _ => true) = some (sent, .ok) ∧
    ∃ o ∈ sent, o.lo = a ∧ o.hi = b
  key_hdr := hkey
  len_hdr k := (d k).len_eq
  offset_hdr k := (d k).offset_eq
  chksum_hdr k := (d k).chksum_eq
  piece_lt k a b h := by
    obtain ⟨sent, hsent, o, ho, rfl, rfl⟩ := h
    obtain ⟨sent', hsent', -, hcarries⟩ := ipFrag_ok (d k) (hmtu k)
    obtain ⟨rfl, -⟩ := Prod.mk.inj (Option.some.inj (hsent.symm.trans hsent'))
    exact ⟨(hcarries o ho).lt, (hcarries o ho).le⟩
  piece_apart k a b a' b' h h' := by
    obtain ⟨sent, hsent, o, ho, rfl, rfl⟩ := h
    obtain ⟨sent₁, hsent₁, o', ho', rfl, rfl⟩ := h'
    obtain ⟨sent₂, hsent₂, htiles, hcarries⟩ := ipFrag_ok (d k) (hmtu k)
    obtain ⟨rfl, -⟩ := Prod.mk.inj (Option.some.inj (hsent.symm.trans hsent₂))
    obtain ⟨rfl, -⟩ := Prod.mk.inj (Option.some.inj (hsent₁.symm.trans hsent))
    rcases htiles.apart (fun x hx => (hcarries x hx).lt.le) ho ho' with rfl | happart
    · exact .inl ⟨rfl, rfl⟩
    · exact .inr happart

/-- The packet is a copy of a fragment that `ip_frag` has sent of the datagram, with memory or without. -/
def Datagram.SentAs (d : Datagram) (mtu : UInt16) (p : Packet) : Prop :=
  ∃ mem sent err, ipFrag d.hdr d.chain mtu mem = some (sent, err) ∧ ∃ o ∈ sent, p.Copies o

variable {d : Datagram} {sent sent' : List Fragment} {err : Err} {o : Fragment} {packet : Packet}

/-- What is sent when memory is short would be sent anyway. -/
theorem ipFrag_subset (hmtu : 28 ≤ mtu.toNat) (h : ipFrag d.hdr d.chain mtu mem = some (sent', err))
    (ho : o ∈ sent') : ∃ sent, ipFrag d.hdr d.chain mtu (fun _ => true) = some (sent, .ok) ∧ o ∈ sent := by
  obtain ⟨sent, hrun, -, -⟩ := ipFrag_ok d hmtu
  obtain ⟨sent₁, err₁, hrun₁, -, hend⟩ := ipFragLoop_mem mem hrun
  obtain ⟨rfl, -⟩ := Prod.mk.inj (Option.some.inj (hrun₁.symm.trans h))
  refine ⟨sent, hrun, ?_⟩
  rcases hend with ⟨-, rfl⟩ | ⟨-, -, o', rest, rfl⟩
  · exact ho
  · exact List.mem_append_left _ ho

/-- A copy of a fragment is a piece of its datagram. -/
theorem sent_of_copies {d : Key → Datagram} {mtu : Key → UInt16} (hkey : ∀ k, (d k).hdr.key = k)
    (hmtu : ∀ k, 28 ≤ (mtu k).toNat) {k : Key}
    (hrun : ipFrag (d k).hdr (d k).chain (mtu k) mem = some (sent, err)) (ho : o ∈ sent) (hcopy : packet.Copies o) :
    packet.hdr.key = k ∧ (fragSender d mtu hkey hmtu).Sent packet o.lo o.hi := by
  obtain ⟨sent', hrun', ho'⟩ := ipFrag_subset (hmtu k) hrun ho
  obtain ⟨sent'', hrun'', -, hcarries⟩ := ipFrag_ok (d k) (hmtu k)
  obtain ⟨rfl, -⟩ := Prod.mk.inj (Option.some.inj (hrun'.symm.trans hrun''))
  have hc := hcarries o ho'
  have hpkey : packet.hdr.key = k := by
    rw [hcopy.hdr, hc.hdr]
    exact hkey k
  refine ⟨hpkey, ?_⟩
  constructor
  · rw [hpkey]
    exact ⟨sent', hrun', o, ho', rfl, rfl⟩
  · rw [hcopy.hdr]
    rfl
  · rw [hcopy.hdr, Fragment.hi, Fragment.lo, Nat.add_sub_cancel_left]
  · rw [hpkey, hcopy.text]
    exact hc.text
  · rw [hpkey, hcopy.hdr]
    exact hc.more
  · intro _
    rw [hpkey, hcopy.hdr, hc.hdr]
    rfl

/-- **There and back.** Copies of the fragments that `ip_frag` has sent come to `ip_reass` in any order and any number of
times, those of different datagrams mixed. The run goes through if there is room for each of them, none goes behind
a hole and no datagram becomes too old. What is delivered was sent, and when all fragments of a datagram have come,
it has been delivered. -/
theorem frag_reass (d : Key → Datagram) (mtu : Key → UInt16) (hkey : ∀ k, (d k).hdr.key = k)
    (hmtu : ∀ k, 28 ≤ (mtu k).toNat) (es : List ReassEvent)
    (hes : ∀ p, .fragment p ∈ es → ∃ k, (d k).SentAs (mtu k) p)
    (hcalm : RunMeets Reass.step Reass.Calm Reass.init es) :
    ∃ s, run Reass.step Reass.init es = some s ∧
      (∀ hdr chain, ReassCall.deliver hdr chain ∈ s.calls →
        hdr = (d hdr.key).hdr ∧ chain.flatten = (d hdr.key).data ∧ (d hdr.key).data ≠ []) ∧
      ∀ k mem sent, ipFrag (d k).hdr (d k).chain (mtu k) mem = some (sent, .ok) → (d k).data ≠ [] →
        (∀ o ∈ sent, ∃ p, .fragment p ∈ es ∧ p.Copies o) →
          ∃ chain, ReassCall.deliver (d k).hdr chain ∈ s.calls ∧ chain.flatten = (d k).data := by
  have hsends : ∀ e ∈ es, (fragSender d mtu hkey hmtu).Sends e := by
    intro e he
    cases e with
    | fragment p =>
        obtain ⟨k', mem, sent', err, hrun, o, ho, hcopy⟩ := hes p he
        exact ⟨o.lo, o.hi, (sent_of_copies hkey hmtu hrun ho hcopy).2⟩
    | tmr => trivial
  obtain ⟨s, hrun, hright, hcomplete⟩ := (fragSender d mtu hkey hmtu).any_order es hsends hcalm
  refine ⟨s, hrun, fun hdr chain hmem => ?_, fun k mem sent hsent hdata hall => hcomplete k hdata fun i hi => ?_⟩
  · have hr := hright hdr chain hmem
    exact ⟨hr.hdr_eq, hr.text, hr.ne_nil⟩
  · obtain ⟨sent', err, b, hsent', htiles, -, hok, -⟩ := ipFrag_sent (d k) (mtu k) mem (hmtu k)
    obtain ⟨rfl, rfl⟩ := Prod.mk.inj (Option.some.inj (hsent.symm.trans hsent'))
    obtain ⟨o, ho, hlo, hhi⟩ := htiles.covers (Nat.zero_le i) (hok.mp rfl ▸ hi)
    obtain ⟨p, hp, hcopy⟩ := hall o ho
    obtain ⟨hpkey, hps⟩ := sent_of_copies hkey hmtu hsent ho hcopy
    obtain ⟨hstart, hstop⟩ := hps.frag
    exact ⟨p, hp, hpkey, hstart.trans_le hlo, hhi.trans_eq hstop.symm⟩

end BareMetal.Ip
