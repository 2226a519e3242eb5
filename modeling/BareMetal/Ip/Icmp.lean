import BareMetal.Ip.ChksumChain
import BareMetal.Ip.Output

/-! # ICMP

`icmp_input` and `icmp_send_response` of `icmp.c`. The answer to an echo request is the request itself, in which the
addresses are exchanged and the checksum of the message is adjusted, not computed again. The header and the message are
right in the end, but for two kinds of requests (`icmpInput_reply`): the checksum of the header is computed over 20 bytes,
also when there are options behind them, and the adjusted checksum of a message which is zero otherwise is 0, which is the one
form of zero that a sum of zeros does not have. -/

namespace BareMetal.Ip

/-- `ICMP_ER`. -/
def icmpEr : UInt8 := 0

/-- `ICMP_DUR`. -/
def icmpDur : UInt8 := 3

/-- `ICMP_ECHO`. -/
def icmpEcho : UInt8 := 8

/-- `ICMP_TE`. -/
def icmpTe : UInt8 := 11

/-- `ICMP_TTL`. -/
def icmpTtl : UInt8 := 255

/-! ## The functions -/

/-- `iecho->chksum`. -/
def iechoChksum (iecho : List UInt8) : UInt16 := UInt16.ofNat ((iecho.getD 2 0).toNat + 256 * (iecho.getD 3 0).toNat)

/-- `iecho->chksum`, adjusted to the type `ICMP_ER`: what is compared with is `PP_HTONS(0xffffU - (ICMP_ECHO << 8))`, and what
is added is `PP_HTONS(ICMP_ECHO << 8)`. -/
def adjustChksum (chksum : UInt16) : UInt16 := if 0xfff7 ≤ chksum then chksum + (8 + 1) else chksum + 8

/-- What `icmp_input` writes into an echo request: the type and the checksum. -/
def echoHead (iecho : List UInt8) : List UInt8 :=
  let chksum := adjustChksum (iechoChksum iecho)
  ((iecho.set 0 icmpEr).set 2 (UInt8.ofNat chksum.toNat)).set 3 (UInt8.ofNat (chksum.toNat / 256))

/-- A packet that is given to `icmp_input`. The first pbuf has the header with its options, and `head` behind it, at an odd
address or not; the header of the message is not in two pbufs. -/
structure IcmpPacket where
  iphdr : IpHdr
  opts : List UInt8
  odd : Bool
  head : List UInt8
  rest : List ChksumBuf
  hlen : 20 + opts.length = 4 * (iphdr.vHl &&& 0x0f).toNat
  whole : 8 ≤ head.length ∨ rest = []
  short : 20 + opts.length + (head.length + (chksumBytes rest).length) < 2 ^ 16

/-- The chain, with `payload` at the message. -/
def IcmpPacket.chain (p : IcmpPacket) : List ChksumBuf := ⟨p.odd, p.head⟩ :: p.rest

/-- The message. -/
def IcmpPacket.data (p : IcmpPacket) : List UInt8 := chksumBytes p.chain

/-- The first pbuf, and the others. -/
theorem IcmpPacket.data_eq (p : IcmpPacket) : p.data = p.head ++ chksumBytes p.rest := rfl

/-- The answer is as long as the request. -/
theorem length_echoHead (iecho : List UInt8) : (echoHead iecho).length = iecho.length := by
  rw [echoHead, List.length_set, List.length_set, List.length_set]

/-- The header of the answer is in one pbuf, too. -/
theorem IcmpPacket.whole_echoHead (p : IcmpPacket) : 8 ≤ (echoHead p.head).length ∨ p.rest = [] := by
  rw [length_echoHead]
  exact p.whole

/-- The answer fits into 16 bits as the request does. -/
theorem IcmpPacket.short_echoHead (p : IcmpPacket) :
    20 + p.opts.length + ((echoHead p.head).length + (chksumBytes p.rest).length) < 2 ^ 16 := by
  rw [length_echoHead]
  exact p.short

/-- So does the copy in one pbuf. -/
theorem IcmpPacket.short_data (p : IcmpPacket) :
    20 + p.opts.length + (p.data.length + (chksumBytes []).length) < 2 ^ 16 := by
  rw [data_eq, List.length_append]
  exact p.short

/-- The header of the answer. -/
def IcmpPacket.replyHdr (p : IcmpPacket) : IpHdr :=
  let iphdr := { p.iphdr with src := p.iphdr.dest, dest := p.iphdr.src, ttl := icmpTtl, chksum := 0 }
  { iphdr with chksum := UInt16.ofNat (inetChksum p.odd iphdr.bytes) }

/-- The answer is written over the request. -/
def IcmpPacket.echoReply (p : IcmpPacket) : IcmpPacket :=
  { p with iphdr := p.replyHdr, head := echoHead p.head, whole := p.whole_echoHead, short := p.short_echoHead }

/-- The copy of the request in a pbuf with room for the header of the link, which is at an even address. -/
def IcmpPacket.copy (p : IcmpPacket) : IcmpPacket :=
  { p with odd := false, head := p.data, rest := [], whole := .inr rfl, short := p.short_data }

/-- What `icmp_input` meets: room in front of the header, whether `payload` can be moved back to the header, and
memory for a copy. -/
structure IcmpEnv where
  room : Bool
  back : Bool
  mem : Bool

/-- What `icmp_input` does: it counts an error, or nothing, or it gives the answer to `ip_output_if`. -/
inductive IcmpOutcome
  | lenerr
  | chkerr
  | proterr
  | err
  | ignored
  | reply (p : IcmpPacket)

/-- `icmp_input(p, inp)`. -/
def icmpInput (inp : Netif) (env : IcmpEnv) (p : IcmpPacket) : IcmpOutcome :=
  if p.data.length < 4 then .lenerr
  else
    let type := p.head.getD 0 0
    if type = icmpEr then .ignored
    else if type = icmpEcho then
      if ipAddrIsmulticast p.iphdr.dest || ip4AddrIsbroadcast p.iphdr.dest inp then .err
      else if p.data.length < 8 then .lenerr
      else if inetChksumPbuf p.chain ≠ 0 then .chkerr
      else if env.room then .reply p.echoReply
      else if env.back && env.mem then .reply p.copy.echoReply
      else .err
    else .proterr

/-- The message of `icmp_send_response` about a packet. -/
def responseBytes (packet : ℕ → UInt8) (type code : UInt8) (chksum : UInt16) : List UInt8 :=
  [type, code] ++ (chksumField chksum ++ ([0, 0, 0, 0] ++ (List.range 28).map packet))

/-- `icmp_send_response(p, type, code)`, for the packet with these bytes from its header on: where the message goes, and
the message. -/
def icmpSendResponse (mem : Bool) (packet : ℕ → UInt8) (type code : UInt8) : Option (UInt32 × List UInt8) :=
  if mem then
    let chksum := UInt16.ofNat (inetChksum false (responseBytes packet type code 0))
    some (iphSrc packet, responseBytes packet type code chksum)
  else none

/-- `icmp_dest_unreach(p, t)`; the `enum icmp_dur_type` is passed on as a `u8_t`. -/
def icmpDestUnreach (mem : Bool) (packet : ℕ → UInt8) (t : UInt8) : Option (UInt32 × List UInt8) :=
  icmpSendResponse mem packet icmpDur t

/-- `icmp_time_exceeded(p, t)`; the `enum icmp_te_type` is passed on as a `u8_t`. -/
def icmpTimeExceeded (mem : Bool) (packet : ℕ → UInt8) (t : UInt8) : Option (UInt32 × List UInt8) :=
  icmpSendResponse mem packet icmpTe t

/-! ## The message -/

/-- The checksum is read from the first four bytes. -/
theorem iechoChksum_append {iecho : List UInt8} (h : 4 ≤ iecho.length) (l : List UInt8) :
    iechoChksum (iecho ++ l) = iechoChksum iecho := by
  rw [iechoChksum, List.getD_append _ _ _ _ (by omega), List.getD_append _ _ _ _ (by omega), iechoChksum]

/-- The answer changes the first four bytes only. -/
theorem echoHead_append {iecho : List UInt8} (h : 4 ≤ iecho.length) (l : List UInt8) :
    echoHead (iecho ++ l) = echoHead iecho ++ l := by
  unfold echoHead
  dsimp only
  rw [iechoChksum_append h, List.set_append_left _ _ (by omega), List.set_append_left _ _ (by rw [List.length_set]; omega),
    List.set_append_left _ _ (by rw [List.length_set, List.length_set]; omega)]

/-- The whole message is changed at its beginning only. -/
theorem IcmpPacket.data_echoReply (p : IcmpPacket) : p.echoReply.data = echoHead p.data := by
  have hdata := p.data_eq
  show echoHead p.head ++ chksumBytes p.rest = echoHead p.data
  obtain hhead | hrest := p.whole
  · rw [hdata, echoHead_append (by omega)]
  · rw [hrest] at hdata ⊢
    rw [hdata, chksumBytes, List.flatMap_nil, List.append_nil, List.append_nil]

/-- The copy has the bytes of the chain. -/
theorem IcmpPacket.data_copy (p : IcmpPacket) : p.copy.data = p.data := List.append_nil p.data

/-- The adjusted checksum is larger by `ICMP_ECHO`, modulo 2^16 - 1. -/
theorem toNat_adjustChksum (c : UInt16) :
    (adjustChksum c).toNat = if 0xfff7 ≤ c.toNat then c.toNat + 9 - 2 ^ 16 else c.toNat + 8 := by
  have hc := c.toNat_lt
  have hle : 0xfff7 ≤ c ↔ 0xfff7 ≤ c.toNat := UInt16.le_iff_toNat_le
  unfold adjustChksum
  by_cases h : 0xfff7 ≤ c
  · have hsum : (c + (8 + 1)).toNat = (c.toNat + 9) % 2 ^ 16 := UInt16.toNat_add c (8 + 1)
    rw [if_pos h, if_pos (hle.mp h), hsum]
    have := hle.mp h
    omega
  · have hsum : (c + 8).toNat = (c.toNat + 8) % 2 ^ 16 := UInt16.toNat_add c 8
    rw [if_neg h, if_neg (hle.not.mp h), hsum]
    have := hle.not.mp h
    omega

variable {code c₀ c₁ : UInt8} {text : List UInt8}

/-- The words of a message: its type and code, its checksum, and the rest. -/
theorem leWordSum_echo (type : UInt8) :
    leWordSum (type :: code :: c₀ :: c₁ :: text) =
      type.toNat + (c₀.toNat + 256 * c₁.toNat) + (256 * code.toNat + leWordSum text) := by
  rw [leWordSum, leWordSum]
  omega

/-- The answer has the adjusted checksum in place of the type and the old one. -/
theorem leWordSum_echoHead :
    leWordSum (echoHead (icmpEcho :: code :: c₀ :: c₁ :: text)) =
      (adjustChksum (UInt16.ofNat (c₀.toNat + 256 * c₁.toNat))).toNat + (256 * code.toNat + leWordSum text) := by
  have hx := (adjustChksum (UInt16.ofNat (c₀.toNat + 256 * c₁.toNat))).toNat_lt
  show leWordSum (icmpEr :: code :: UInt8.ofNat (adjustChksum (UInt16.ofNat (c₀.toNat + 256 * c₁.toNat))).toNat ::
    UInt8.ofNat ((adjustChksum (UInt16.ofNat (c₀.toNat + 256 * c₁.toNat))).toNat / 256) :: text) = _
  rw [leWordSum_echo, UInt8.toNat_ofNat', UInt8.toNat_ofNat']
  have hzero : icmpEr.toNat = 0 := rfl
  omega

/-- When the request is taken, so is the answer, unless there is nothing but the type and the checksum in the request. -/
theorem echoHead_taken
    (h : leWordSum (icmpEcho :: code :: c₀ :: c₁ :: text) ≠ 0 ∧ 2 ^ 16 - 1 ∣ leWordSum (icmpEcho :: code :: c₀ :: c₁ :: text)) :
    leWordSum (echoHead (icmpEcho :: code :: c₀ :: c₁ :: text)) ≠ 0 ∧
        2 ^ 16 - 1 ∣ leWordSum (echoHead (icmpEcho :: code :: c₀ :: c₁ :: text)) ↔
      256 * code.toNat + leWordSum text ≠ 0 := by
  have h₀ := c₀.toNat_lt
  have h₁ := c₁.toNat_lt
  have hc : (UInt16.ofNat (c₀.toNat + 256 * c₁.toNat)).toNat = c₀.toNat + 256 * c₁.toNat := by
    rw [UInt16.toNat_ofNat']
    omega
  have hecho : icmpEcho.toNat = 8 := rfl
  rw [leWordSum_echo] at h
  rw [leWordSum_echoHead, toNat_adjustChksum, hc]
  split <;> omega

/-- The first four bytes of a message. -/
theorem exists_bytes {l : List UInt8} (h : 4 ≤ l.length) : ∃ type code c₀ c₁ text, l = type :: code :: c₀ :: c₁ :: text := by
  obtain _ | ⟨type, _ | ⟨code, _ | ⟨c₀, _ | ⟨c₁, text⟩⟩⟩⟩ := l
  · cases h
  · simp at h
  · simp at h
  · simp at h
  · exact ⟨type, code, c₀, c₁, text, rfl⟩

/-- The words add up to 0 when all bytes are 0. -/
theorem leWordSum_eq_zero_iff_forall (l : List UInt8) : leWordSum l = 0 ↔ ∀ x ∈ l, x = 0 := by
  have hbyte : ∀ x : UInt8, x.toNat = 0 ↔ x = 0 := fun x => UInt8.toNat_inj (b := 0)
  induction l using wordSum.induct with
  | case1 => simp [leWordSum]
  | case2 a => simp [leWordSum, hbyte]
  | case3 a b l ih => simp [leWordSum, hbyte, ih, and_assoc]

/-! ## The header -/

/-- Where the header lies does not matter for its checksum. -/
theorem IcmpPacket.replyHdr_eq (p : IcmpPacket) :
    p.replyHdr = IpHdr.withChksum { p.iphdr with src := p.iphdr.dest, dest := p.iphdr.src, ttl := icmpTtl } := by
  have hlen : ∀ h : IpHdr, h.bytes.length < 2 ^ 16 := fun h => by
    rw [length_bytes]
    decide
  unfold replyHdr IpHdr.withChksum
  dsimp only
  rw [inetChksum_onesSum p.odd (hlen _), inetChksum_onesSum false (hlen _)]

/-- With its options, a header that was made is taken when the options add nothing to the sum. -/
theorem inetChksum_withOpts (odd : Bool) (h : IpHdr) {opts : List UInt8} (hlen : opts.length < 2 ^ 15) :
    inetChksum odd (h.withChksum.bytes ++ opts) = 0 ↔ 2 ^ 16 - 1 ∣ leWordSum opts := by
  have hbytes := length_bytes h.withChksum
  have hmade := inetChksum_withChksum false h
  rw [inetChksum_onesSum false (by omega), sub_onesSum_eq_zero_iff] at hmade
  have hall : (h.withChksum.bytes ++ opts).length < 2 ^ 16 := by
    rw [List.length_append]
    omega
  rw [inetChksum_onesSum odd hall, sub_onesSum_eq_zero_iff, leWordSum_append_even (by omega)]
  omega

/-! ## The answer -/

/-- `icmp_input` is to answer the message: it is a whole echo request to a single host, with the right checksum. -/
structure IcmpPacket.IsEcho (p : IcmpPacket) (inp : Netif) : Prop where
  len : 8 ≤ p.data.length
  type : p.data.getD 0 0 = icmpEcho
  single : (ipAddrIsmulticast p.iphdr.dest || ip4AddrIsbroadcast p.iphdr.dest inp) = false
  chksum : inetChksumPbuf p.chain = 0

/-- `r` is the answer to `p`: the text stays. The header is right if the options add nothing to its sum, and the message if
there is more in it than its type and its checksum. -/
structure IcmpPacket.Answers (r p : IcmpPacket) : Prop where
  hdr : { r.iphdr with chksum := 0 } =
    { p.iphdr with src := p.iphdr.dest, dest := p.iphdr.src, ttl := icmpTtl, chksum := 0 }
  opts : r.opts = p.opts
  type : r.data.getD 0 0 = icmpEr
  code : r.data.getD 1 0 = p.data.getD 1 0
  text : r.data.drop 4 = p.data.drop 4
  hdrTaken : ∀ odd, inetChksum odd (r.iphdr.bytes ++ r.opts) = 0 ↔ 2 ^ 16 - 1 ∣ leWordSum p.opts
  msgTaken : inetChksumPbuf r.chain = 0 ↔ ∃ x ∈ p.data.getD 1 0 :: p.data.drop 4, x ≠ 0

/-- A message of 8 bytes at least begins in the first pbuf. -/
theorem IcmpPacket.getD_head (p : IcmpPacket) : p.head.getD 0 0 = p.data.getD 0 0 := by
  obtain hhead | hrest := p.whole
  · rw [data_eq, List.getD_append _ _ _ _ (by omega)]
  · rw [data_eq, hrest, chksumBytes, List.flatMap_nil, List.append_nil]

/-- The packet fits into 16 bits. -/
theorem IcmpPacket.length_data (p : IcmpPacket) : 20 + p.opts.length + p.data.length < 2 ^ 16 := by
  rw [data_eq, List.length_append]
  exact p.short

/-- The checksum of a message is right when its words add up to a multiple of 2^16 - 1, and not to 0. -/
theorem IcmpPacket.inetChksumPbuf_eq_zero_iff (p : IcmpPacket) :
    inetChksumPbuf p.chain = 0 ↔ leWordSum p.data ≠ 0 ∧ 2 ^ 16 - 1 ∣ leWordSum p.data := by
  have hlen : (chksumBytes p.chain).length < 2 ^ 16 := lt_of_le_of_lt (Nat.le_add_left _ _) p.length_data
  rw [inetChksumPbuf_eq hlen]
  exact sub_onesSum_eq_zero_iff

/-- What `icmp_input` makes of an echo request answers it. -/
theorem IcmpPacket.IsEcho.answers {p r : IcmpPacket} {inp : Netif} (h : p.IsEcho inp) (hhdr : r.iphdr = p.replyHdr)
    (hopts : r.opts = p.opts) (hdata : r.data = echoHead p.data) : r.Answers p := by
  have hchksum := h.chksum
  have htype := h.type
  -- the echo request has at least the 8 bytes of its header
  rw [p.inetChksumPbuf_eq_zero_iff] at hchksum
  obtain ⟨type, code, c₀, c₁, text, hbytes⟩ := exists_bytes (Nat.le_trans (by decide) h.len)
  rw [hbytes] at hchksum htype hdata
  obtain rfl : type = icmpEcho := htype
  constructor
  · rw [hhdr]
    rfl
  · exact hopts
  · rw [hdata]
    rfl
  · rw [hdata, hbytes]
    rfl
  · rw [hdata, hbytes]
    rfl
  · intro odd
    rw [hhdr, hopts, p.replyHdr_eq]
    have hhl := (p.iphdr.vHl &&& 0x0f).toNat_lt
    have hlen := p.hlen
    exact inetChksum_withOpts odd _ (by omega)
  · -- the sum of the reply is 0 only if all its bytes are
    have hzero : 256 * code.toNat + leWordSum text = 0 ↔ ∀ x ∈ code :: text, x = 0 := by
      rw [List.forall_mem_cons, ← leWordSum_eq_zero_iff_forall, ← UInt8.toNat_inj]
      have : (0 : UInt8).toNat = 0 := rfl
      omega
    rw [r.inetChksumPbuf_eq_zero_iff, hdata, echoHead_taken hchksum, Ne, hzero, hbytes]
    simp only [not_forall, exists_prop]
    rfl

/-! ## What is sent -/

variable {inp : Netif} {env : IcmpEnv} {p r : IcmpPacket}

/-- When there is an answer: it is written over the request, or over a copy of it. -/
theorem icmpInput_eq_reply_iff :
    icmpInput inp env p = .reply r ↔
      p.IsEcho inp ∧ (env.room = true ∧ p.echoReply = r ∨
        env.room = false ∧ (env.back && env.mem) = true ∧ p.copy.echoReply = r) := by
  have hne : icmpEcho ≠ icmpEr := by decide
  have hmem : p.IsEcho inp ↔ 8 ≤ p.data.length ∧ p.head.getD 0 0 = icmpEcho ∧
      (ipAddrIsmulticast p.iphdr.dest || ip4AddrIsbroadcast p.iphdr.dest inp) = false ∧ inetChksumPbuf p.chain = 0 := by
    rw [p.getD_head]
    exact ⟨fun h => ⟨h.len, h.type, h.single, h.chksum⟩, fun h => ⟨h.1, h.2.1, h.2.2.1, h.2.2.2⟩⟩
  rw [hmem]
  unfold icmpInput
  dsimp only
  -- the tests of `icmp_input`, in their order
  by_cases hshort : p.data.length < 4
  · rw [if_pos hshort]
    exact iff_of_false IcmpOutcome.noConfusion fun h => by omega
  rw [if_neg hshort]
  by_cases her : p.head.getD 0 0 = icmpEr
  · rw [if_pos her]
    exact iff_of_false IcmpOutcome.noConfusion fun h => hne (h.1.2.1.symm.trans her)
  rw [if_neg her]
  by_cases hecho : p.head.getD 0 0 = icmpEcho
  · rw [if_pos hecho]
    by_cases hdest : (ipAddrIsmulticast p.iphdr.dest || ip4AddrIsbroadcast p.iphdr.dest inp) = true
    · rw [if_pos hdest]
      exact iff_of_false IcmpOutcome.noConfusion fun h => absurd (hdest.symm.trans h.1.2.2.1) Bool.noConfusion
    rw [if_neg hdest]
    by_cases hlen : p.data.length < 8
    · rw [if_pos hlen]
      exact iff_of_false IcmpOutcome.noConfusion fun h => by omega
    rw [if_neg hlen]
    by_cases hchksum : inetChksumPbuf p.chain = 0
    · rw [if_neg (not_not.mpr hchksum),
        and_iff_right ⟨Nat.le_of_not_lt hlen, hecho, Bool.eq_false_iff.mpr hdest, hchksum⟩]
      -- the reply is made in the packet, or in a copy of it
      cases env.room with
      | true => simp
      | false => cases env.back && env.mem <;> simp
    · rw [if_pos hchksum]
      exact iff_of_false IcmpOutcome.noConfusion fun h => hchksum h.1.2.2.2
  · rw [if_neg hecho]
    exact iff_of_false IcmpOutcome.noConfusion fun h => hecho h.1.2.1

/-- Answers are not answered. -/
theorem icmpInput_er (hlen : 4 ≤ p.data.length) (htype : p.data.getD 0 0 = icmpEr) : icmpInput inp env p = .ignored := by
  unfold icmpInput
  dsimp only
  rw [if_neg (Nat.not_lt_of_le hlen), p.getD_head, if_pos htype]

/-- **The echo.** Which messages are answered, and what the answer is: where it is right, and that no host answers it. -/
theorem icmpInput_reply (inp : Netif) (env : IcmpEnv) (p : IcmpPacket) :
    ((∃ r, icmpInput inp env p = .reply r) ↔ p.IsEcho inp ∧ (env.room = true ∨ env.back = true ∧ env.mem = true)) ∧
      ∀ r, icmpInput inp env p = .reply r → r.Answers p ∧ ∀ inp' env', icmpInput inp' env' r = .ignored := by
  refine ⟨?_, fun r hr => ?_⟩
  · constructor
    · rintro ⟨r, hr⟩
      obtain ⟨hecho, ⟨hroom, -⟩ | ⟨-, hmem, -⟩⟩ := icmpInput_eq_reply_iff.mp hr
      · exact ⟨hecho, .inl hroom⟩
      · exact ⟨hecho, .inr (Bool.and_eq_true_iff.mp hmem)⟩
    · rintro ⟨hecho, henv⟩
      cases hroom : env.room with
      | true => exact ⟨_, icmpInput_eq_reply_iff.mpr ⟨hecho, .inl ⟨hroom, rfl⟩⟩⟩
      | false =>
          have hmem := henv.resolve_left (Bool.eq_false_iff.mp hroom)
          exact ⟨_, icmpInput_eq_reply_iff.mpr ⟨hecho, .inr ⟨hroom, Bool.and_eq_true_iff.mpr hmem, rfl⟩⟩⟩
  · obtain ⟨hecho, hreply⟩ := icmpInput_eq_reply_iff.mp hr
    -- both replies have the same data
    have hdata : r.data = echoHead p.data := by
      obtain ⟨-, rfl⟩ | ⟨-, -, rfl⟩ := hreply
      · exact p.data_echoReply
      · rw [p.copy.data_echoReply, p.data_copy]
    have hlen : 4 ≤ r.data.length := by
      rw [hdata, length_echoHead]
      exact Nat.le_trans (by decide) hecho.len
    have hanswers : r.Answers p := by
      obtain ⟨-, rfl⟩ | ⟨-, -, rfl⟩ := hreply
      · exact hecho.answers rfl rfl hdata
      · refine hecho.answers ?_ rfl hdata
        rw [p.replyHdr_eq]
        exact p.copy.replyHdr_eq
    exact ⟨hanswers, fun inp' env' => icmpInput_er hlen hanswers.type⟩

/-- The interface 192.168.1.18/24. -/
def lan : Netif := ⟨0, 0xC0A80112, 0xFFFFFF00, netifFlagUp ||| netifFlagBroadcast⟩

/-- The header of a message from 192.168.1.1, with the router alert behind it. -/
def pingHdr : IpHdr := ⟨0x46, 0, 36, 1, 0, 64, ipProtoIcmp, 0x7062, 0xC0A80101, 0xC0A80112⟩

def routerAlert : List UInt8 := [0x94, 0x04, 0x00, 0x00]

/-- An echo request with four bytes of text. -/
def pingBytes : List UInt8 := [0x08, 0x00, 0x33, 0x31, 0x00, 0x07, 0x00, 0x01, 0x61, 0x62, 0x63, 0x64]

/-- The length of the option is in the header. -/
theorem routerAlert_hlen : 20 + routerAlert.length = 4 * (pingHdr.vHl &&& 0x0f).toNat := by decide

/-- The request is short. -/
theorem pingBytes_short : 20 + routerAlert.length + (pingBytes.length + (chksumBytes []).length) < 2 ^ 16 := by decide

def ping : IcmpPacket where
  iphdr := pingHdr
  opts := routerAlert
  odd := false
  head := pingBytes
  rest := []
  hlen := routerAlert_hlen
  whole := .inr rfl
  short := pingBytes_short

/-- There is room, also for a copy. -/
def roomy : IcmpEnv := ⟨true, true, true⟩

/-- The request is one that is to be answered. -/
theorem isEcho_ping : ping.IsEcho lan := ⟨by decide, rfl, by decide, by decide⟩

/-- The request has an option, which the sum of the header leaves out. -/
theorem icmpInput_reply_ping : ping.echoReply.Answers ping ∧ ∀ inp' env', icmpInput inp' env' ping.echoReply = .ignored :=
  (icmpInput_reply lan roomy ping).2 ping.echoReply (icmpInput_eq_reply_iff.mpr ⟨isEcho_ping, .inl ⟨rfl, rfl⟩⟩)

/-- The header of the request is right, that of the answer is not. -/
example : inetChksum false (ping.iphdr.bytes ++ ping.opts) = 0 ∧
    inetChksum false (ping.echoReply.iphdr.bytes ++ ping.echoReply.opts) ≠ 0 := by decide

/-- A request with nothing in it but its checksum: the answer is all zero. -/
example : inetChksumPbuf [⟨false, [0x08, 0x00, 0xF7, 0xFF, 0x00, 0x00, 0x00, 0x00]⟩] = 0 ∧
    inetChksumPbuf [⟨false, echoHead [0x08, 0x00, 0xF7, 0xFF, 0x00, 0x00, 0x00, 0x00]⟩] ≠ 0 := by decide

/-! ## Messages about errors -/

/-- The checksum adds itself to the sum of the message. -/
theorem leWordSum_responseBytes (packet : ℕ → UInt8) (type code : UInt8) (chksum : UInt16) :
    leWordSum (responseBytes packet type code chksum) =
      chksum.toNat + leWordSum (responseBytes packet type code 0) := by
  have hparts : ∀ x, leWordSum (responseBytes packet type code x) =
      leWordSum [type, code] + (x.toNat + leWordSum ([0, 0, 0, 0] ++ (List.range 28).map packet)) := fun x => by
    have heven : [type, code].length % 2 = 0 := Nat.mod_self 2
    rw [responseBytes, leWordSum_append_even heven, leWordSum_chksumField]
  have hzero : (0 : UInt16).toNat = 0 := rfl
  rw [hparts chksum, hparts 0]
  omega

/-- Eight bytes of header, and 28 of the packet. -/
theorem length_responseBytes (packet : ℕ → UInt8) (type code : UInt8) (chksum : UInt16) :
    (responseBytes packet type code chksum).length = 36 := by
  simp [responseBytes, chksumField]

/-- The message has the right checksum. -/
theorem inetChksum_responseBytes (odd : Bool) (packet : ℕ → UInt8) {type : UInt8} (code : UInt8) (htype : type ≠ 0) :
    inetChksum odd (responseBytes packet type code (UInt16.ofNat (inetChksum false (responseBytes packet type code 0)))) =
      0 := by
  have hlen : ∀ x, (responseBytes packet type code x).length < 2 ^ 16 := fun x => by
    rw [length_responseBytes]
    decide
  have hpos : 0 < leWordSum (responseBytes packet type code 0) := by
    have hne : type.toNat ≠ 0 := fun h => htype (UInt8.toNat_inj.mp h)
    rw [responseBytes, List.cons_append, List.cons_append, leWordSum]
    omega
  have hlt := onesSum_lt (leWordSum (responseBytes packet type code 0))
  have hmod := onesSum_modEq (leWordSum (responseBytes packet type code 0))
  rw [inetChksum_onesSum odd (hlen _), sub_onesSum_eq_zero_iff, leWordSum_responseBytes, inetChksum_onesSum false (hlen _),
    UInt16.toNat_ofNat']
  rw [Nat.ModEq] at hmod
  omega

/-- **Messages about errors.** They go to where the packet came from, with its beginning and with the right checksum, and
no host answers them. -/
theorem icmpSendResponse_spec (packet : ℕ → UInt8) (t : UInt8)
    {send : Bool → (ℕ → UInt8) → UInt8 → Option (UInt32 × List UInt8)}
    (hsend : send = icmpDestUnreach ∨ send = icmpTimeExceeded) :
    ∃ msg, send true packet t = some (iphSrc packet, msg) ∧
      msg.drop 8 = (List.range 28).map packet ∧ (∀ odd, inetChksum odd msg = 0) ∧
      ∀ inp env p, p.data = msg → icmpInput inp env p = .proterr := by
  obtain ⟨type, hzero, hecho, heq⟩ : ∃ type, type ≠ 0 ∧ type ≠ icmpEcho ∧ send = fun mem packet t =>
      icmpSendResponse mem packet type t := by
    rcases hsend with rfl | rfl
    · exact ⟨icmpDur, by decide, by decide, rfl⟩
    · exact ⟨icmpTe, by decide, by decide, rfl⟩
  rw [heq]
  refine ⟨_, rfl, rfl, fun odd => inetChksum_responseBytes odd packet t hzero, fun inp env p hp => ?_⟩
  have hlen : ¬p.data.length < 4 := by
    rw [hp, length_responseBytes]
    decide
  unfold icmpInput
  dsimp only
  rw [if_neg hlen, p.getD_head, hp]
  exact (if_neg hzero).trans (if_neg hecho)

/-- The memory from the header of the request on. -/
def pingMemory : ℕ → UInt8 := pingHdr.memory (routerAlert ++ pingBytes)

/-- No protocol takes the request. -/
theorem icmpSendResponse_spec_dur :
    ∃ msg, icmpDestUnreach true pingMemory 2 = some (iphSrc pingMemory, msg) ∧
      msg.drop 8 = (List.range 28).map pingMemory ∧ (∀ odd, inetChksum odd msg = 0) ∧
      ∀ inp env p, p.data = msg → icmpInput inp env p = .proterr :=
  icmpSendResponse_spec pingMemory 2 (.inl rfl)

end BareMetal.Ip
