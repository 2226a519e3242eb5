import BareMetal.Ip.Reass

/-! # Checksums over chains

`inet_chksum_pbuf`, `inet_chksum_pseudo` and `inet_chksum_pseudo_partial` add up the sums of the pbufs of a chain, and swap the
bytes of the sum behind each pbuf with an odd number of bytes. What they return depends neither on how the data are cut
into pbufs nor on where the pbufs lie: it is `inet_chksum` of the pseudo header and the data in one piece
(`inetChksum_of_chain`). So the other end, which gets the data in other pbufs, takes the checksum that was sent, and no other
one (`chksum_field`). -/

namespace BareMetal.Ip

/-- A pbuf: whether `payload` is an odd address, and the bytes. -/
structure ChksumBuf where
  odd : Bool
  bytes : List UInt8
  deriving DecidableEq, Repr

/-- The bytes of a chain. -/
def chksumBytes (p : List ChksumBuf) : List UInt8 := p.flatMap ChksumBuf.bytes

/-! ## The functions -/

/-- The variables of the loops: `acc` and `swapped`. -/
structure ChksumAcc where
  acc : ℕ
  swapped : Bool
  deriving DecidableEq, Repr

/-- A round of the loops: `chklen` bytes of the pbuf `q` are added. -/
def ChksumAcc.add (s : ChksumAcc) (q : ChksumBuf) (chklen : ℕ) : ChksumAcc :=
  let acc := fold (s.acc + lwipStandardChksum q.odd (q.bytes.take chklen))
  if q.bytes.length % 2 ≠ 0 then ⟨swapBytesInWord acc, !s.swapped⟩ else ⟨acc, s.swapped⟩

/-- `if (swapped) { acc = SWAP_BYTES_IN_WORD(acc); }` -/
def ChksumAcc.unswap (s : ChksumAcc) : ℕ := if s.swapped then swapBytesInWord s.acc else s.acc

/-- The loop over all pbufs of the chain. -/
def sumChain : ChksumAcc → List ChksumBuf → ChksumAcc
  | s, [] => s
  | s, q :: qs => sumChain (s.add q q.bytes.length) qs

/-- The loop that ends when `chksum_len` bytes were added. -/
def sumChainPartial : ChksumAcc → List ChksumBuf → ℕ → ChksumAcc
  | s, [], _ => s
  | s, q :: qs, chksumLen =>
      if 0 < chksumLen then
        let chklen := if chksumLen < q.bytes.length then chksumLen else q.bytes.length
        sumChainPartial (s.add q chklen) qs (chksumLen - chklen)
      else s

/-- `inet_chksum_pbuf`. -/
def inetChksumPbuf (p : List ChksumBuf) : ℕ := 2 ^ 16 - 1 - (sumChain ⟨0, false⟩ p).unswap % 2 ^ 16

/-- `htonl`, of an address in the order of the host, as two words. -/
def htonl (addr : UInt32) : ℕ × ℕ := (swapBytesInWord (addr.toNat % 2 ^ 16), swapBytesInWord (addr.toNat / 2 ^ 16))

/-- The end of `inet_chksum_pseudo`: the words of the pseudo header are added. -/
def addPseudo (acc : ℕ) (src dest : UInt32) (proto : UInt8) (protoLen : UInt16) : ℕ :=
  let acc := acc + (htonl src).2 + (htonl src).1
  let acc := acc + (htonl dest).2 + (htonl dest).1
  let acc := acc + swapBytesInWord proto.toNat + swapBytesInWord protoLen.toNat
  2 ^ 16 - 1 - fold (fold acc) % 2 ^ 16

/-- `inet_chksum_pseudo`. -/
def inetChksumPseudo (p : List ChksumBuf) (src dest : UInt32) (proto : UInt8) (protoLen : UInt16) : ℕ :=
  addPseudo (sumChain ⟨0, false⟩ p).unswap src dest proto protoLen

/-- `inet_chksum_pseudo_partial`. -/
def inetChksumPseudoPartial (p : List ChksumBuf) (src dest : UInt32) (proto : UInt8) (protoLen chksumLen : UInt16) : ℕ :=
  addPseudo (sumChainPartial ⟨0, false⟩ p chksumLen.toNat).unswap src dest proto protoLen

/-- The pseudo header as it would lie in memory. -/
def pseudoHdr (src dest : UInt32) (proto : UInt8) (protoLen : UInt16) : List UInt8 :=
  beBytes (UInt16.ofNat (src.toNat / 2 ^ 16)) ++ beBytes (UInt16.ofNat src.toNat) ++
    beBytes (UInt16.ofNat (dest.toNat / 2 ^ 16)) ++ beBytes (UInt16.ofNat dest.toNat) ++ [0, proto] ++ beBytes protoLen

/-! ## One pbuf -/

variable {l : List UInt8} {w : ℕ}

/-- Swapping the bytes multiplies with 256. -/
theorem swapBytesInWord_onesSum (w : ℕ) : swapBytesInWord (onesSum w) = onesSum (256 * w) := by
  have hlt := onesSum_lt w
  rw [← onesSum_mul]
  generalize onesSum w = v at hlt
  have hmul : 256 * v = swapBytesInWord v + (2 ^ 16 - 1) * (v / 256) := by
    unfold swapBytesInWord
    omega
  refine eq_onesSum ?_ ?_ ?_
  · unfold swapBytesInWord
    omega
  · unfold swapBytesInWord
    omega
  · rw [hmul, Nat.ModEq, Nat.add_mul_mod_self_left]

/-- The sum of a pbuf does not depend on where it lies. -/
theorem lwipStandardChksum_onesSum (odd : Bool) (hl : l.length < 2 ^ 16) :
    lwipStandardChksum odd l = onesSum (leWordSum l) := by
  have hword : wordSum l < 2 ^ 32 := lt_of_lt_of_le (wordSum_lt l) (by omega)
  have hle : leWordSum l < 2 ^ 32 := lt_of_lt_of_le (leWordSum_lt l) (by omega)
  rw [lwipStandardChksum_eq]
  cases odd with
  | false =>
      rw [if_neg Bool.false_ne_true, fold_fold_eq hle]
      exact Nat.mod_eq_of_lt (onesSum_lt _)
  | true =>
      rw [if_pos rfl, fold_fold_eq hword, swapBytesInWord_onesSum, onesSum_leWordSum]
      exact Nat.mod_eq_of_lt (onesSum_lt _)

/-- `inet_chksum` in terms of the ones' complement sum. -/
theorem inetChksum_onesSum (odd : Bool) (hl : l.length < 2 ^ 16) :
    inetChksum odd l = 2 ^ 16 - 1 - onesSum (leWordSum l) := by
  rw [inetChksum, lwipStandardChksum_onesSum odd hl]

/-- The check of a sum that was folded. -/
theorem sub_onesSum_eq_zero_iff : 2 ^ 16 - 1 - onesSum w = 0 ↔ w ≠ 0 ∧ 2 ^ 16 - 1 ∣ w := by
  have hlt := onesSum_lt w
  rw [← onesSum_eq_ones_iff]
  omega

/-! ## The loops -/

/-- The bytes `l` were added: `swapped` says whether their number is odd, and then the sum is swapped. -/
structure ChksumAcc.Summed (s : ChksumAcc) (l : List UInt8) : Prop where
  swapped : s.swapped = decide (l.length % 2 = 1)
  acc : s.acc = onesSum (if s.swapped then wordSum l else leWordSum l)

/-- Nothing was summed. -/
theorem summed_nil : ChksumAcc.Summed ⟨0, false⟩ [] := ⟨rfl, rfl⟩

/-- The accumulator holds the sum, up to the order of the bytes. -/
theorem ChksumAcc.Summed.unswap {s : ChksumAcc} (h : s.Summed l) : s.unswap = onesSum (leWordSum l) := by
  have hacc := h.acc
  unfold ChksumAcc.unswap
  cases hswapped : s.swapped with
  | false =>
      rw [hswapped] at hacc
      exact hacc
  | true =>
      rw [hswapped, if_pos rfl] at hacc
      rw [if_pos rfl, hacc, swapBytesInWord_onesSum, onesSum_leWordSum]

/-- The sum in `acc` behind the folding, when the bytes of another pbuf were added. -/
theorem ChksumAcc.Summed.fold_add {s : ChksumAcc} {l' : List UInt8} (h : s.Summed l) (odd : Bool)
    (hl' : l'.length < 2 ^ 16) :
    fold (s.acc + lwipStandardChksum odd l') = onesSum (if s.swapped then wordSum (l ++ l') else leWordSum (l ++ l')) := by
  have hswapped := h.swapped
  rw [h.acc, lwipStandardChksum_onesSum odd hl', fold_add_eq (onesSum_lt _) (onesSum_lt _), onesSum_add]
  cases hs : s.swapped with
  | false =>
      rw [hs] at hswapped
      have heven : l.length % 2 = 0 := by
        have hne := of_decide_eq_false hswapped.symm
        omega
      simp only [Bool.false_eq_true, if_false]
      rw [leWordSum_append_even heven]
  | true =>
      rw [hs] at hswapped
      have hparts : onesSum (256 * leWordSum l + 256 * wordSum l') = onesSum (wordSum l + leWordSum l') := by
        rw [← onesSum_add, onesSum_wordSum, onesSum_leWordSum, onesSum_add]
      simp only [if_true]
      rw [← onesSum_wordSum (l ++ l'), leWordSum_append_odd (of_decide_eq_true hswapped.symm), Nat.mul_add, hparts]

/-- A round with a whole pbuf. -/
theorem ChksumAcc.Summed.add {s : ChksumAcc} {q : ChksumBuf} (h : s.Summed l) (hq : q.bytes.length < 2 ^ 16) :
    (s.add q q.bytes.length).Summed (l ++ q.bytes) := by
  have hfold := h.fold_add q.odd hq
  have hswapped := h.swapped
  have hlen : (l ++ q.bytes).length = l.length + q.bytes.length := List.length_append
  unfold ChksumAcc.add
  rw [List.take_length]
  dsimp only
  rw [hfold]
  split
  · -- the parity changes
    rename_i hodd
    have hparity : (!s.swapped) = decide ((l ++ q.bytes).length % 2 = 1) := by
      rw [hswapped, hlen, ← decide_not]
      exact decide_eq_decide.mpr (by omega)
    refine ⟨hparity, ?_⟩
    dsimp only
    rw [swapBytesInWord_onesSum]
    cases s.swapped with
    | false =>
        simp only [Bool.false_eq_true, if_false, Bool.not_false, if_true]
        exact onesSum_wordSum _
    | true =>
        simp only [Bool.false_eq_true, if_false, Bool.not_true, if_true]
        exact onesSum_leWordSum _
  · rename_i heven
    refine ⟨?_, rfl⟩
    dsimp only
    rw [hswapped, hlen]
    exact decide_eq_decide.mpr (by omega)

/-- **The loop over a chain** sums its bytes, wherever they are cut. -/
theorem summed_sumChain {s : ChksumAcc} {p : List ChksumBuf} (h : s.Summed l) (hp : ∀ q ∈ p, q.bytes.length < 2 ^ 16) :
    (sumChain s p).Summed (l ++ chksumBytes p) := by
  induction p generalizing s l with
  | nil =>
      rw [chksumBytes, List.flatMap_nil, List.append_nil]
      exact h
  | cons q qs ih =>
      rw [chksumBytes, List.flatMap_cons, ← List.append_assoc]
      exact ih (h.add (hp q List.mem_cons_self)) fun r hr => hp r (List.mem_cons_of_mem q hr)

/-- The round with the last bytes: whether the rest of the pbuf has an odd number of bytes does not matter any more. -/
theorem ChksumAcc.Summed.unswap_add {s : ChksumAcc} {q : ChksumBuf} (h : s.Summed l) (hq : q.bytes.length < 2 ^ 16) (k : ℕ) :
    (s.add q k).unswap = onesSum (leWordSum (l ++ q.bytes.take k)) := by
  have hlen : (q.bytes.take k).length < 2 ^ 16 := by
    rw [List.length_take]
    omega
  have hfold := h.fold_add q.odd hlen
  generalize l ++ q.bytes.take k = m at hfold
  have hle : swapBytesInWord (onesSum (leWordSum m)) = onesSum (wordSum m) := by
    rw [swapBytesInWord_onesSum, onesSum_wordSum]
  have hword : swapBytesInWord (onesSum (wordSum m)) = onesSum (leWordSum m) := by
    rw [swapBytesInWord_onesSum, onesSum_leWordSum]
  unfold ChksumAcc.add
  dsimp only
  rw [hfold]
  cases s.swapped with
  | false =>
      simp only [Bool.false_eq_true, if_false]
      split
      · show swapBytesInWord (swapBytesInWord (onesSum (leWordSum m))) = _
        rw [hle, hword]
      · rfl
  | true =>
      simp only [if_true]
      split
      · exact hword
      · exact hword

/-- The loop stops when the length is reached. -/
theorem sumChainPartial_zero (s : ChksumAcc) (p : List ChksumBuf) : sumChainPartial s p 0 = s := by
  cases p <;> rfl

/-- **The loop up to a length** sums the first bytes of the chain. -/
theorem unswap_sumChainPartial {s : ChksumAcc} {p : List ChksumBuf} {k : ℕ} (h : s.Summed l)
    (hp : ∀ q ∈ p, q.bytes.length < 2 ^ 16) :
    (sumChainPartial s p k).unswap = onesSum (leWordSum (l ++ (chksumBytes p).take k)) := by
  induction p generalizing s l k with
  | nil =>
      rw [chksumBytes, List.flatMap_nil, List.take_nil, List.append_nil]
      exact h.unswap
  | cons q qs ih =>
      have hq := hp q List.mem_cons_self
      rw [chksumBytes, List.flatMap_cons, sumChainPartial]
      by_cases hk : 0 < k
      · rw [if_pos hk]
        dsimp only
        by_cases hlast : k < q.bytes.length
        · rw [if_pos hlast, Nat.sub_self, sumChainPartial_zero, h.unswap_add hq, List.take_append_of_le_length hlast.le]
        · rw [if_neg hlast, ih (h.add hq) fun r hr => hp r (List.mem_cons_of_mem q hr), List.take_append,
            List.take_of_length_le (Nat.le_of_not_lt hlast), List.append_assoc]
          rfl
      · obtain rfl := Nat.eq_zero_of_not_pos hk
        rw [if_neg hk, List.take_zero, List.append_nil]
        exact h.unswap

/-! ## The results -/

/-- A word in network order is read with its bytes swapped. -/
theorem leWordSum_beBytes (x : UInt16) (m : List UInt8) : leWordSum (beBytes x ++ m) = swapBytesInWord x.toNat + leWordSum m := by
  have hx := x.toNat_lt
  show (UInt8.ofNat (x.toNat / 256)).toNat + 256 * (UInt8.ofNat x.toNat).toNat + leWordSum m = _
  rw [UInt8.toNat_ofNat', UInt8.toNat_ofNat']
  unfold swapBytesInWord
  omega

/-- The words of the pseudo header. -/
theorem leWordSum_pseudoHdr (src dest : UInt32) (proto : UInt8) (protoLen : UInt16) (m : List UInt8) :
    leWordSum (pseudoHdr src dest proto protoLen ++ m) =
      (htonl src).2 + (htonl src).1 + ((htonl dest).2 + (htonl dest).1) +
        (swapBytesInWord proto.toNat + swapBytesInWord protoLen.toNat) + leWordSum m := by
  have hsrc := src.toNat_lt
  have hdest := dest.toNat_lt
  have hhigh : ∀ x : UInt32, (UInt16.ofNat (x.toNat / 2 ^ 16)).toNat = x.toNat / 2 ^ 16 := fun x => by
    have hx := x.toNat_lt
    rw [UInt16.toNat_ofNat']
    omega
  have hproto : leWordSum ([0, proto] ++ (beBytes protoLen ++ m)) =
      swapBytesInWord proto.toNat + leWordSum (beBytes protoLen ++ m) := by
    have hlt := proto.toNat_lt
    show (0 : UInt8).toNat + 256 * proto.toNat + leWordSum (beBytes protoLen ++ m) = _
    have hzero : (0 : UInt8).toNat = 0 := rfl
    unfold swapBytesInWord
    omega
  rw [pseudoHdr, List.append_assoc, List.append_assoc, List.append_assoc, List.append_assoc, List.append_assoc,
    leWordSum_beBytes, leWordSum_beBytes, leWordSum_beBytes, leWordSum_beBytes, hproto, leWordSum_beBytes, hhigh, hhigh,
    UInt16.toNat_ofNat', UInt16.toNat_ofNat', htonl, htonl]
  omega

/-- The swapped word is a word. -/
theorem swapBytesInWord_lt (w : ℕ) : swapBytesInWord w < 2 ^ 16 := by
  unfold swapBytesInWord
  omega

/-- The end of `inet_chksum_pseudo` is the checksum of the pseudo header and the bytes. -/
theorem addPseudo_eq (src dest : UInt32) (proto : UInt8) (protoLen : UInt16) (m : List UInt8) :
    addPseudo (onesSum (leWordSum m)) src dest proto protoLen =
      2 ^ 16 - 1 - onesSum (leWordSum (pseudoHdr src dest proto protoLen ++ m)) := by
  have hacc := onesSum_lt (leWordSum m)
  have hs : (htonl src).1 < 2 ^ 16 := swapBytesInWord_lt _
  have hs' : (htonl src).2 < 2 ^ 16 := swapBytesInWord_lt _
  have hd : (htonl dest).1 < 2 ^ 16 := swapBytesInWord_lt _
  have hd' : (htonl dest).2 < 2 ^ 16 := swapBytesInWord_lt _
  have hp := swapBytesInWord_lt proto.toNat
  have hl := swapBytesInWord_lt protoLen.toNat
  rw [leWordSum_pseudoHdr]
  unfold addPseudo
  dsimp only
  generalize (htonl src).1 = s at *
  generalize (htonl src).2 = s' at *
  generalize (htonl dest).1 = d at *
  generalize (htonl dest).2 = d' at *
  generalize swapBytesInWord proto.toNat = x at *
  generalize swapBytesInWord protoLen.toNat = y at *
  have hsum : onesSum (leWordSum m) + s' + s + d' + d + x + y = onesSum (leWordSum m) + (s' + s + (d' + d) + (x + y)) := by
    omega
  rw [fold_fold_eq (by omega), Nat.mod_eq_of_lt (onesSum_lt _), hsum, onesSum_add_left, Nat.add_comm (leWordSum m)]

/-- The pseudo header has twelve bytes. -/
theorem length_pseudoHdr (src dest : UInt32) (proto : UInt8) (protoLen : UInt16) :
    (pseudoHdr src dest proto protoLen).length = 12 := rfl

/-- A pbuf is not longer than its chain. -/
theorem length_le_of_mem {p : List ChksumBuf} {q : ChksumBuf} (h : q ∈ p) : q.bytes.length ≤ (chksumBytes p).length := by
  obtain ⟨front, back, rfl⟩ := List.append_of_mem h
  rw [chksumBytes, List.flatMap_append, List.flatMap_cons, List.length_append, List.length_append]
  omega

section Chain

variable {p p' : List ChksumBuf} {src dest : UInt32} {proto : UInt8} {protoLen : UInt16}

/-- What the loop over a chain leaves in the accumulator. -/
theorem unswap_sumChain (hlen : (chksumBytes p).length < 2 ^ 16) :
    (sumChain ⟨0, false⟩ p).unswap = onesSum (leWordSum (chksumBytes p)) :=
  (summed_sumChain summed_nil fun _ hq => lt_of_le_of_lt (length_le_of_mem hq) hlen).unswap

/-- `inet_chksum_pbuf` in terms of the ones' complement sum. -/
theorem inetChksumPbuf_eq (hlen : (chksumBytes p).length < 2 ^ 16) :
    inetChksumPbuf p = 2 ^ 16 - 1 - onesSum (leWordSum (chksumBytes p)) := by
  rw [inetChksumPbuf, unswap_sumChain hlen, Nat.mod_eq_of_lt (onesSum_lt _)]

/-- `inet_chksum_pseudo` in terms of the ones' complement sum. -/
theorem inetChksumPseudo_eq (hlen : (chksumBytes p).length < 2 ^ 16) :
    inetChksumPseudo p src dest proto protoLen =
      2 ^ 16 - 1 - onesSum (leWordSum (pseudoHdr src dest proto protoLen ++ chksumBytes p)) := by
  rw [inetChksumPseudo, unswap_sumChain hlen, addPseudo_eq]

/-- `inet_chksum_pseudo_partial` in terms of the ones' complement sum. -/
theorem inetChksumPseudoPartial_eq (hlen : (chksumBytes p).length < 2 ^ 16) (chksumLen : UInt16) :
    inetChksumPseudoPartial p src dest proto protoLen chksumLen =
      2 ^ 16 - 1 - onesSum (leWordSum (pseudoHdr src dest proto protoLen ++ (chksumBytes p).take chksumLen.toNat)) := by
  have hp : ∀ q ∈ p, q.bytes.length < 2 ^ 16 := fun _ hq => lt_of_le_of_lt (length_le_of_mem hq) hlen
  have hpart : (sumChainPartial ⟨0, false⟩ p chksumLen.toNat).unswap = _ := unswap_sumChainPartial summed_nil hp
  rw [List.nil_append] at hpart
  rw [inetChksumPseudoPartial, hpart, addPseudo_eq]

/-- **Checksums over chains.** They are those of the data in one piece, wherever it lies, behind the pseudo header. -/
theorem inetChksum_of_chain (p : List ChksumBuf) (odd : Bool) (src dest : UInt32) (proto : UInt8)
    (protoLen chksumLen : UInt16) (hlen : (chksumBytes p).length + 12 < 2 ^ 16) :
    inetChksumPbuf p = inetChksum odd (chksumBytes p) ∧
      inetChksumPseudo p src dest proto protoLen = inetChksum odd (pseudoHdr src dest proto protoLen ++ chksumBytes p) ∧
      inetChksumPseudoPartial p src dest proto protoLen chksumLen =
        inetChksum odd (pseudoHdr src dest proto protoLen ++ (chksumBytes p).take chksumLen.toNat) := by
  have hlt : (chksumBytes p).length < 2 ^ 16 := by omega
  refine ⟨?_, ?_, ?_⟩
  · rw [inetChksumPbuf_eq hlt, inetChksum_onesSum odd hlt]
  · rw [inetChksumPseudo_eq hlt, inetChksum_onesSum odd]
    rw [List.length_append, length_pseudoHdr]
    omega
  · rw [inetChksumPseudoPartial_eq hlt, inetChksum_onesSum odd]
    rw [List.length_append, length_pseudoHdr, List.length_take]
    omega

/-- Three pbufs with an odd number of bytes each, two of them at odd addresses. -/
def oddChain : List ChksumBuf := [⟨true, [0x45]⟩, ⟨false, [0x01, 0x02, 0x03]⟩, ⟨true, [0xFF, 0xFE, 0xFD, 0xFC, 0xFB]⟩]

/-- Nine bytes in three pbufs, cut at odd places. -/
theorem inetChksum_of_chain_oddChain :
    inetChksumPbuf oddChain = inetChksum false [0x45, 0x01, 0x02, 0x03, 0xFF, 0xFE, 0xFD, 0xFC, 0xFB] ∧
      inetChksumPseudo oddChain 0xC0A80101 0xC0A80102 17 9 =
        inetChksum false (pseudoHdr 0xC0A80101 0xC0A80102 17 9 ++ [0x45, 0x01, 0x02, 0x03, 0xFF, 0xFE, 0xFD, 0xFC, 0xFB]) ∧
      inetChksumPseudoPartial oddChain 0xC0A80101 0xC0A80102 17 9 6 =
        inetChksum false (pseudoHdr 0xC0A80101 0xC0A80102 17 9 ++ [0x45, 0x01, 0x02, 0x03, 0xFF, 0xFE]) :=
  inetChksum_of_chain oddChain false 0xC0A80101 0xC0A80102 17 9 6 (by decide)

/-! ## From one end to the other -/

/-- A checksum as it lies in memory. -/
def chksumField (x : UInt16) : List UInt8 := [UInt8.ofNat x.toNat, UInt8.ofNat (x.toNat / 256)]

/-- The checksum that `udp_sendto_if` writes: 0 would say that there is none. -/
def udpChksum (udpchksum : ℕ) : UInt16 := if udpchksum = 0 then 0xffff else UInt16.ofNat udpchksum

/-- The check of `udp_input`, of a datagram with the checksum `chksum` in its header. -/
def udpChksumOk (chksum : UInt16) (p : List ChksumBuf) (src dest : UInt32) (totLen : UInt16) : Bool :=
  if chksum ≠ 0 then inetChksumPseudo p src dest ipProtoUdp totLen == 0 else true

/-- The checksum lies in memory as it is, not in network order. -/
theorem leWordSum_chksumField (x : UInt16) (m : List UInt8) : leWordSum (chksumField x ++ m) = x.toNat + leWordSum m := by
  have hx := x.toNat_lt
  show (UInt8.ofNat x.toNat).toNat + 256 * (UInt8.ofNat (x.toNat / 256)).toNat + leWordSum m = _
  rw [UInt8.toNat_ofNat', UInt8.toNat_ofNat']
  omega

/-- The checksum adds itself to the sum of the rest. -/
theorem leWordSum_withField {front back : List UInt8} (heven : front.length % 2 = 0) (x : UInt16) :
    leWordSum (pseudoHdr src dest proto protoLen ++ (front ++ (chksumField x ++ back))) =
      leWordSum (pseudoHdr src dest proto protoLen ++ (front ++ (chksumField 0 ++ back))) + x.toNat := by
  have hparts : ∀ y : UInt16, leWordSum (pseudoHdr src dest proto protoLen ++ (front ++ (chksumField y ++ back))) =
      leWordSum (pseudoHdr src dest proto protoLen) + (leWordSum front + (y.toNat + leWordSum back)) := fun y => by
    rw [leWordSum_append_even (length_pseudoHdr src dest proto protoLen ▸ rfl), leWordSum_append_even heven,
      leWordSum_chksumField]
  have hzero : (0 : UInt16).toNat = 0 := rfl
  rw [hparts x, hparts 0]
  omega

/-- A protocol that is not 0 makes the sum positive. -/
theorem leWordSum_pseudoHdr_pos (hproto : proto ≠ 0) (m : List UInt8) :
    0 < leWordSum (pseudoHdr src dest proto protoLen ++ m) := by
  have hlt := proto.toNat_lt
  have hne : proto.toNat ≠ 0 := fun h => hproto (UInt8.toNat_inj.mp h)
  have hswap : 0 < swapBytesInWord proto.toNat := by
    unfold swapBytesInWord
    omega
  rw [leWordSum_pseudoHdr]
  omega

/-- The data are taken with the checksum that was sent, or with its other form when it is 0. -/
theorem inetChksumPseudo_withField {front back : List UInt8} {v : UInt16} (hproto : proto ≠ 0) (heven : front.length % 2 = 0)
    (hp : chksumBytes p = front ++ (chksumField 0 ++ back)) (hp' : chksumBytes p' = front ++ (chksumField v ++ back))
    (hlen : (chksumBytes p).length < 2 ^ 16) :
    inetChksumPseudo p' src dest proto protoLen = 0 ↔
      v.toNat = inetChksumPseudo p src dest proto protoLen ∨
        inetChksumPseudo p src dest proto protoLen = 0 ∧ v.toNat = 0xffff := by
  have hlen' : (chksumBytes p').length < 2 ^ 16 := by
    rw [hp', List.length_append, List.length_append]
    rw [hp, List.length_append, List.length_append] at hlen
    exact hlen
  have hv := v.toNat_lt
  have hpos : 0 < leWordSum (pseudoHdr src dest proto protoLen ++ chksumBytes p) := leWordSum_pseudoHdr_pos hproto _
  have hlt := onesSum_lt (leWordSum (pseudoHdr src dest proto protoLen ++ chksumBytes p))
  have hmod := onesSum_modEq (leWordSum (pseudoHdr src dest proto protoLen ++ chksumBytes p))
  have hne := onesSum_eq_zero_iff.not.mpr hpos.ne'
  rw [inetChksumPseudo_eq hlen, inetChksumPseudo_eq hlen', hp', leWordSum_withField heven, ← hp]
  generalize leWordSum (pseudoHdr src dest proto protoLen ++ chksumBytes p) = w at *
  rw [sub_onesSum_eq_zero_iff]
  rw [Nat.ModEq] at hmod
  omega

/-- **Checksums of TCP and UDP.** The data `front` and `back` with a checksum `v` in between come to the other end, which takes
them if `v` is what was computed there with 0 in its place. In TCP the two forms of 0 are the same; in UDP 0 says that there
is no checksum. -/
theorem chksum_field {front back : List UInt8} {v totLen : UInt16} (heven : front.length % 2 = 0)
    (hp : chksumBytes p = front ++ (chksumField 0 ++ back)) (hp' : chksumBytes p' = front ++ (chksumField v ++ back))
    (hlen : (chksumBytes p).length < 2 ^ 16) :
    (inetChksumPseudo p' src dest ipProtoTcp totLen = 0 ↔
      v = UInt16.ofNat (inetChksumPseudo p src dest ipProtoTcp totLen) ∨
        inetChksumPseudo p src dest ipProtoTcp totLen = 0 ∧ v = 0xffff) ∧
    (udpChksumOk v p' src dest totLen = true ↔
      v = 0 ∨ v = udpChksum (inetChksumPseudo p src dest ipProtoUdp totLen)) := by
  -- both receivers sum up the sender's pseudo header, so `v` is compared with the complement of that sum
  have hlt : ∀ proto, inetChksumPseudo p src dest proto totLen < 2 ^ 16 := fun proto => by
    rw [inetChksumPseudo_eq hlen]
    omega
  have hofNat : ∀ proto, v = UInt16.ofNat (inetChksumPseudo p src dest proto totLen) ↔
      v.toNat = inetChksumPseudo p src dest proto totLen := fun proto => by
    rw [← UInt16.toNat_inj, UInt16.toNat_ofNat', Nat.mod_eq_of_lt (hlt proto)]
  have hones : v = 0xffff ↔ v.toNat = 0xffff := UInt16.toNat_inj.symm
  have hzero : v = 0 ↔ v.toNat = 0 := UInt16.toNat_inj.symm
  constructor
  · rw [inetChksumPseudo_withField (by decide) heven hp hp' hlen, hofNat, hones]
  · have hudp : inetChksumPseudo p' src dest ipProtoUdp totLen = 0 ↔ _ :=
      inetChksumPseudo_withField (by decide) heven hp hp' hlen
    unfold udpChksumOk udpChksum
    by_cases hv : v = 0
    · rw [if_neg (not_not.mpr hv)]
      exact iff_of_true rfl (.inl hv)
    · rw [if_pos hv, beq_iff_eq, hudp, hzero]
      rw [hzero] at hv
      split
      · -- 0 is sent in its other form
        rw [hones]
        omega
      · rw [hofNat]
        omega

/-- The header in front of the checksum, of a datagram of three bytes from port 6000 to port 6000. -/
def udpFront : List UInt8 := [0x17, 0x70, 0x17, 0x70, 0x00, 0x0B]

def udpText : List UInt8 := [0x01, 0x02, 0x03]

/-- The datagram as it is sent, before the checksum is written. -/
def udpSent : List ChksumBuf := [⟨false, [0x17, 0x70, 0x17, 0x70, 0x00, 0x0B, 0x00, 0x00]⟩, ⟨false, [0x01, 0x02, 0x03]⟩]

/-- It comes with its checksum, cut at another place. -/
def udpArrived : List ChksumBuf := [⟨true, [0x17, 0x70, 0x17, 0x70, 0x00]⟩, ⟨true, [0x0B, 0x49, 0x92, 0x01, 0x02, 0x03]⟩]

/-- The datagram as it was sent. -/
theorem chksumBytes_udpSent : chksumBytes udpSent = udpFront ++ (chksumField 0 ++ udpText) := by decide

/-- The datagram as it arrived, in other pbufs. -/
theorem chksumBytes_udpArrived : chksumBytes udpArrived = udpFront ++ (chksumField 0x9249 ++ udpText) := by decide

/-- The checks of both receivers on the datagram. -/
theorem chksum_field_udpArrived :
    (inetChksumPseudo udpArrived 0xC0A80101 0xC0A80112 ipProtoTcp 11 = 0 ↔
      0x9249 = UInt16.ofNat (inetChksumPseudo udpSent 0xC0A80101 0xC0A80112 ipProtoTcp 11) ∨
        inetChksumPseudo udpSent 0xC0A80101 0xC0A80112 ipProtoTcp 11 = 0 ∧ (0x9249 : UInt16) = 0xffff) ∧
    (udpChksumOk 0x9249 udpArrived 0xC0A80101 0xC0A80112 11 = true ↔
      (0x9249 : UInt16) = 0 ∨ 0x9249 = udpChksum (inetChksumPseudo udpSent 0xC0A80101 0xC0A80112 ipProtoUdp 11)) :=
  chksum_field (by decide) chksumBytes_udpSent chksumBytes_udpArrived (by decide)

end Chain

end BareMetal.Ip
