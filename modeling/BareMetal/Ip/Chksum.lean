import BareMetal.Lib.OnesComplement

/-! # The internet checksum

`inet_chksum` with version 2 of `lwip_standard_chksum`, which is the one that is compiled: it reads the data in
16-bit words of the processor, from the first even address on, and swaps the bytes of the sum when the data is
at an odd address. The checksum of data is 0 exactly when its words add up to zero in ones' complement, wherever
the data lies (`inetChksum_eq_zero_iff`). -/

namespace BareMetal.Ip

/-- `while (len > 1) { sum += *ps++; len -= 2; }`: the sum, and the byte that is left over. -/
def sumWords : ℕ → List UInt8 → ℕ × List UInt8
  | sum, a :: b :: l => sumWords (sum + (a.toNat + 256 * b.toNat)) l
  | sum, l => (sum, l)

/-- `SWAP_BYTES_IN_WORD(w)`. -/
def swapBytesInWord (w : ℕ) : ℕ := w % 256 * 256 + w / 256 % 256

/-- The left-over byte, `*(u8_t *)ps`, if there is one. -/
def leftOver : List UInt8 → ℕ
  | b :: _ => b.toNat
  | [] => 0

/-- `lwip_standard_chksum` of the bytes `l`, which lie at an odd address or not. There are fewer than 2^16 of them,
so that the sum stays below 2^32. -/
def lwipStandardChksum (odd : Bool) (l : List UInt8) : ℕ :=
  let (high, l) := match odd, l with
    | true, b :: l => (b.toNat, l)
    | _, l => (0, l)
  let (sum, rest) := sumWords 0 l
  let sum := fold (fold (sum + (leftOver rest + 256 * high)))
  (if odd then swapBytesInWord sum else sum) % 2 ^ 16

/-- `inet_chksum`: the bits of the sum, inverted. -/
def inetChksum (odd : Bool) (l : List UInt8) : ℕ := 2 ^ 16 - 1 - lwipStandardChksum odd l

variable {l : List UInt8}

/-- The loop and the byte that it leaves over add up to the sum of the words. -/
theorem sumWords_eq (sum : ℕ) (l : List UInt8) :
    (sumWords sum l).1 + leftOver (sumWords sum l).2 = sum + leWordSum l := by
  induction sum, l using sumWords.induct with
  | case1 sum a b l ih =>
      rw [sumWords, ih, leWordSum]
      omega
  | case2 sum l hl =>
      obtain _ | ⟨a, _ | ⟨b, l⟩⟩ := l
      · rfl
      · rfl
      · exact absurd rfl (hl a b l)

/-- Swapping the bytes of a word keeps 0xffff, and makes it of nothing else. -/
theorem swapBytesInWord_eq_ones_iff {w : ℕ} (hw : w < 2 ^ 16) :
    swapBytesInWord w % 2 ^ 16 = 2 ^ 16 - 1 ↔ w = 2 ^ 16 - 1 := by
  simp only [swapBytesInWord]
  omega

/-- The sum that is folded: of the big-endian words from an odd address on, of the little-endian ones else. -/
theorem lwipStandardChksum_eq (odd : Bool) (l : List UInt8) :
    lwipStandardChksum odd l =
      (if odd then swapBytesInWord (fold (fold (wordSum l))) else fold (fold (leWordSum l))) % 2 ^ 16 := by
  cases odd with
  | false =>
      have hsum : (sumWords 0 l).1 + (leftOver (sumWords 0 l).2 + 256 * 0) = leWordSum l := by
        have := sumWords_eq 0 l
        omega
      rw [if_neg Bool.false_ne_true, ← hsum]
      exact congrArg (· % 2 ^ 16) (if_neg Bool.false_ne_true)
  | true =>
      cases l with
      | nil => rfl
      | cons b l =>
          have hsum : (sumWords 0 l).1 + (leftOver (sumWords 0 l).2 + 256 * b.toNat) = wordSum (b :: l) := by
            have := sumWords_eq 0 l
            rw [wordSum_cons]
            omega
          rw [if_pos rfl, ← hsum]
          exact congrArg (· % 2 ^ 16) (if_pos rfl)

/-- **The check of a checksum.** -/
theorem inetChksum_eq_zero_iff (odd : Bool) (hl : l.length < 2 ^ 16) :
    inetChksum odd l = 0 ↔ wordSum l ≠ 0 ∧ 2 ^ 16 - 1 ∣ wordSum l := by
  have hword : wordSum l < 2 ^ 32 := lt_of_lt_of_le (wordSum_lt l) (by omega)
  have hle : leWordSum l < 2 ^ 32 := lt_of_lt_of_le (leWordSum_lt l) (by omega)
  have hones : inetChksum odd l = 0 ↔ lwipStandardChksum odd l = 2 ^ 16 - 1 := by
    have hlt : lwipStandardChksum odd l < 2 ^ 16 := Nat.mod_lt _ (by decide)
    rw [inetChksum]
    omega
  rw [hones, lwipStandardChksum_eq]
  cases odd with
  | false =>
      have hlt := fold_fold_lt hle
      rw [if_neg Bool.false_ne_true, Nat.mod_eq_of_lt hlt, fold_fold_eq_ones_iff hle, Ne, leWordSum_eq_zero_iff,
        dvd_leWordSum_iff]
  | true => rw [if_pos rfl, swapBytesInWord_eq_ones_iff (fold_fold_lt hword), fold_fold_eq_ones_iff hword]

/-- The header of a packet from 192.168.1.1 to 192.168.1.2, with the right checksum. -/
example : inetChksum false [0x45, 0, 0, 20, 0, 0, 0, 0, 64, 17, 0xF7, 0x85, 192, 168, 1, 1, 192, 168, 1, 2] = 0 := by
  decide

end BareMetal.Ip
