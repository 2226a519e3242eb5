import Mathlib.Algebra.Group.Nat.Defs
import Mathlib.Data.Int.Notation
import BareMetal.Ip.Addr

/-! # Addresses as text

`ipaddr_aton` and `ipaddr_ntoa_r` of `ip_addr.c`, on the bytes of a string. `ipaddr_aton` reads one to four numbers, which may
be hexadecimal or octal, and looks only at the last one for its size. What `ipaddr_ntoa_r` writes is read back, and it writes
all of it or returns `NULL` (`ipaddrAton_ntoa`). -/

namespace BareMetal.Ip

/-! ## Reading -/

/-- `isdigit(c)`. -/
def isdigit (c : UInt8) : Bool := 0x30 ≤ c && c ≤ 0x39

/-- `isxdigit(c)`. -/
def isxdigit (c : UInt8) : Bool := isdigit c || (0x61 ≤ c && c ≤ 0x66) || (0x41 ≤ c && c ≤ 0x46)

/-- `islower(c)`. -/
def islower (c : UInt8) : Bool := 0x61 ≤ c && c ≤ 0x7A

/-- `isspace(c)`. -/
def isspace (c : UInt8) : Bool := c == 0x20 || c == 0x0C || c == 0x0A || c == 0x0D || c == 0x09 || c == 0x0B

/-- The dot. -/
def dot : UInt8 := 0x2E

/-- The inner loop of `ipaddr_aton`: the number, and what is behind it. -/
def atonDigits (base : UInt32) : UInt32 → List UInt8 → UInt32 × List UInt8
  | val, [] => (val, [])
  | val, c :: cp =>
      if isdigit c then atonDigits base (val * base + (c - 0x30).toUInt32) cp
      else if base = 16 ∧ isxdigit c = true then
        atonDigits base (val <<< 4 ||| (c + 10 - if islower c then 0x61 else 0x41).toUInt32) cp
      else (val, c :: cp)

/-- A number: `0x` and `0X` are in front of hexadecimal ones, and 0 in front of octal ones. -/
def atonPart : List UInt8 → Option (UInt32 × List UInt8)
  | [] => none
  | c :: cp =>
      if !isdigit c then none
      else if c = 0x30 then
        if cp.head? = some 0x78 ∨ cp.head? = some 0x58 then some (atonDigits 16 0 cp.tail) else some (atonDigits 8 0 cp)
      else some (atonDigits 10 0 (c :: cp))

/-- The outer loop, with room for `n` parts in front of the last one: `parts`, `val`, and what is behind them. -/
def atonLoop : ℕ → List UInt32 → List UInt8 → Option (List UInt32 × UInt32 × List UInt8)
  | 0, parts, cp => do
      let (val, cp) ← atonPart cp
      if cp.head? = some dot then none else some (parts, val, cp)
  | n + 1, parts, cp => do
      let (val, cp) ← atonPart cp
      if cp.head? = some dot then atonLoop n (parts ++ [val]) cp.tail else some (parts, val, cp)

/-- `switch (pp - parts + 1)`. -/
def atonVal : List UInt32 → UInt32 → Option UInt32
  | [], val => some val
  | [a], val => if 0xffffff < val then none else some (val ||| a <<< 24)
  | [a, b], val => if 0xffff < val then none else some (val ||| (a <<< 24 ||| b <<< 16))
  | [a, b, c], val => if 0xff < val then none else some (val ||| (a <<< 24 ||| b <<< 16 ||| c <<< 8))
  | _, _ => none

/-- `c != '\0' && !isspace(c)` fails. -/
def atonEnds : List UInt8 → Bool
  | [] => true
  | c :: _ => c == 0 || isspace c

/-- `ipaddr_aton(cp, addr)`: the address, in the order of the host. -/
def ipaddrAton (cp : List UInt8) : Option UInt32 := do
  let (parts, val, cp) ← atonLoop 3 [] cp
  if atonEnds cp then atonVal parts val else none

/-! ## Writing -/

/-- `do ... while(*ap)`: the digits of an octet, the last one first. -/
def ntoaInv : ℕ → UInt8 → List UInt8
  | 0, _ => []
  | n + 1, ap => (0x30 + ap % 10) :: if ap / 10 ≠ 0 then ntoaInv n (ap / 10) else []

/-- The octets of an address, in the order of the network. -/
def addrOctets (addr : UInt32) : List UInt8 :=
  [UInt8.ofNat (addr.toNat / 2 ^ 24), UInt8.ofNat (addr.toNat / 2 ^ 16), UInt8.ofNat (addr.toNat / 2 ^ 8),
    UInt8.ofNat addr.toNat]

/-- The characters of an octet, in the order in which they are written. -/
def digits (ap : UInt8) : List UInt8 := (ntoaInv 3 ap).reverse

/-- `if (len++ >= buflen) { return NULL; } *rp++ = c;` -/
def put (buflen : ℤ) (buf : List UInt8) (c : UInt8) : Option (List UInt8) :=
  if buflen ≤ buf.length then none else some (buf ++ [c])

/-- `ipaddr_ntoa_r(addr, buf, buflen)`: the string with its end, or `NULL`. The end is written over the last dot. -/
def ipaddrNtoaR (addr : UInt32) (buflen : ℤ) : Option (List UInt8) := do
  let buf ← ((addrOctets addr).flatMap fun ap => digits ap ++ [dot]).foldlM (put buflen) []
  some (buf.dropLast ++ [0])

/-! ## Round trip -/

/-- The digits are read up to a character that is none. -/
theorem atonDigits_append (base val : UInt32) {l : List UInt8} {c : UInt8} (cp : List UInt8)
    (hl : ∀ x ∈ l, isdigit x = true) (hc : isxdigit c = false) :
    atonDigits base val (l ++ c :: cp) = ((atonDigits base val l).1, c :: cp) := by
  induction l generalizing val with
  | nil =>
      have hdigit : isdigit c = false := by
        rw [isxdigit, Bool.or_eq_false_iff, Bool.or_eq_false_iff] at hc
        exact hc.1.1
      show atonDigits base val (c :: cp) = (val, c :: cp)
      rw [atonDigits, if_neg (Bool.eq_false_iff.mp hdigit), if_neg fun h => absurd h.2 (Bool.eq_false_iff.mp hc)]
  | cons x l ih =>
      have hx := hl x List.mem_cons_self
      rw [List.cons_append, atonDigits, if_pos hx, ih _ fun y hy => hl y (List.mem_cons_of_mem x hy), atonDigits, if_pos hx]

/-- The base of a number is read off its first characters. -/
theorem atonPart_cons {c : UInt8} (cp : List UInt8) (hc : isdigit c = true) :
    atonPart (c :: cp) = if c = 0x30 then
      if cp.head? = some 0x78 ∨ cp.head? = some 0x58 then some (atonDigits 16 0 cp.tail) else some (atonDigits 8 0 cp)
      else some (atonDigits 10 0 (c :: cp)) := by
  rw [atonPart, hc]
  rfl

/-- A digit is not the letter of hexadecimal numbers. -/
theorem not_hex_of_isdigit {c : UInt8} (hc : isdigit c = true) : ¬(some c = some 0x78 ∨ some c = some 0x58) := by
  rintro (h | h)
  · rw [Option.some.inj h] at hc
    exact absurd hc (by decide)
  · rw [Option.some.inj h] at hc
    exact absurd hc (by decide)

/-- A number in digits is read up to a character that is in no number. -/
theorem atonPart_append {l : List UInt8} {c : UInt8} (cp : List UInt8) (hne : l ≠ []) (hl : ∀ x ∈ l, isdigit x = true)
    (hc : isxdigit c = false) (hhex : ¬(some c = some 0x78 ∨ some c = some 0x58)) :
    atonPart (l ++ c :: cp) = (atonPart l).map fun r => (r.1, c :: cp) := by
  obtain _ | ⟨d, l⟩ := l
  · exact absurd rfl hne
  have hd := hl d List.mem_cons_self
  have hrest : ∀ x ∈ l, isdigit x = true := fun x hx => hl x (List.mem_cons_of_mem d hx)
  rw [List.cons_append, atonPart_cons _ hd, atonPart_cons _ hd]
  by_cases hzero : d = 0x30
  · have hfirst : ¬((l ++ c :: cp).head? = some 0x78 ∨ (l ++ c :: cp).head? = some 0x58) := by
      cases l with
      | nil => exact hhex
      | cons x l => exact not_hex_of_isdigit (hrest x List.mem_cons_self)
    have hfirst' : ¬(l.head? = some 0x78 ∨ l.head? = some 0x58) := by
      cases l with
      | nil => exact fun h => h.elim nofun nofun
      | cons x l => exact not_hex_of_isdigit (hrest x List.mem_cons_self)
    rw [if_pos hzero, if_pos hzero, if_neg hfirst, if_neg hfirst', atonDigits_append 8 0 cp hrest hc]
    rfl
  · rw [if_neg hzero, if_neg hzero, ← List.cons_append, atonDigits_append 10 0 cp hl hc]
    rfl

/-- The 256 octets, one after the other. -/
theorem digits_spec_lt : ∀ n < 256, (digits (UInt8.ofNat n)).length ≤ 3 ∧ (digits (UInt8.ofNat n)).all isdigit = true ∧
    atonPart (digits (UInt8.ofNat n)) = some ((UInt8.ofNat n).toUInt32, []) := by decide +kernel

/-- The digits of an octet: at most three, and they are read as the octet. -/
theorem digits_spec (ap : UInt8) : (digits ap).length ≤ 3 ∧ (∀ x ∈ digits ap, isdigit x = true) ∧
    atonPart (digits ap) = some (ap.toUInt32, []) := by
  have h := digits_spec_lt ap.toNat ap.toNat_lt
  rwa [UInt8.ofNat_toNat, List.all_eq_true] at h

/-- The digits of an octet are read as the octet, up to a character that ends them. -/
theorem atonPart_digits (ap : UInt8) {c : UInt8} (cp : List UInt8) (hc : isxdigit c = false)
    (hhex : ¬(some c = some 0x78 ∨ some c = some 0x58)) : atonPart (digits ap ++ c :: cp) = some (ap.toUInt32, c :: cp) := by
  obtain ⟨-, hdigits, hval⟩ := digits_spec ap
  have hne : digits ap ≠ [] := by
    intro h
    rw [h] at hval
    cases hval
  rw [atonPart_append cp hne hdigits hc hhex, hval]
  rfl

/-- An octet with a dot behind it is one of the parts. -/
theorem atonLoop_dot (n : ℕ) (parts : List UInt32) (ap : UInt8) (cp : List UInt8) :
    atonLoop (n + 1) parts (digits ap ++ dot :: cp) = atonLoop n (parts ++ [ap.toUInt32]) cp := by
  rw [atonLoop, atonPart_digits ap cp (by decide) (by decide)]
  rfl

/-- An octet with the end of the string behind it is the last one. -/
theorem atonLoop_end (parts : List UInt32) (ap : UInt8) (cp : List UInt8) :
    atonLoop 0 parts (digits ap ++ 0 :: cp) = some (parts, ap.toUInt32, 0 :: cp) := by
  rw [atonLoop, atonPart_digits ap cp (by decide) (by decide)]
  rfl

/-- The characters of an address, without the end of the string. -/
def addrText : List UInt8 → List UInt8
  | [] => []
  | [ap] => digits ap
  | ap :: l => digits ap ++ dot :: addrText l

/-- The loop writes a dot behind every octet. -/
theorem flatMap_digits (ap : UInt8) (l : List UInt8) :
    (ap :: l).flatMap (fun ap => digits ap ++ [dot]) = addrText (ap :: l) ++ [dot] := by
  induction l generalizing ap with
  | nil => rw [List.flatMap_cons, List.flatMap_nil, List.append_nil, addrText]
  | cons b l ih =>
      have htext : addrText (ap :: b :: l) = digits ap ++ dot :: addrText (b :: l) := rfl
      rw [List.flatMap_cons, ih b, htext, List.append_assoc, List.append_assoc]
      rfl

/-- There is room for all of the characters, or `NULL` is returned. -/
theorem foldlM_put {buflen : ℤ} {l buf : List UInt8} (h : l = [] → (buf.length : ℤ) ≤ buflen) :
    l.foldlM (put buflen) buf = if ((buf ++ l).length : ℤ) ≤ buflen then some (buf ++ l) else none := by
  induction l generalizing buf with
  | nil =>
      rw [List.append_nil, if_pos (h rfl)]
      rfl
  | cons c l ih =>
      have hlength : (buf ++ c :: l).length = buf.length + (l.length + 1) := List.length_append
      rw [List.foldlM_cons, put]
      split
      · rename_i hfull
        rw [if_neg (by omega)]
        rfl
      · rename_i hroom
        have hbuf : l = [] → ((buf ++ [c]).length : ℤ) ≤ buflen := fun _ => by
          rw [List.length_append, List.length_singleton]
          omega
        have hnext := ih hbuf
        rw [List.append_assoc, List.singleton_append] at hnext
        exact hnext

/-- Bits that do not meet are added. -/
theorem or_of_lt {x y k : ℕ} (h : y < 2 ^ k) : x * 2 ^ k ||| y = x * 2 ^ k + y := by
  rw [← Nat.shiftLeft_eq, Nat.shiftLeft_add_eq_or_of_lt h]

/-- The four octets are put together to the address. -/
theorem or_octets {n : ℕ} (h : n < 2 ^ 32) :
    n % 2 ^ 8 ||| (n / 2 ^ 24 % 2 ^ 8 * 2 ^ 24 ||| n / 2 ^ 16 % 2 ^ 8 * 2 ^ 16 ||| n / 2 ^ 8 % 2 ^ 8 * 2 ^ 8) = n := by
  -- each octet is below the bits of those in front of it
  have htwo : n / 2 ^ 24 % 2 ^ 8 * 2 ^ 24 ||| n / 2 ^ 16 % 2 ^ 8 * 2 ^ 16 = n / 2 ^ 16 * 2 ^ 16 := by
    rw [or_of_lt (by omega)]
    omega
  have hthree : n / 2 ^ 16 * 2 ^ 16 ||| n / 2 ^ 8 % 2 ^ 8 * 2 ^ 8 = n / 2 ^ 8 * 2 ^ 8 := by
    rw [or_of_lt (by omega)]
    omega
  rw [htwo, hthree, Nat.or_comm, or_of_lt (by omega)]
  omega

/-- Four octets make the address. -/
theorem atonVal_octets (addr : UInt32) :
    atonVal [(UInt8.ofNat (addr.toNat / 2 ^ 24)).toUInt32, (UInt8.ofNat (addr.toNat / 2 ^ 16)).toUInt32,
      (UInt8.ofNat (addr.toNat / 2 ^ 8)).toUInt32] (UInt8.ofNat addr.toNat).toUInt32 = some addr := by
  have hlt := addr.toNat_lt
  have hsmall : ∀ b : UInt8, ¬0xff < b.toUInt32 := fun b h => by
    have hb := b.toNat_lt
    rw [UInt32.lt_iff_toNat_lt, UInt8.toNat_toUInt32] at h
    exact absurd h (Nat.not_lt.mpr (Nat.le_of_lt_succ hb))
  rw [atonVal, if_neg (hsmall _)]
  refine congrArg some (UInt32.toNat_inj.mp ?_)
  rw [UInt32.toNat_or, UInt32.toNat_or, UInt32.toNat_or, UInt32.toNat_shiftLeft, UInt32.toNat_shiftLeft,
    UInt32.toNat_shiftLeft, UInt8.toNat_toUInt32, UInt8.toNat_toUInt32, UInt8.toNat_toUInt32, UInt8.toNat_toUInt32,
    UInt8.toNat_ofNat', UInt8.toNat_ofNat', UInt8.toNat_ofNat', UInt8.toNat_ofNat', Nat.shiftLeft_eq, Nat.shiftLeft_eq,
    Nat.shiftLeft_eq]
  have hshift : ∀ x k : ℕ, k ≤ 24 → x % 2 ^ 8 * 2 ^ k % 2 ^ 32 = x % 2 ^ 8 * 2 ^ k := fun x k hk => by
    refine Nat.mod_eq_of_lt ?_
    calc x % 2 ^ 8 * 2 ^ k < 2 ^ 8 * 2 ^ k := Nat.mul_lt_mul_of_pos_right (Nat.mod_lt _ (Nat.two_pow_pos 8)) (Nat.two_pow_pos k)
      _ = 2 ^ (8 + k) := (Nat.pow_add 2 8 k).symm
      _ ≤ 2 ^ 32 := Nat.pow_le_pow_right Nat.two_pos (Nat.add_le_add_left hk 8)
  have h24 : UInt32.toNat 24 % 32 = 24 := rfl
  have h16 : UInt32.toNat 16 % 32 = 16 := rfl
  have h8 : UInt32.toNat 8 % 32 = 8 := rfl
  rw [h24, h16, h8, hshift _ 24 (Nat.le_refl 24), hshift _ 16 (by omega),
    hshift _ 8 (by omega)]
  exact or_octets hlt

/-- The text of an address is read as the address, whatever is behind its end. It has at most 15 characters, and
`ipaddr_ntoa_r` writes it with its end if there is room for both, and returns `NULL` else. -/
theorem ipaddrAton_ntoa (addr : UInt32) :
    ∃ text : List UInt8, text.length ≤ 15 ∧ 0 ∉ text ∧ ∀ (buflen : ℤ) (rest : List UInt8),
      ipaddrNtoaR addr buflen = (if (text.length : ℤ) < buflen then some (text ++ [0]) else none) ∧
      ipaddrAton (text ++ 0 :: rest) = some addr := by
  refine ⟨addrText (addrOctets addr), ?_, ?_, fun buflen rest => ⟨?_, ?_⟩⟩
  · have hlength : ∀ ap, (digits ap).length ≤ 3 := fun ap => (digits_spec ap).1
    have ha := hlength (UInt8.ofNat (addr.toNat / 2 ^ 24))
    have hb := hlength (UInt8.ofNat (addr.toNat / 2 ^ 16))
    have hc := hlength (UInt8.ofNat (addr.toNat / 2 ^ 8))
    have hd := hlength (UInt8.ofNat addr.toNat)
    simp only [addrOctets, addrText, List.length_append, List.length_cons]
    omega
  · have hzero : ∀ ap, 0 ∉ digits ap := fun ap h => absurd ((digits_spec ap).2.1 0 h) (by decide)
    have hdot : 0 ≠ dot := by decide
    simp only [addrOctets, addrText, List.mem_append, List.mem_cons, hzero, hdot, or_self, not_false_eq_true]
  · -- the last dot gives its place to the end of the string
    have hwrite : (addrOctets addr).flatMap (fun ap => digits ap ++ [dot]) = addrText (addrOctets addr) ++ [dot] :=
      flatMap_digits _ _
    have hlength : ((addrText (addrOctets addr) ++ [dot]).length : ℤ) = (addrText (addrOctets addr)).length + 1 := by
      rw [List.length_append, List.length_singleton]
      rfl
    rw [ipaddrNtoaR, hwrite, foldlM_put fun h => absurd h (List.append_ne_nil_of_right_ne_nil _ (List.cons_ne_nil _ _)),
      List.nil_append, hlength]
    by_cases hroom : ((addrText (addrOctets addr)).length : ℤ) < buflen
    · rw [if_pos hroom, if_pos (Int.add_one_le_of_lt hroom)]
      exact congrArg (fun l => some (l ++ [0])) List.dropLast_concat
    · rw [if_neg hroom, if_neg fun h => hroom (Int.lt_of_add_one_le h)]
      rfl
  · -- three octets with a dot behind them, and one with the end
    have hloop : atonLoop 3 [] (addrText (addrOctets addr) ++ 0 :: rest) =
        some ([(UInt8.ofNat (addr.toNat / 2 ^ 24)).toUInt32, (UInt8.ofNat (addr.toNat / 2 ^ 16)).toUInt32,
          (UInt8.ofNat (addr.toNat / 2 ^ 8)).toUInt32], (UInt8.ofNat addr.toNat).toUInt32, 0 :: rest) := by
      simp only [addrOctets, addrText, List.append_assoc, List.cons_append, List.nil_append, atonLoop_dot, atonLoop_end]
    rw [ipaddrAton, hloop]
    exact atonVal_octets addr

/-- `0x7f.1` is read as 127.0.0.1. -/
example : ipaddrAton [0x30, 0x78, 0x37, 0x66, 0x2E, 0x31, 0] = some 0x7F000001 := by decide

end BareMetal.Ip
