import BareMetal.Lib.Slices
import BareMetal.Ip.ReassRun

/-! # What reassembly delivers

The fragments that come are pieces of datagrams, each datagram cut in one way, in any order and any number of times.
`Sender` says so. Then a queue holds pieces of one datagram, and what is delivered is the datagram, with its
header, unless the fragment that completes it goes between two others behind a hole: the validation does not
look at this place (`reass_right`). -/

namespace BareMetal.Ip

/-- What the fragments of one datagram have in common. -/
abbrev Key : Type := UInt32 × UInt32 × UInt16

/-- The header without what a fragment has of its own. -/
def IpHdr.blank (h : IpHdr) : IpHdr := { h with len := 0, offset := 0, chksum := 0 }

/-- The datagrams that are sent, and the ranges of their data that travel in one fragment. -/
structure Sender where
  hdr : Key → IpHdr
  data : Key → List UInt8
  piece : Key → ℕ → ℕ → Prop
  key_hdr : ∀ k, (hdr k).key = k
  len_hdr : ∀ k, (hdr k).len.toNat = 20 + (data k).length
  offset_hdr : ∀ k, (hdr k).offset = 0
  chksum_hdr : ∀ k, (hdr k).withChksum = hdr k
  piece_lt : ∀ k a b, piece k a b → a < b ∧ b ≤ (data k).length
  piece_apart : ∀ k a b a' b', piece k a b → piece k a' b' → a = a' ∧ b = b' ∨ b ≤ a' ∨ b' ≤ a

/-- The packet is the fragment with the data from `a` to `b`. -/
structure Sender.Sent (σ : Sender) (p : Packet) (a b : ℕ) : Prop where
  piece : σ.piece p.hdr.key a b
  offset : p.hdr.fragOffset.toNat = a
  dataLen : p.hdr.dataLen.toNat = b - a
  text : p.chain.flatten = slice (σ.data p.hdr.key) a b
  more : p.hdr.moreFragments = true ↔ b < (σ.data p.hdr.key).length
  first : a = 0 → p.hdr.blank = (σ.hdr p.hdr.key).blank

/-- The event is a fragment that was sent, or the timer. -/
def Sender.Sends (σ : Sender) : ReassEvent → Prop
  | .fragment p => ∃ a b, σ.Sent p a b
  | .tmr => True

/-- The queued fragment is a piece of the datagram `k`. -/
structure Sender.Holds (σ : Sender) (k : Key) (f : Frag) : Prop where
  piece : σ.piece k f.start.toNat f.stop.toNat
  text : f.chain.flatten = slice (σ.data k) f.start.toNat f.stop.toNat

/-- The element holds pieces of one datagram. -/
structure Sender.Held (σ : Sender) (r : ReassData) : Prop where
  frags : ∀ f ∈ r.p, σ.Holds r.iphdr.key f
  last : r.lastfrag = true ↔ ∃ f ∈ r.p, f.stop.toNat = (σ.data r.iphdr.key).length
  total : r.lastfrag = true → r.datagramLen.toNat = (σ.data r.iphdr.key).length
  first : (∃ f ∈ r.p, f.start = 0) → r.iphdr.fragOffset = 0
  hdr : r.iphdr.fragOffset = 0 → r.iphdr.blank = (σ.hdr r.iphdr.key).blank

variable {σ : Sender} {s s' t : Reass} {r : ReassData} {p : Packet} {k : Key} {f g : Frag} {a b : ℕ}
  {q before after : List Frag} {received : PbufData}

/-! ## Pieces -/

/-- A datagram fits into the length of its header. -/
theorem Sender.length_lt (σ : Sender) (k : Key) : (σ.data k).length + 20 < 0x10000 := by
  have hlen := σ.len_hdr k
  have hlt := (σ.hdr k).len.toNat_lt
  omega

/-- The range of the fragment as it is queued. -/
theorem Sender.Sent.frag (h : σ.Sent p a b) : p.frag.start.toNat = a ∧ p.frag.stop.toNat = b := by
  obtain ⟨hlt, hle⟩ := σ.piece_lt _ a b h.piece
  have hshort := σ.length_lt p.hdr.key
  refine ⟨h.offset, ?_⟩
  rw [Packet.frag, UInt16.toNat_add, h.offset, h.dataLen, Nat.mod_eq_of_lt (by omega)]
  omega

/-- The fragment of a piece holds that piece. -/
theorem Sender.Sent.holds (h : σ.Sent p a b) : σ.Holds p.hdr.key p.frag := by
  obtain ⟨hstart, hstop⟩ := h.frag
  refine ⟨?_, ?_⟩
  · rw [hstart, hstop]
    exact h.piece
  · rw [hstart, hstop]
    exact h.text

/-- Pieces are not empty. -/
theorem Sender.Holds.lt (h : σ.Holds k f) : f.start.toNat < f.stop.toNat := (σ.piece_lt k _ _ h.piece).1

/-- Pieces end inside their datagram. -/
theorem Sender.Holds.le (h : σ.Holds k f) : f.stop.toNat ≤ (σ.data k).length := (σ.piece_lt k _ _ h.piece).2

/-- Pieces that collide are the same. -/
theorem Sender.Holds.eq_of_collides (hf : σ.Holds k f) (hg : σ.Holds k g) (h : f.Collides g) :
    f.start.toNat = g.start.toNat ∧ f.stop.toNat = g.stop.toNat := by
  have hflt := hf.lt
  have hglt := hg.lt
  have hcases : f.start.toNat = g.start.toNat ∨ f.start.toNat < g.start.toNat ∧ g.start.toNat < f.stop.toNat ∨
      g.start.toNat < f.start.toNat ∧ f.start.toNat < g.stop.toNat := by
    rcases h with hstart | ⟨hlt, hover⟩ | ⟨hlt, hover⟩
    · exact .inl (congrArg UInt16.toNat hstart)
    · exact .inr (.inl ⟨UInt16.lt_iff_toNat_lt.mp hlt, UInt16.lt_iff_toNat_lt.mp hover⟩)
    · exact .inr (.inr ⟨UInt16.lt_iff_toNat_lt.mp hlt, UInt16.lt_iff_toNat_lt.mp hover⟩)
  rcases σ.piece_apart k _ _ _ _ hf.piece hg.piece with heq | hle | hle
  · exact heq
  · omega
  · omega

/-- Pieces in the order of their offsets do not overlap. -/
theorem Sender.Holds.le_of_lt (hf : σ.Holds k f) (hg : σ.Holds k g) (h : f.start < g.start) :
    f.stop.toNat ≤ g.start.toNat := by
  have hflt := hf.lt
  have hglt := hg.lt
  rw [UInt16.lt_iff_toNat_lt] at h
  rcases σ.piece_apart k _ _ _ _ hf.piece hg.piece with heq | hle | hle <;> omega

/-! ## The element of a datagram -/

/-- The header of the first piece is kept when it comes. -/
theorem iphdr_note (r : ReassData) (h : IpHdr) :
    (r.note h).iphdr = if h.fragOffset = 0 ∧ r.iphdr.fragOffset ≠ 0 then h else r.iphdr := by
  unfold ReassData.note
  dsimp only
  split <;> split <;> rfl

/-- The last piece is remembered. -/
theorem lastfrag_note (r : ReassData) (h : IpHdr) : (r.note h).lastfrag = (r.lastfrag || !h.moreFragments) := by
  unfold ReassData.note
  dsimp only
  cases h.moreFragments with
  | true =>
      rw [if_pos rfl]
      split <;> simp
  | false =>
      rw [if_neg Bool.false_ne_true]
      simp

/-- The length is known from the last piece on. -/
theorem datagramLen_note (r : ReassData) (h : IpHdr) :
    (r.note h).datagramLen = if h.moreFragments then r.datagramLen else h.fragOffset + h.dataLen := by
  unfold ReassData.note
  dsimp only
  split <;> split <;> rfl

/-- A new element has an empty queue. -/
theorem Sender.held_newDatagram (σ : Sender) (hp : σ.Sent p a b) : σ.Held (newDatagram p.hdr) where
  frags _ hf := absurd hf List.not_mem_nil
  last := iff_of_false Bool.false_ne_true fun ⟨_, hf, _⟩ => absurd hf List.not_mem_nil
  total h := absurd h Bool.false_ne_true
  first := fun ⟨_, hf, _⟩ => absurd hf List.not_mem_nil
  hdr h := hp.first (hp.offset.symm.trans (congrArg UInt16.toNat h))

/-- **A fragment arrives.** The queue gets it, or has its range already. -/
theorem Sender.Held.arrive (h : σ.Held r) (hkey : r.iphdr.key = p.hdr.key) (hp : σ.Sent p a b)
    (hold : r.p ⊆ q) (hnew : ∀ f ∈ q, f ∈ r.p ∨ f = p.frag)
    (hrange : ∃ f ∈ q, f.start.toNat = a ∧ f.stop.toNat = b) : σ.Held { r.note p.hdr with p := q } := by
  have hkey' : (r.note p.hdr).iphdr.key = r.iphdr.key := key_note ((matches_iff _ _).mpr hkey)
  obtain ⟨hlt, hle⟩ := σ.piece_lt _ a b hp.piece
  obtain ⟨g, hg, hga, hgb⟩ := hrange
  have hpfrag := hp.frag
  constructor
  · -- every fragment is a piece
    intro f hf
    show σ.Holds (r.note p.hdr).iphdr.key f
    rw [hkey']
    rcases hnew f hf with hf | rfl
    · exact h.frags f hf
    · rw [hkey]
      exact hp.holds
  · -- the last piece is known when one ends at the end of the datagram
    show (r.note p.hdr).lastfrag = true ↔ ∃ f ∈ q, f.stop.toNat = (σ.data (r.note p.hdr).iphdr.key).length
    rw [lastfrag_note, hkey', Bool.or_eq_true, h.last]
    constructor
    · rintro (⟨f, hf, hstop⟩ | hlast)
      · exact ⟨f, hold hf, hstop⟩
      · have hmore : ¬b < (σ.data p.hdr.key).length := fun hb => by
          rw [hp.more.mpr hb] at hlast
          cases hlast
        rw [hkey]
        exact ⟨g, hg, by omega⟩
    · rintro ⟨f, hf, hstop⟩
      rcases hnew f hf with hf | rfl
      · exact .inl ⟨f, hf, hstop⟩
      · rw [hkey, hpfrag.2] at hstop
        right
        have hmore := hp.more.not.mpr (by omega)
        rw [Bool.not_eq_true] at hmore
        rw [hmore]
        rfl
  · -- then so is the length
    show (r.note p.hdr).lastfrag = true → (r.note p.hdr).datagramLen.toNat = _
    rw [lastfrag_note, datagramLen_note]
    show _ → _ = (σ.data (r.note p.hdr).iphdr.key).length
    rw [hkey']
    cases hmore : p.hdr.moreFragments with
    | true => simpa using h.total
    | false =>
        have hb := hp.more.not.mp (by rw [hmore]; decide)
        intro _
        rw [if_neg Bool.false_ne_true, hkey]
        have hstop : (p.hdr.fragOffset + p.hdr.dataLen).toNat = b := hpfrag.2
        omega
  · -- the first piece brings its header along
    rintro ⟨f, hf, hstart⟩
    show (r.note p.hdr).iphdr.fragOffset = 0
    rw [iphdr_note]
    split
    · rename_i hcond
      exact hcond.1
    · rename_i hcond
      rcases hnew f hf with hf | rfl
      · exact h.first ⟨f, hf, hstart⟩
      · by_contra hne
        exact hcond ⟨hstart, hne⟩
  · -- and that header is the sender's, but for the fields of the fragment
    show (r.note p.hdr).iphdr.fragOffset = 0 → (r.note p.hdr).iphdr.blank = (σ.hdr (r.note p.hdr).iphdr.key).blank
    rw [hkey', iphdr_note]
    split
    · rename_i hcond
      intro _
      rw [hkey]
      exact hp.first (hp.offset.symm.trans (congrArg UInt16.toNat hcond.1))
    · exact h.hdr

/-! ## The datagram that is delivered -/

/-- The checksum of a header is decided by its other fields. -/
theorem withChksum_congr {h h' : IpHdr} (hblank : h.blank = h'.blank) (hlen : h.len = h'.len)
    (hoffset : h.offset = h'.offset) : h.withChksum = h'.withChksum := by
  cases h
  cases h'
  simp only [IpHdr.blank, IpHdr.mk.injEq, true_and] at hblank hlen hoffset
  obtain ⟨rfl, rfl, rfl, rfl, rfl, rfl, rfl⟩ := hblank
  subst hlen hoffset
  rfl

/-- The header of a datagram of which the first and the last fragment have come. -/
theorem Sender.Held.header_eq (h : σ.Held r) (hfirst : ∃ f ∈ r.p, f.start = 0) (hlast : r.lastfrag = true) :
    r.header = σ.hdr r.iphdr.key := by
  rw [← σ.chksum_hdr r.iphdr.key]
  refine withChksum_congr (h.hdr (h.first hfirst)) ?_ (σ.offset_hdr _).symm
  apply UInt16.toNat_inj.mp
  have htotal := h.total hlast
  have hlen := σ.len_hdr r.iphdr.key
  have hshort := σ.length_lt r.iphdr.key
  show (r.datagramLen + 20).toNat = _
  have htwenty : (20 : UInt16).toNat = 20 := rfl
  rw [UInt16.toNat_add, htotal, hlen, htwenty, Nat.mod_eq_of_lt (by omega)]
  omega

/-- The start of a fragment. -/
def Frag.lo (f : Frag) : ℕ := f.start.toNat

/-- The end of a fragment. -/
def Frag.hi (f : Frag) : ℕ := f.stop.toNat

/-- Fragments that touch are a chain of intervals. -/
theorem isChain_lo_hi (h : q.IsChain Frag.Touches) : q.IsChain fun f g => f.hi = g.lo :=
  h.imp fun _ _ htouch => congrArg UInt16.toNat htouch

/-- Pieces without holes between them hold a slice of the datagram. -/
theorem exists_slice (hq : ∀ f ∈ q, σ.Holds k f) (hchain : q.IsChain Frag.Touches) (hne : q ≠ []) :
    ∃ f ∈ q.head?, ∃ b, Tiles Frag.lo Frag.hi q f.lo b ∧ (∀ g ∈ q, g.hi ≤ b) ∧ (∃ g ∈ q, g.hi = b) ∧
      q.flatMap (fun f => f.chain.flatten) = slice (σ.data k) f.lo b := by
  cases q with
  | nil => exact absurd rfl hne
  | cons f q =>
      have hle : ∀ g ∈ f :: q, g.lo ≤ g.hi := fun g hg => Nat.le_of_lt (hq g hg).lt
      obtain ⟨b, htiles, hmax, hb⟩ := exists_tiles (isChain_lo_hi hchain) hle
      exact ⟨f, rfl, b, htiles, hmax, hb, htiles.flatMap_eq hle fun g hg => (hq g hg).text⟩

/-- The bytes of a queue, fragment by fragment. -/
theorem flatten_flatMap_chain (q : List Frag) :
    (q.flatMap Frag.chain).flatten = q.flatMap fun f => f.chain.flatten := by
  induction q with
  | nil => rfl
  | cons f q ih => rw [List.flatMap_cons, List.flatten_append, ih, List.flatMap_cons]

/-- The new fragment goes between two others, and none of the queue ends where it begins. -/
def Frag.BehindHole (new : Frag) (q : List Frag) : Prop :=
  (∃ f ∈ q, f.start < new.start) ∧ (∃ f ∈ q, new.start < f.start) ∧ ∀ f ∈ q, f.stop ≠ new.start

variable {new : Frag}

/-- In a queue that passes the validation, the new fragment touches the one before it, or is behind a hole. -/
theorem touches_iff (hnew : σ.Holds k new) (hq : ∀ f ∈ before ++ after, σ.Holds k f)
    (hsorted : (before ++ new :: after).Pairwise fun f g => f.start < g.start)
    (hend : after = [] → ∀ f ∈ before.getLast?, f.Touches new) :
    (∀ f ∈ before.getLast?, f.Touches new) ↔ ¬new.BehindHole (before ++ after) := by
  obtain ⟨hbefore, hafter, hcross⟩ := List.pairwise_append.mp hsorted
  have hbehind := (List.pairwise_cons.mp hafter).1
  rcases List.eq_nil_or_concat' before with rfl | ⟨front, f, rfl⟩
  · -- the fragment is the first one
    refine iff_of_true (fun f hf => nomatch hf) ?_
    rintro ⟨⟨f, hf, hlt⟩, -⟩
    exact UInt16.lt_asymm hlt (hbehind f hf)
  rw [List.getLast?_concat]
  have hf : f ∈ (front ++ [f]) ++ after := by simp
  have hlt := hcross f (by simp) new List.mem_cons_self
  have hle := (hq f hf).le_of_lt hnew hlt
  -- a piece in front of it that it touches, ends where it begins
  constructor
  · intro htouch hhole
    exact hhole.2.2 f hf (htouch f rfl)
  · intro hhole g hg
    obtain rfl := Option.some.inj hg
    by_contra hgap
    have hgap' : f.stop.toNat ≠ new.start.toNat := fun heq => hgap (UInt16.toNat_inj.mp heq)
    -- the loop ended at the fragment, so it was compared with the one before it
    cases after with
    | nil => exact hgap (hend rfl f (List.getLast?_concat ..))
    | cons y after =>
        refine hhole ⟨⟨f, hf, hlt⟩, ⟨y, by simp, hbehind y List.mem_cons_self⟩, fun x hx hstop => ?_⟩
        have hstop' := congrArg UInt16.toNat hstop
        have hxlt := (hq x hx).lt
        rcases List.mem_append.mp hx with hx' | hx'
        · rcases List.mem_append.mp hx' with hx'' | hx''
          · have hxf := (List.pairwise_append.mp hbefore).2.2 x hx'' f List.mem_cons_self
            have hxle := (hq x hx).le_of_lt (hq f hf) hxf
            have hflt := (hq f hf).lt
            omega
          · rw [List.mem_singleton.mp hx''] at hstop
            exact hgap hstop
        · have hnewx := UInt16.lt_iff_toNat_lt.mp (hbehind x hx')
          omega

/-- **The content of a queue that passes the validation.** It is the datagram unless the new fragment is behind a
hole; then there is less. -/
theorem Sender.Held.content (h : σ.Held r) (hp : r.p = before ++ new :: after)
    (hsorted : r.p.Pairwise fun f g => f.start < g.start) (hlast : r.lastfrag = true)
    (hhead : ∃ f ∈ (before ++ [new]).head?, f.start = 0) (hbefore : before.IsChain Frag.Touches)
    (hafter : (new :: after).IsChain Frag.Touches) :
    ((∀ f ∈ before.getLast?, f.Touches new) →
      (r.p.flatMap Frag.chain).flatten = σ.data r.iphdr.key) ∧
    ((∃ f ∈ before.getLast?, ¬f.Touches new) →
      (r.p.flatMap Frag.chain).flatten.length < (σ.data r.iphdr.key).length) := by
  have hfrags : ∀ f ∈ before ++ new :: after, σ.Holds r.iphdr.key f := hp ▸ h.frags
  have hnew : σ.Holds r.iphdr.key new := hfrags new (by simp)
  obtain ⟨z, hz, hzstop⟩ := h.last.mp hlast
  rw [flatten_flatMap_chain, hp]
  rw [hp] at hz hsorted
  constructor
  · intro htouch
    have hchain : (before ++ new :: after).IsChain Frag.Touches := by
      refine List.isChain_append.mpr ⟨hbefore, hafter, fun f hf g hg => ?_⟩
      obtain rfl := Option.some.inj hg
      exact htouch f hf
    obtain ⟨f, hf, b, -, hmax, ⟨g, hg, hgb⟩, htext⟩ := exists_slice hfrags hchain (by simp)
    obtain ⟨f', hf', hstart⟩ := hhead
    have hlo : f.lo = 0 := by
      have heq : f = f' := by
        cases before with
        | nil => exact (Option.some.inj hf).symm.trans (Option.some.inj hf')
        | cons x before => exact (Option.some.inj hf).symm.trans (Option.some.inj hf')
      rw [heq, Frag.lo, hstart]
      rfl
    have hb : b = (σ.data r.iphdr.key).length := by
      have hge := hmax z hz
      have hle := (hfrags g hg).le
      simp only [Frag.hi] at hge hgb
      omega
    rw [htext, hlo, hb, slice_all]
  · rintro ⟨f, hf, hgap⟩
    obtain ⟨front, rfl⟩ := List.getLast?_eq_some_iff.mp hf
    have hbefore' : ∀ g ∈ front ++ [f], σ.Holds r.iphdr.key g := fun g hg => hfrags g (List.mem_append_left _ hg)
    have hafter' : ∀ g ∈ new :: after, σ.Holds r.iphdr.key g := fun g hg => hfrags g (List.mem_append_right _ hg)
    obtain ⟨x, hx, u, htiles, -, ⟨y, hy, hyu⟩, htext⟩ := exists_slice hbefore' hbefore (by simp)
    obtain ⟨x', hx', v, htiles', -, ⟨w, hw, hwv⟩, htext'⟩ := exists_slice hafter' hafter (by simp)
    obtain rfl := Option.some.inj hx'
    -- the fragments before the new one end before it begins
    obtain ⟨hsort, -, hcross⟩ := List.pairwise_append.mp hsorted
    have hu : u < new.lo := by
      have hflt := hcross f (by simp) new List.mem_cons_self
      have hfle := (hbefore' f (by simp)).le_of_lt hnew hflt
      have hgap' : f.stop.toNat ≠ new.start.toNat := fun heq => hgap (UInt16.toNat_inj.mp heq)
      rcases List.mem_append.mp hy with hy' | hy'
      · have hyf := (List.pairwise_append.mp hsort).2.2 y hy' f List.mem_cons_self
        have hyle := (hbefore' y hy).le_of_lt (hbefore' f (by simp)) hyf
        have hflt' := (hbefore' f (by simp)).lt
        simp only [Frag.hi, Frag.lo] at *
        omega
      · rw [List.mem_singleton.mp hy'] at hyu
        simp only [Frag.hi, Frag.lo] at *
        omega
    have hule : u ≤ (σ.data r.iphdr.key).length := hyu ▸ (hbefore' y hy).le
    have hvle : v ≤ (σ.data r.iphdr.key).length := hwv ▸ (hafter' w hw).le
    have hvlo : new.lo ≤ v := htiles'.le fun g hg => Nat.le_of_lt (hafter' g hg).lt
    rw [List.flatMap_append, List.length_append, htext, htext', length_slice hule, length_slice hvle]
    omega

/-! ## Complete datagrams -/

/-- The fragments cover the first `n` bytes. -/
def Covers (q : List Frag) (n : ℕ) : Prop := ∀ i < n, ∃ f ∈ q, f.lo ≤ i ∧ i < f.hi

/-- A queue that covers its datagram passes the validation. -/
theorem Sender.Held.valid (h : σ.Held r) (hp : r.p = before ++ new :: after) {valid : Bool}
    (hsorted : r.p.Pairwise fun f g => f.start < g.start)
    (hchain : chainFrag new none true (before ++ after) = some (before, after, valid))
    (hcovers : Covers r.p (σ.data r.iphdr.key).length) : validDatagram r.lastfrag valid new before after = true := by
  have hnew : σ.Holds r.iphdr.key new := h.frags new (by rw [hp]; simp)
  have hpos : 0 < (σ.data r.iphdr.key).length := Nat.lt_of_lt_of_le (Nat.zero_lt_of_lt hnew.lt) hnew.le
  have htiles : Tiles Frag.lo Frag.hi r.p 0 (σ.data r.iphdr.key).length := by
    refine tiles_of_covers ?_ (fun f hf => (h.frags f hf).lt) (fun f _ => Nat.zero_le _) (fun f hf => (h.frags f hf).le)
      (Nat.zero_le _) fun i _ hi => hcovers i hi
    exact hsorted.imp_of_mem fun hf hg hlt => (h.frags _ hf).le_of_lt (h.frags _ hg) hlt
  have htouches : r.p.IsChain Frag.Touches := htiles.isChain.imp fun f g heq => UInt16.toNat_inj.mp heq
  rw [validDatagram_iff hchain]
  rw [hp] at htouches htiles
  obtain ⟨hbefore, hafter, hlink⟩ := List.isChain_append.mp htouches
  refine ⟨h.last.mpr ?_, ?_, hbefore, hafter, fun _ f hf => hlink f hf new rfl⟩
  · obtain ⟨f, hf, hlo, hhi⟩ := hcovers ((σ.data r.iphdr.key).length - 1) (by omega)
    have hle : f.hi ≤ (σ.data r.iphdr.key).length := (h.frags f hf).le
    exact ⟨f, hf, show f.hi = _ by omega⟩
  · cases before with
    | nil => exact ⟨new, rfl, UInt16.toNat_inj.mp htiles.1⟩
    | cons f before => exact ⟨f, rfl, UInt16.toNat_inj.mp htiles.1⟩

/-! ## Runs -/

/-- Every element holds pieces of one datagram, and some piece is missing. -/
def Sender.Honest (σ : Sender) (s : Reass) : Prop :=
  ∀ r ∈ s.reassdatagrams, σ.Held r ∧ ¬Covers r.p (σ.data r.iphdr.key).length

/-- The fragment goes behind a hole in the queue of its datagram. -/
def Reass.BehindHole (s : Reass) (p : Packet) : Prop :=
  ∃ r ∈ s.reassdatagrams, r.iphdr.matches p.hdr = true ∧ p.frag.BehindHole r.p

instance decidableBehindHole : Decidable (s.BehindHole p) :=
  inferInstanceAs (Decidable (∃ r ∈ s.reassdatagrams, r.iphdr.matches p.hdr = true ∧ (_ ∧ _ ∧ _)))

/-- The datagram is delivered between `s` and `s'`. -/
def Delivered (s s' : Reass) (hdr : IpHdr) (chain : PbufData) : Prop :=
  ReassCall.deliver hdr chain ∈ s'.calls.drop s.calls.length

variable {hdr : IpHdr} {chain : PbufData} {front behind : List ReassData} {ipr : ReassData} {fraghdr : IpHdr}

/-- Growing older changes no piece. -/
theorem Sender.Held.age (h : σ.Held r) : σ.Held r.age := ⟨h.frags, h.last, h.total, h.first, h.hdr⟩

/-- The timer drops elements and ages the others. -/
theorem Sender.Honest.tmr (h : σ.Honest s) : σ.Honest s.ipReassTmr := by
  intro r hr
  have hkept : ∀ (l : List ReassData) (s : Reass), ∀ r ∈ (ipReassTmrLoop l s).1, ∃ r₀ ∈ l, r = r₀.age := by
    intro l
    induction l with
    | nil => exact fun s r hr => absurd hr List.not_mem_nil
    | cons x l ih =>
        intro s r hr
        rw [ipReassTmrLoop] at hr
        split at hr
        · rcases List.mem_cons.mp hr with rfl | hr
          · exact ⟨x, List.mem_cons_self, rfl⟩
          · obtain ⟨r₀, hr₀, rfl⟩ := ih s r hr
            exact ⟨r₀, List.mem_cons_of_mem x hr₀, rfl⟩
        · obtain ⟨r₀, hr₀, rfl⟩ := ih _ r hr
          exact ⟨r₀, List.mem_cons_of_mem x hr₀, rfl⟩
  obtain ⟨r₀, hr₀, rfl⟩ := hkept s.reassdatagrams s r hr
  exact ⟨(h r₀ hr₀).1.age, (h r₀ hr₀).2⟩

/-- What is delivered after datagrams were given up. -/
theorem GaveUp.delivered (h : GaveUp fraghdr s t) {call : ReassCall} (hcalls : s'.calls = t.calls ++ [call]) :
    Delivered s s' hdr chain ↔ call = .deliver hdr chain := by
  obtain ⟨cs, hcs, hno⟩ := h.calls
  rw [Delivered, hcalls, hcs, List.append_assoc, List.drop_left, List.mem_append, List.mem_singleton]
  constructor
  · rintro (hmem | heq)
    · exact absurd hmem (hno hdr chain)
    · exact heq.symm
  · exact fun heq => .inr heq.symm

/-- Giving up datagrams delivers none. -/
theorem GaveUp.not_delivered (h : GaveUp fraghdr s t) (hcalls : s'.calls = t.calls) : ¬Delivered s s' hdr chain := by
  obtain ⟨cs, hcs, hno⟩ := h.calls
  rw [Delivered, hcalls, hcs, List.drop_left]
  exact hno hdr chain

/-- In the queue of its datagram, the fragment is behind a hole. -/
theorem behindHole_iff (h : ReassInv s received) (hmatch : ipr.iphdr.matches p.hdr = true)
    (horigin : ipr ∈ s.reassdatagrams ∨
      ipr = newDatagram p.hdr ∧ ∀ r ∈ s.reassdatagrams, r.iphdr.matches p.hdr = false) :
    s.BehindHole p ↔ p.frag.BehindHole ipr.p := by
  rcases horigin with hmem | ⟨rfl, hothers⟩
  · constructor
    · rintro ⟨r, hr, hr', hhole⟩
      obtain ⟨front, behind, hsplit⟩ := List.append_of_mem hmem
      have hothers := h.others hsplit hmatch
      rw [hsplit] at hr
      have hr'' : r = ipr := by
        by_contra hne
        refine Bool.false_ne_true ((hothers r ?_).symm.trans hr')
        rcases List.mem_append.mp hr with hr | hr
        · exact List.mem_append_left behind hr
        · exact List.mem_append_right front ((List.mem_cons.mp hr).resolve_left hne)
      exact hr'' ▸ hhole
    · exact fun hhole => ⟨ipr, hmem, hmatch, hhole⟩
  · refine iff_of_false ?_ fun hhole => ?_
    · rintro ⟨r, hr, hr', -⟩
      exact Bool.false_ne_true ((hothers r hr).symm.trans hr')
    · obtain ⟨f, hf, -⟩ := hhole.1
      exact absurd hf List.not_mem_nil

/-- A fragment that collides with one of the queue is a copy of it: the element stays as it is. -/
theorem Sender.Held.collided (h : σ.Held ipr) (hp : σ.Sent p a b) (hmatch : ipr.iphdr.matches p.hdr = true)
    (hchain : chainFrag p.frag none true ipr.p = none) : σ.Held (ipr.note p.hdr) ∧ ipr.p ≠ [] := by
  have hkey := (matches_iff _ _).mp hmatch
  obtain ⟨f, hf, hcollides⟩ := chainFrag_none (fun prev hprev => absurd hprev (Option.not_mem_none prev)) hchain
  obtain ⟨hstart, hstop⟩ := (h.frags f hf).eq_of_collides (hkey ▸ hp.holds) hcollides
  have harrive := h.arrive hkey hp (List.Subset.refl ipr.p) (fun f hf => .inl hf)
    ⟨f, hf, hstart.trans hp.frag.1, hstop.trans hp.frag.2⟩
  rw [← p_note ipr p.hdr] at harrive
  exact ⟨harrive, List.ne_nil_of_mem hf⟩

/-- The element with the fragment in its queue. -/
theorem Sender.Held.inserted {valid : Bool} (h : σ.Held ipr) (hp : σ.Sent p a b)
    (hmatch : ipr.iphdr.matches p.hdr = true)
    (hchain : chainFrag p.frag none true ipr.p = some (before, after, valid)) :
    σ.Held { ipr.note p.hdr with p := before ++ p.frag :: after } := by
  obtain ⟨hsplit, -, -, -⟩ := chainFrag_spec hchain
  refine h.arrive ((matches_iff _ _).mp hmatch) hp ?_ ?_ ⟨p.frag, by simp, hp.frag⟩
  · rw [hsplit]
    exact (List.Sublist.append_left (List.sublist_cons_self p.frag after) before).subset
  · intro f hf
    rw [hsplit]
    simp only [List.mem_append, List.mem_cons] at hf ⊢
    tauto

/-- A queue that passes the validation: the header is that of the datagram, and so are the data, unless the fragment is
behind a hole. -/
theorem Sender.Held.delivered {valid : Bool} (h : σ.Held ipr) (hp : σ.Sent p a b)
    (hmatch : ipr.iphdr.matches p.hdr = true) (hsorted : ipr.p.Pairwise fun f g => f.start < g.start)
    (hchain : chainFrag p.frag none true ipr.p = some (before, after, valid))
    (hvalid : validDatagram (ipr.note p.hdr).lastfrag valid p.frag before after = true) :
    (ipr.note p.hdr).header = σ.hdr p.hdr.key ∧
      (((before ++ p.frag :: after).flatMap Frag.chain).flatten = σ.data p.hdr.key ↔ ¬p.frag.BehindHole ipr.p) := by
  obtain ⟨hsplit, -, -, -⟩ := chainFrag_spec hchain
  obtain ⟨hlast, ⟨f, hf, hstart⟩, hbefore, hafter, hend⟩ := (validDatagram_iff hchain).mp hvalid
  have hkey := (matches_iff _ _).mp hmatch
  have hkey' : (ipr.note p.hdr).iphdr.key = p.hdr.key := (key_note hmatch).trans hkey
  have hheld := h.inserted hp hmatch hchain
  have hsorted' := sorted_insert hsorted hchain
  have hmem : f ∈ before ++ p.frag :: after := by
    have hmem := List.mem_of_mem_head? hf
    simp only [List.mem_append, List.mem_cons] at hmem ⊢
    tauto
  refine ⟨?_, ?_⟩
  · rw [← hkey']
    exact hheld.header_eq ⟨f, hmem, hstart⟩ hlast
  · obtain ⟨hwhole, hless⟩ := hheld.content rfl hsorted' hlast ⟨f, hf, hstart⟩ hbefore hafter
    have hfrags : ∀ g ∈ before ++ after, σ.Holds p.hdr.key g := by
      rw [← hsplit, ← hkey]
      exact h.frags
    rw [hsplit, ← touches_iff hp.holds hfrags hsorted' hend, ← hkey']
    constructor
    · intro htext g hg
      by_contra hgap
      have hlt := hless ⟨g, hg, hgap⟩
      exact absurd (congrArg List.length htext) (Nat.ne_of_lt hlt)
    · exact hwhole

/-- **A fragment of an honest sender.** The queues hold pieces again, and a datagram that is delivered is the one that
was sent, unless the fragment is behind a hole. -/
theorem Arrives.honest (h : Arrives s p received s') (hinv : ReassInv s received) (hs : σ.Honest s)
    (hp : σ.Sent p a b) :
    σ.Honest s' ∧ ∀ hdr chain, Delivered s s' hdr chain →
      hdr = σ.hdr p.hdr.key ∧ (chain.flatten = σ.data p.hdr.key ↔ ¬s.BehindHole p) := by
  cases h with
  | dropped inv gaveUp =>
      refine ⟨fun r hr => hs r (gaveUp.sub.subset hr), fun hdr chain hd => ?_⟩
      cases (gaveUp.delivered rfl).mp hd
  | @queued t front behind ipr books others room hmatch gaveUp sub origin =>
      have hheld : σ.Held ipr := by
        rcases origin with hmem | ⟨rfl, -⟩
        · exact (hs ipr hmem).1
        · exact σ.held_newDatagram hp
      have hsorted := books.sorted ipr (List.mem_append_right front List.mem_cons_self)
      -- the others stay, and the element of the datagram is replaced
      have hreplace : ∀ r', σ.Held r' → ¬Covers r'.p (σ.data r'.iphdr.key).length →
          ∀ r ∈ front ++ r' :: behind, σ.Held r ∧ ¬Covers r.p (σ.data r.iphdr.key).length := by
        intro r' hr' hmissing r hr
        rcases List.mem_append.mp hr with hr | hr
        · exact hs r (sub (List.mem_append_left behind hr))
        · rcases List.mem_cons.mp hr with rfl | hr
          · exact ⟨hr', hmissing⟩
          · exact hs r (sub (List.mem_append_right front hr))
      cases hchain : chainFrag p.frag none true ipr.p with
      | none =>
          obtain ⟨hnote, hne⟩ := hheld.collided hp hmatch hchain
          have hmissing : ¬Covers (ipr.note p.hdr).p (σ.data (ipr.note p.hdr).iphdr.key).length := by
            rw [p_note, key_note hmatch]
            rcases origin with hmem | ⟨rfl, -⟩
            · exact (hs ipr hmem).2
            · exact absurd rfl hne
          rw [queueFragment_free hchain]
          refine ⟨hreplace _ hnote hmissing, fun hdr chain hd => ?_⟩
          cases (gaveUp.delivered rfl).mp hd
      | some r =>
          obtain ⟨before, after, valid⟩ := r
          have hheld' := hheld.inserted hp hmatch hchain
          cases hvalid : validDatagram (ipr.note p.hdr).lastfrag valid p.frag before after with
          | false =>
              obtain ⟨hsplit, -, -, -⟩ := chainFrag_spec hchain
              rw [queueFragment_keep hchain hvalid]
              refine ⟨hreplace _ hheld' fun hcovers => ?_, fun hdr chain hd => absurd hd (gaveUp.not_delivered rfl)⟩
              have htrue := hheld'.valid rfl (sorted_insert hsorted hchain) (hsplit ▸ hchain) hcovers
              exact Bool.false_ne_true (hvalid.symm.trans htrue)
          | true =>
              rw [queueFragment_deliver hchain hvalid]
              refine ⟨fun r hr => hs r (sub hr), fun hdr chain hd => ?_⟩
              obtain ⟨rfl, rfl⟩ := ReassCall.deliver.inj ((gaveUp.delivered rfl).mp hd)
              rw [behindHole_iff hinv hmatch origin]
              exact hheld.delivered hp hmatch hsorted hchain hvalid

/-- One event: a piece comes, or the timer ticks. -/
theorem Sender.honest_step {e : ReassEvent} (hinv : ReassInv s received) (hs : σ.Honest s) (he : σ.Sends e)
    (hstep : s.step e = some s') : σ.Honest s' := by
  cases e with
  | fragment p =>
      obtain ⟨a, b, hp⟩ := he
      exact (((ipReass_spec hinv p).2 s' hstep).honest hinv hs hp).1
  | tmr =>
      obtain rfl := Option.some.inj hstep
      exact hs.tmr

/-- By induction over the run. -/
theorem Sender.honest_run {es : List ReassEvent} (hinv : ReassInv s received) (hs : σ.Honest s)
    (hes : ∀ e ∈ es, σ.Sends e) (hrun : run Reass.step s es = some s') :
    σ.Honest s' ∧ ∃ received', ReassInv s' received' := by
  induction es generalizing s received with
  | nil =>
      obtain rfl := Option.some.inj hrun
      exact ⟨hs, received, hinv⟩
  | cons e es ih =>
      obtain ⟨t, ht, hrest⟩ := run_cons_eq_some.mp hrun
      exact ih (hinv.step.2 t ht) (σ.honest_step hinv hs (hes e List.mem_cons_self) ht)
        (fun e' he' => hes e' (List.mem_cons_of_mem e he')) hrest

/-- **What reassembly delivers.** Pieces of datagrams come in any order, with the timer in between. When `ip_reass` delivers
a datagram, it has the header that was sent, and its data are the ones that were sent exactly when the last
fragment does not go behind a hole. -/
theorem reass_right (σ : Sender) (es : List ReassEvent) (s s' : Reass) (p : Packet) (hdr : IpHdr) (chain : PbufData)
    (hes : ∀ e ∈ es, σ.Sends e) (hrun : run Reass.step Reass.init es = some s) (hp : σ.Sends (.fragment p))
    (hs' : s.ipReass p = some s') (hdelivered : Delivered s s' hdr chain) :
    hdr = σ.hdr p.hdr.key ∧ (chain.flatten = σ.data p.hdr.key ↔ ¬s.BehindHole p) := by
  have hempty : σ.Honest Reass.init := fun r hr => absurd hr List.not_mem_nil
  obtain ⟨hs, received, hinv⟩ := σ.honest_run reassInv_init hempty hes hrun
  obtain ⟨a, b, hp⟩ := hp
  exact (((ipReass_spec hinv p).2 s' hs').honest hinv hs hp).2 hdr chain hdelivered

/-! Of a datagram in four pieces, the second one does not come. -/

def octets : List UInt8 := (List.range 28).map UInt8.ofNat

/-- Every datagram has these 28 bytes, and they travel in four pieces. -/
def fourPieces : Sender where
  hdr k := IpHdr.withChksum ⟨0x45, 0, 48, k.2.2, 0, 64, 17, 0, k.1, k.2.1⟩
  data _ := octets
  piece _ a b := a % 8 = 0 ∧ a < 28 ∧ b = min (a + 8) 28
  key_hdr _ := rfl
  len_hdr _ := rfl
  offset_hdr _ := rfl
  chksum_hdr _ := rfl
  piece_lt _ a b h := by
    show a < b ∧ b ≤ 28
    omega
  piece_apart _ a b a' b' h h' := by omega

def pieceHdr (offset len : UInt16) : IpHdr := ⟨0x45, 0, 20 + len, 7, offset, 64, 17, 0, 1, 2⟩

/-- Every one of these headers is of a fragment. -/
theorem pieceHdr_fragmented {offset len : UInt16} (h : offset &&& ipMf ≠ 0) :
    (pieceHdr offset len).fragOffset ≠ 0 ∨ (pieceHdr offset len).moreFragments = true :=
  .inr (bne_iff_ne.mpr h)

/-- Two of the pieces are followed by others. -/
theorem mf_piece : (0x2000 : UInt16) &&& ipMf ≠ 0 ∧ (0x2002 : UInt16) &&& ipMf ≠ 0 := by decide

/-- The last piece is not the first. -/
theorem pieceHdr_tail : (pieceHdr 3 4).fragOffset ≠ 0 := by decide

def piece0 : Packet :=
  ⟨pieceHdr 0x2000 8, [slice octets 0 8], List.cons_ne_nil _ _, Nat.le_of_ble_eq_true rfl, pieceHdr_fragmented mf_piece.1⟩

def piece2 : Packet :=
  ⟨pieceHdr 0x2002 8, [slice octets 16 24], List.cons_ne_nil _ _, Nat.le_of_ble_eq_true rfl, pieceHdr_fragmented mf_piece.2⟩

def piece3 : Packet :=
  ⟨pieceHdr 3 4, [slice octets 24 28], List.cons_ne_nil _ _, Nat.le_of_ble_eq_true rfl, .inl pieceHdr_tail⟩

/-- The pieces that the example sends are pieces of the datagram. -/
theorem sends_pieces : fourPieces.Sends (.fragment piece0) ∧ fourPieces.Sends (.fragment piece2) ∧
    fourPieces.Sends (.fragment piece3) := by
  refine ⟨⟨0, 8, ?_⟩, ⟨16, 24, ?_⟩, ⟨24, 28, ?_⟩⟩
  · exact ⟨⟨rfl, (by decide : 0 < 28), rfl⟩, rfl, rfl, rfl, by decide, fun _ => rfl⟩
  · exact ⟨⟨rfl, (by decide : 16 < 28), rfl⟩, rfl, rfl, rfl, by decide, fun h => absurd h (by decide)⟩
  · exact ⟨⟨rfl, (by decide : 24 < 28), rfl⟩, rfl, rfl, rfl, by decide, fun h => absurd h (by decide)⟩

/-- The first piece and the last one have come. -/
def twoPieces : Reass := (run Reass.step Reass.init [.fragment piece0, .fragment piece3]).getD Reass.init

/-- The theorem at a run that inserts a piece behind a hole. -/
theorem reass_right_hole : ∃ s' chain, twoPieces.ipReass piece2 = some s' ∧
    ReassCall.deliver (fourPieces.hdr (1, 2, 7)) chain ∈ s'.calls ∧ chain.flatten ≠ octets := by
  obtain ⟨h0, h2, h3⟩ := sends_pieces
  have hrun : run Reass.step Reass.init [.fragment piece0, .fragment piece3] = some twoPieces := by decide +kernel
  have hlast : twoPieces.ipReass piece2 = some ((twoPieces.ipReass piece2).getD Reass.init) := by decide +kernel
  have hdelivered : Delivered twoPieces ((twoPieces.ipReass piece2).getD Reass.init) (fourPieces.hdr (1, 2, 7))
      [slice octets 0 8, slice octets 16 24, slice octets 24 28] := by
    unfold Delivered
    decide +kernel
  have hright := reass_right fourPieces _ twoPieces _ piece2 _ _ (by simp [h0, h3]) hrun h2 hlast hdelivered
  exact ⟨_, _, hlast, List.mem_of_mem_drop hdelivered, hright.2.not.mpr (not_not.mpr (by decide +kernel))⟩

end BareMetal.Ip
