import BareMetal.Eth.RxRing
import BareMetal.Eth.WakeUp
import Mathlib.Data.List.Infix

/-! # Delivery of good frames

The specification of the receive path is a log of blocks. For each frame, in the order of arrival, the
handler takes the descriptor, allocates a chain, copies the frame into it, gives the descriptor back and
passes the chain on; or the allocation fails and the descriptor is given back at once. The log of the
machine is always such a sequence of blocks, followed by a part of the next one while the handler is
running (`run_delivers`), however the DMA and the handler interleave. -/

namespace BareMetal.Eth

/-- The DMA completes a descriptor with a good frame: `OWN` and `ES` clear, `FS` and `LS` set, and a
length between 64 and the buffer size, which is the number of bytes received. -/
def GoodCompletion (status : U32) (bytes : List UInt8) : Prop :=
  GoodFrame status ∧ (ethGetDMARxDescFrameLength status).toNat = bytes.length ∧
    64 ≤ bytes.length ∧ bytes.length ≤ ethRxBufSize

instance (status : U32) (bytes : List UInt8) : Decidable (GoodCompletion status bytes) :=
  inferInstanceAs (Decidable (_ ∧ _))

/-- All completions are good. -/
def Event.Good : Event → Prop
  | .complete status bytes => GoodCompletion status bytes
  | _ => True

/-- The frames that a schedule completes, in order. -/
def completions : List Event → List (List UInt8)
  | [] => []
  | .complete _ bytes :: es => bytes :: completions es
  | _ :: es => completions es

/-- A frame without its CRC. -/
def withoutCrc (bytes : List UInt8) : List UInt8 := bytes.take (bytes.length - 4)

/-- The EtherType of a frame. -/
def etherType (bytes : List UInt8) : ℕ := 256 * (bytes.getD 12 0).toNat + (bytes.getD 13 0).toNat

/-- What happens to the frame in descriptor `d`. The outcome is `none` when `pbuf_alloc` fails, and
otherwise the pieces in which the frame is copied. -/
def block (d : ℕ) (bytes : List UInt8) : Option (List (List UInt8)) → List Action
  | none => [.take d, .allocFailed, .release d]
  | some pieces =>
      .take d :: pieces.map .copy ++ [.release d,
        if etherType bytes = ethtypeIp ∨ etherType bytes = ethtypeArp then .input (withoutCrc bytes)
        else .free (withoutCrc bytes)]

/-- The pieces copied make up the frame without its CRC. -/
def ValidOutcome (x : List UInt8 × Option (List (List UInt8))) : Prop :=
  ∀ pieces, x.2 = some pieces → pieces.flatten = withoutCrc x.1

/-- The blocks of the frames `done`; frame `k` is in descriptor `k % n`. -/
def blocks (n : ℕ) (done : List (List UInt8 × Option (List (List UInt8)))) : List Action :=
  (done.mapIdx fun k x => block (k % n) x.1 x.2).flatten

/-- The log is made of the blocks of the first frames, and inside the handler a part of the block of
the next frame. -/
def Delivered (c : Config) (frames : List (List UInt8)) (s : State) : Prop :=
  ∃ done rest, s.log = blocks c.rxBuffCount done ++ rest ∧ (∀ x ∈ done, ValidOutcome x) ∧
    (rest = [] ∧ done.map Prod.fst <+: frames ∨
      s.pc ≠ .idle ∧ ∃ x, ValidOutcome x ∧ (done ++ [x]).map Prod.fst <+: frames ∧
        rest <+: block (done.length % c.rxBuffCount) x.1 x.2)

/-! ## Chains -/

section Chain

variable {bufsize free remLen length a i : ℕ} {old : ℕ → ℕ → UInt8} {p done todo : List Pbuf} {q : Pbuf}
  {m : ByteMem} {bytes : List UInt8}

/-- The room in a chain. -/
def chainLen (p : List Pbuf) : ℕ := (p.map Pbuf.len).sum

/-- The first pbuf and the others. -/
theorem chainLen_cons (q : Pbuf) (p : List Pbuf) : chainLen (q :: p) = q.len + chainLen p := by
  rw [chainLen, List.map_cons, List.sum_cons]
  rfl

/-- The first pbuf of a chain has room for an Ethernet header. -/
def HeaderFits (p : List Pbuf) : Prop := ∃ q r, p = q :: r ∧ 14 ≤ q.len

/-- The chain has room for what was asked for. -/
theorem chainLen_pbufAllocTail (h : pbufAllocTail bufsize free old remLen = some p) :
    chainLen p = remLen := by
  induction free generalizing old remLen p with
  | zero =>
      rw [pbufAllocTail, Option.ite_none_right_eq_some] at h
      obtain ⟨rfl, h⟩ := h
      obtain rfl := Option.some.inj h
      rfl
  | succ free ih =>
      rw [pbufAllocTail] at h
      split at h
      · next h0 =>
          obtain rfl := Option.some.inj h
          exact h0.symm
      · obtain ⟨r, hr, rfl⟩ := Option.map_eq_some_iff.mp h
        rw [chainLen_cons, ih hr]
        exact Nat.add_sub_cancel' (min_le_left remLen bufsize)

/-- A chain from `pbuf_alloc` has exactly the room asked for, with the Ethernet header in front. -/
theorem pbufAlloc_eq_some (hbuf : 14 ≤ bufsize) (hlen : 14 ≤ length)
    (h : pbufAlloc bufsize free old length = some p) : chainLen p = length ∧ HeaderFits p := by
  cases free with
  | zero => cases h
  | succ free =>
      obtain ⟨r, hr, rfl⟩ := Option.map_eq_some_iff.mp h
      refine ⟨?_, _, r, rfl, le_min hlen hbuf⟩
      rw [chainLen_cons, chainLen_pbufAllocTail hr]
      exact Nat.add_sub_cancel' (min_le_left length bufsize)

/-- The bytes of a pbuf after the copy. -/
theorem bytes_copyInto (m : ByteMem) (a : ℕ) (q : Pbuf) : (copyInto m a q).bytes = readBytes m a q.len := by
  apply List.map_congr_left
  intro k hk
  exact if_pos (List.mem_range.mp hk)

/-- A pbuf has as many bytes as its length says. -/
theorem length_bytes (q : Pbuf) : q.bytes.length = q.len := by
  rw [Pbuf.bytes, List.length_map, List.length_range]

/-- The bytes of a chain in two parts. -/
theorem chainBytes_append (p p' : List Pbuf) : chainBytes (p ++ p') = chainBytes p ++ chainBytes p' :=
  List.flatMap_append

/-- The EtherType that `ethernetif_input` reads is the one of the frame. -/
theorem ethType_eq (hfits : HeaderFits p) (hp : chainBytes p = withoutCrc bytes) :
    ethType p = etherType bytes := by
  obtain ⟨q, r, rfl, hq⟩ := hfits
  have hbyte : ∀ k < 14, q.payload k = bytes.getD k 0 := by
    intro k hk
    have hget : (chainBytes (q :: r))[k]? = some (q.payload k) := by
      rw [chainBytes, List.flatMap_cons, List.getElem?_append_left (by rw [length_bytes]; omega),
        Pbuf.bytes, List.getElem?_map, List.getElem?_range (by omega)]
      rfl
    rw [hp, withoutCrc, List.getElem?_take] at hget
    split at hget
    · rw [List.getD_eq_getElem?_getD, hget]
      rfl
    · cases hget
  rw [ethType, etherType, hbyte 12 (by omega), hbyte 13 (by omega)]

end Chain

/-! ## The invariant -/

/-- The copy loop has filled `done` with the first `i` bytes of the frame. -/
structure Copying (bytes : List UInt8) (done todo : List Pbuf) (i : ℕ) : Prop where
  copied : chainBytes done = bytes.take i
  room : i + chainLen todo = bytes.length - 4
  header : HeaderFits (done ++ todo)

/-- The chain holds the frame without its CRC. -/
structure Received (bytes : List UInt8) (p : List Pbuf) : Prop where
  bytes_eq : chainBytes p = withoutCrc bytes
  header : HeaderFits p

/-- What is logged when a chain is filled. -/
def copies (p : List Pbuf) : List Action := (p.map Pbuf.bytes).map .copy

/-- The log of the frame in descriptor `d` up to where the handler stands. -/
def Progress (d : ℕ) (bytes : List UInt8) : Pc → List Action → Prop
  | .alloc _, rest => rest = [.take d]
  | .copy _ done todo i, rest => rest = .take d :: copies done ∧ Copying bytes done todo i
  | .release _ none, rest => rest = [.take d, .allocFailed]
  | .release _ (some p), rest => rest = .take d :: copies p ∧ Received bytes p
  | .rbusTest none, rest | .rbusClear none, rest | .input none, rest =>
      rest = [.take d, .allocFailed, .release d]
  | .rbusTest (some p), rest | .rbusClear (some p), rest | .input (some p), rest =>
      rest = .take d :: copies p ++ [.release d] ∧ Received bytes p
  | _, _ => False

/-- Between two frames. -/
def Pc.between : Pc → Bool
  | .idle | .test | .rxPacket | .clearR | .clearNis => true
  | _ => false

/-- The log is made of the blocks of the frames handled, followed by the log of the frame in hand. -/
def Logged (c : Config) (arrived : List (U32 × List UInt8)) (taken : ℕ) (pc : Pc) (log : List Action) :
    Prop :=
  ∃ done rest, log = blocks c.rxBuffCount done ++ rest ∧ (∀ x ∈ done, ValidOutcome x) ∧
    done.map Prod.fst <+: arrived.map Prod.snd ∧
    (pc.between = true ∧ rest = [] ∧ taken = done.length ∨
      taken = done.length + 1 ∧ ∃ x, arrived[done.length]? = some x ∧
        Progress (done.length % c.rxBuffCount) x.2 pc rest)

/-- **The invariant of delivery.** -/
structure Delivering (c : Config) (s : State) : Prop where
  ring : RxRing c s
  good : ∀ x ∈ s.arrived, GoodCompletion x.1 x.2
  logged : Logged c s.arrived s.taken s.pc s.log

section Logged

variable {c : Config} {s s' : State} {e : Event} {es : List Event} {arrived : List (U32 × List UInt8)}
  {taken : ℕ} {pc pc' : Pc} {log : List Action} {f : FrameType} {x y : U32 × List UInt8}

/-- The log of one frame more. -/
theorem blocks_concat (n : ℕ) (done : List (List UInt8 × Option (List (List UInt8))))
    (x : List UInt8 × Option (List (List UInt8))) :
    blocks n (done ++ [x]) = blocks n done ++ block (done.length % n) x.1 x.2 := by
  rw [blocks, List.mapIdx_concat, List.flatten_append, List.flatten_singleton]
  rfl

/-- A list that agrees with a longer one can be continued by its next element. -/
theorem prefix_concat_of_getElem? {α : Type*} {l L : List α} {x : α} (h : l <+: L)
    (hx : L[l.length]? = some x) : l ++ [x] <+: L := by
  obtain ⟨hlt, rfl⟩ := List.getElem?_eq_some_iff.mp hx
  exact List.concat_get_prefix h hlt

/-- Between two frames nothing is logged. -/
theorem Logged.between (h : Logged c arrived taken pc log) (hpc : pc.between = true)
    (hpc' : pc'.between = true) : Logged c arrived taken pc' log := by
  obtain ⟨done, rest, hlog, hvalid, hpre, ⟨-, hrest, htaken⟩ | ⟨-, x, -, hprog⟩⟩ := h
  · exact ⟨done, rest, hlog, hvalid, hpre, Or.inl ⟨hpc', hrest, htaken⟩⟩
  · cases pc <;> first | exact hprog.elim | cases hpc

/-- The log grows with the frame in hand. -/
theorem Logged.progress (pc' : Pc) (act : List Action) (h : Logged c arrived taken pc log) (hx : arrived[taken - 1]? = some x)
    (hpc : pc.between = false)
    (hprog : ∀ rest, Progress ((taken - 1) % c.rxBuffCount) x.2 pc rest →
      Progress ((taken - 1) % c.rxBuffCount) x.2 pc' (rest ++ act)) :
    Logged c arrived taken pc' (log ++ act) := by
  obtain ⟨done, rest, rfl, hvalid, hpre, ⟨hb, -, -⟩ | ⟨rfl, y, hy, hprog'⟩⟩ := h
  · rw [hpc] at hb
    cases hb
  · rw [Nat.add_sub_cancel] at hx hprog
    obtain rfl := Option.some.inj (hy.symm.trans hx)
    exact ⟨done, rest ++ act, List.append_assoc _ _ _, hvalid, hpre, Or.inr ⟨rfl, y, hy, hprog rest hprog'⟩⟩

/-- Inside a block there is a frame in hand. -/
theorem Logged.exists_current (h : Logged c arrived taken pc log) (hpc : pc.between = false) :
    ∃ x, arrived[taken - 1]? = some x := by
  obtain ⟨done, rest, -, -, -, ⟨hb, -, -⟩ | ⟨rfl, x, hx, -⟩⟩ := h
  · rw [hpc] at hb
    cases hb
  · exact ⟨x, hx⟩

/-- The next frame is taken in hand. -/
theorem Logged.take (h : Logged c arrived taken .rxPacket log) (hx : arrived[taken]? = some x) :
    Logged c arrived (taken + 1) (.alloc f) (log ++ [.take (taken % c.rxBuffCount)]) := by
  obtain ⟨done, rest, rfl, hvalid, hpre, ⟨-, rfl, rfl⟩ | ⟨-, y, -, hprog⟩⟩ := h
  · rw [List.append_nil]
    exact ⟨done, _, rfl, hvalid, hpre, Or.inr ⟨rfl, x, hx, rfl⟩⟩
  · cases hprog

/-- The block of the frame in hand is complete. -/
theorem Logged.finish (act : List Action) (outcome : Option (List (List UInt8)))
    (h : Logged c arrived taken pc log)
    (hx : arrived[taken - 1]? = some x) (hpc : pc.between = false) (hpc' : pc'.between = true)
    (hvalid : ∀ rest, Progress ((taken - 1) % c.rxBuffCount) x.2 pc rest → ValidOutcome (x.2, outcome) ∧
      rest ++ act = block ((taken - 1) % c.rxBuffCount) x.2 outcome) :
    Logged c arrived taken pc' (log ++ act) := by
  obtain ⟨done, rest, rfl, hdone, hpre, ⟨hb, -, -⟩ | ⟨rfl, y, hy, hprog⟩⟩ := h
  · rw [hpc] at hb
    cases hb
  · rw [Nat.add_sub_cancel] at hx hvalid
    obtain rfl := Option.some.inj (hy.symm.trans hx)
    obtain ⟨hout, hblock⟩ := hvalid rest hprog
    refine ⟨done ++ [(y.2, outcome)], [], ?_, ?_, ?_, Or.inl ⟨hpc', rfl, ?_⟩⟩
    · rw [blocks_concat, List.append_nil, ← hblock, List.append_assoc]
    · intro z hz
      rcases List.mem_append.mp hz with hz | hz
      · exact hdone z hz
      · obtain rfl := List.mem_singleton.mp hz
        exact hout
    · rw [List.map_append]
      refine prefix_concat_of_getElem? hpre ?_
      rw [List.length_map, List.getElem?_map, hy]
      rfl
    · rw [List.length_append, List.length_singleton]

/-- What the frame in hand tells about its completion. -/
theorem Delivering.frame_eq (h : Delivering c s) (hf : s.pc.frame? = some f) :
    ∃ x, s.arrived[s.taken - 1]? = some x ∧ 64 ≤ x.2.length ∧
      f.length.toNat % 2 ^ 16 = x.2.length - 4 ∧ f.descriptor = some ((s.taken - 1) % c.rxBuffCount) ∧
      readBytes s.mem f.buffer x.2.length = x.2 := by
  obtain ⟨-, x, hx, rfl⟩ := h.ring.frame f hf
  obtain ⟨⟨-, hes, hfs, hls, -⟩, hlen, hmin, hmax⟩ := h.good x (List.mem_of_getElem? hx)
  have hframe : frameOf c (s.taken - 1) x.1 = ⟨ethGetDMARxDescFrameLength x.1 - 4,
      c.bufferAddr (s.taken - 1), some ((s.taken - 1) % c.rxBuffCount)⟩ := by
    rw [frameOf, hes, hls, hfs]
    rfl
  rw [hframe]
  refine ⟨x, hx, hmin, ?_, rfl, ?_⟩
  · rw [ethRxBufSize] at hmax
    rw [BitVec.toNat_sub, hlen, show (4 : U32).toNat = 4 from rfl]
    omega
  · exact h.ring.buffers (s.taken - 1) x (State.released_of_some hf).le hx

/-- The descriptor of the frame in hand is given back. -/
theorem Logged.release {p : Option (List Pbuf)} (h : Logged c arrived taken (.release f p) log)
    (hx : arrived[taken - 1]? = some x) :
    Logged c arrived taken (.rbusTest p) (log ++ [.release ((taken - 1) % c.rxBuffCount)]) := by
  refine h.progress _ _ hx rfl fun rest hprog => ?_
  cases p with
  | none =>
      obtain rfl : rest = _ := hprog
      rfl
  | some p => exact ⟨by rw [hprog.1], hprog.2⟩

/-- The chain of the frame in hand is passed on, or there is none. -/
theorem Logged.input {p : Option (List Pbuf)} (hlogged : Logged c s.arrived s.taken (.input p) s.log)
    (hx : s.arrived[s.taken - 1]? = some x) :
    Logged c s.arrived s.taken .test (ethernetifInput s p).log := by
  -- the frame was dropped: nothing is logged behind the descriptor that was given back
  cases p with
  | none =>
      have := hlogged.finish [] none hx rfl (rfl : Pc.test.between = true) fun rest hprog => by
        rw [List.append_nil]
        exact ⟨fun _ h => absurd h (Option.some_ne_none _).symm, hprog⟩
      rw [List.append_nil] at this
      exact this
  | some p =>
      -- the frame was copied: one more entry, for the packet that is passed on or freed
      have hfinish : ∀ act, (∀ (hrec : Received x.2 p), block ((s.taken - 1) % c.rxBuffCount) x.2
          (some (p.map Pbuf.bytes)) = .take ((s.taken - 1) % c.rxBuffCount) :: copies p ++
            [.release ((s.taken - 1) % c.rxBuffCount), act]) →
          Logged c s.arrived s.taken .test (s.log ++ [act]) := by
        intro act hblock
        refine hlogged.finish _ (some (p.map Pbuf.bytes)) hx rfl rfl fun rest hprog => ⟨?_, ?_⟩
        · intro pieces hp
          obtain rfl := Option.some.inj hp
          exact hprog.2.bytes_eq
        · rw [hblock hprog.2, hprog.1, List.append_assoc]
          rfl
      rw [ethernetifInput]
      split
      · -- IP or ARP: `netif->input`
        next htype =>
          refine hfinish _ fun hrec => ?_
          rw [ethType_eq hrec.header hrec.bytes_eq] at htype
          rw [block, if_pos htype, hrec.bytes_eq]
          rfl
      · -- any other type: `pbuf_free`
        next htype =>
          refine hfinish _ fun hrec => ?_
          rw [ethType_eq hrec.header hrec.bytes_eq] at htype
          rw [block, if_neg htype, hrec.bytes_eq]
          rfl

/-- `pbuf_alloc` makes room for the frame without its CRC. -/
theorem copying_pbufAlloc {free : ℕ} {old : ℕ → ℕ → UInt8} {bytes : List UInt8} {p : List Pbuf}
    (hlen : 64 ≤ bytes.length)
    (hp : pbufAlloc c.pbufPoolBufsize free old (bytes.length - 4) = some p) : Copying bytes [] p 0 := by
  obtain ⟨hroom, hheader⟩ := pbufAlloc_eq_some c.sizeofEthHdr_le (by omega) hp
  exact ⟨rfl, by omega, hheader⟩

/-- One `memcpy` copies the next bytes of the frame. -/
theorem Copying.next {m : ByteMem} {a i : ℕ} {bytes : List UInt8} {done todo : List Pbuf} {q : Pbuf}
    (h : Copying bytes done (q :: todo) i) (hbytes : readBytes m a bytes.length = bytes) :
    Copying bytes (done ++ [copyInto m (a + i) q]) todo (i + q.len) := by
  have hroom := h.room
  rw [chainLen_cons] at hroom
  refine ⟨?_, by omega, ?_⟩
  · have htake : ∀ k ≤ bytes.length, bytes.take k = readBytes m a k := by
      intro k hk
      conv_lhs => rw [← hbytes]
      exact take_readBytes m a hk
    rw [chainBytes_append, h.copied, chainBytes, List.flatMap_singleton, bytes_copyInto,
      htake i (by omega), htake (i + q.len) (by omega), readBytes_add]
  · obtain ⟨q', r, heq, hq'⟩ := h.header
    rw [List.append_assoc, List.singleton_append]
    cases done with
    | nil =>
        obtain ⟨rfl, rfl⟩ := List.cons.inj heq
        exact ⟨_, _, rfl, hq'⟩
    | cons q'' done =>
        obtain ⟨rfl, -⟩ := List.cons.inj heq
        exact ⟨_, _, rfl, hq'⟩

/-- When no pbuf is left to fill, the chain holds the frame without its CRC. -/
theorem Copying.received {bytes : List UInt8} {done : List Pbuf} {i : ℕ} (h : Copying bytes done [] i) :
    Received bytes done := by
  have hroom := h.room
  refine ⟨?_, ?_⟩
  · rw [h.copied, withoutCrc, ← hroom]
    rfl
  · have := h.header
    rwa [List.append_nil] at this

/-! ## Preservation -/

/-- Every step of the handler keeps the invariant of delivery. -/
theorem Delivering.handlerStep {free : ℕ} {old : ℕ → ℕ → UInt8} (h : Delivering c s)
    (hs : handlerStep c free old s = some s') : Delivering c s' := by
  suffices hgl : (∀ x ∈ s'.arrived, GoodCompletion x.1 x.2) ∧ Logged c s'.arrived s'.taken s'.pc s'.log
    from ⟨h.ring.handlerStep hs, hgl.1, hgl.2⟩
  have hlogged := h.logged
  rw [Eth.handlerStep] at hs
  split at hs
  · -- `idle`: the handler does not run
    cases hs
  · -- `test`
    next hpc =>
      rw [hpc] at hlogged
      split at hs <;> obtain rfl := Option.some.inj hs <;>
        exact ⟨h.good, hlogged.between rfl rfl⟩
  · -- `rxPacket`: the oldest frame that waits is taken
    next hpc =>
      rw [hpc] at hlogged
      obtain rfl := Option.some.inj hs
      obtain ⟨x, hx, -⟩ := h.ring.ready_getElem? hpc
      rw [h.ring.ethRxPacket_eq hpc hx]
      exact ⟨h.good, hlogged.take hx⟩
  · -- `alloc`: it fails, or the copy loop begins
    next frame hpc =>
      obtain ⟨x, hx, hmin, hlen, -, -⟩ := h.frame_eq (f := frame) (by rw [hpc]; rfl)
      rw [hpc] at hlogged
      rw [hlen] at hs
      split at hs
      · obtain rfl := Option.some.inj hs
        refine ⟨h.good, hlogged.progress _ _ hx rfl fun rest hprog => ?_⟩
        obtain rfl : rest = _ := hprog
        rfl
      · next p hp =>
          obtain rfl := Option.some.inj hs
          have := hlogged.progress (.copy frame [] p 0) [] hx rfl fun rest hprog => by
            obtain rfl : rest = _ := hprog
            exact ⟨rfl, copying_pbufAlloc hmin hp⟩
          rw [List.append_nil] at this
          exact ⟨h.good, this⟩
  · -- `copy`, with all pbufs filled
    next frame done i hpc =>
      obtain ⟨x, hx, -⟩ := h.frame_eq (f := frame) (by rw [hpc]; rfl)
      rw [hpc] at hlogged
      obtain rfl := Option.some.inj hs
      have := hlogged.progress (.release frame (some done)) [] hx rfl
        fun rest hprog => ⟨by rw [List.append_nil]; exact hprog.1, hprog.2.received⟩
      rw [List.append_nil] at this
      exact ⟨h.good, this⟩
  · -- `copy`, with a pbuf to fill
    next frame done q todo i hpc =>
      obtain ⟨x, hx, -, -, -, hbytes⟩ := h.frame_eq (f := frame) (by rw [hpc]; rfl)
      rw [hpc] at hlogged
      obtain rfl := Option.some.inj hs
      refine ⟨h.good, hlogged.progress _ _ hx rfl fun rest hprog => ⟨?_, hprog.2.next hbytes⟩⟩
      rw [hprog.1, copies, copies, List.map_append, List.map_append]
      rfl
  · -- `release`
    next frame p hpc =>
      obtain ⟨x, hx, -, -, hd, -⟩ := h.frame_eq (f := frame) (by rw [hpc]; rfl)
      rw [hpc] at hlogged
      obtain rfl := Option.some.inj hs
      rw [hd, releaseDesc]
      exact ⟨h.good, hlogged.release hx⟩
  · -- `rbusTest` and `rbusClear` log nothing
    next p hpc =>
      rw [hpc] at hlogged
      split at hs <;> obtain rfl := Option.some.inj hs
      · exact ⟨h.good, by cases p <;> exact hlogged⟩
      · exact ⟨h.good, by cases p <;> exact hlogged⟩
  · next p hpc =>
      rw [hpc] at hlogged
      obtain rfl := Option.some.inj hs
      exact ⟨h.good, by cases p <;> exact hlogged⟩
  · -- `input`: the frame is done
    next p hpc =>
      rw [hpc] at hlogged
      obtain rfl := Option.some.inj hs
      obtain ⟨x, hx⟩ := hlogged.exists_current rfl
      rw [ethernetifInput_eq]
      exact ⟨h.good, hlogged.input hx⟩
  · -- `clearR` and `clearNis` log nothing
    next hpc =>
      rw [hpc] at hlogged
      obtain rfl := Option.some.inj hs
      exact ⟨h.good, hlogged.between rfl rfl⟩
  · next hpc =>
      rw [hpc] at hlogged
      obtain rfl := Option.some.inj hs
      exact ⟨h.good, hlogged.between rfl rfl⟩

/-- A good completion keeps the invariant of delivery. -/
theorem Delivering.complete {status : U32} {bytes : List UInt8} (h : Delivering c s)
    (hgood : GoodCompletion status bytes) (hs : dmaComplete s status bytes = some s') :
    Delivering c s' := by
  have hring := h.ring.complete hs
  obtain ⟨-, hs⟩ := Option.ite_none_right_eq_some.mp hs
  obtain rfl := Option.some.inj hs
  refine ⟨hring, ?_, ?_⟩
  · intro x hx
    rcases List.mem_append.mp hx with hx | hx
    · exact h.good x hx
    · obtain rfl := List.mem_singleton.mp hx
      exact hgood
  · obtain ⟨done, rest, hlog, hvalid, hpre, hnow⟩ := h.logged
    refine ⟨done, rest, hlog, hvalid, ?_, hnow.imp_right ?_⟩
    · rw [List.map_append]
      exact hpre.trans (List.prefix_append _ _)
    · rintro ⟨htaken, x, hx, hprog⟩
      exact ⟨htaken, x, by rw [List.getElem?_append_left (RxRing.lt_of_getElem? hx), hx], hprog⟩

/-- Every step keeps the log in order. -/
theorem Delivering.step (h : Delivering c s) (hgood : e.Good) (hs : step c s e = some s') :
    Delivering c s' := by
  cases e with
  | complete status bytes => exact h.complete hgood hs
  | rbus =>
      have hring := h.ring.step hs
      obtain rfl := Option.some.inj hs
      exact ⟨hring, h.good, h.logged⟩
  | irq =>
      have hring := h.ring.step hs
      rw [Eth.step] at hs
      split at hs
      · next hpc =>
          obtain ⟨-, hs⟩ := Option.ite_none_right_eq_some.mp hs
          obtain rfl := Option.some.inj hs
          have hlogged := h.logged
          rw [hpc] at hlogged
          exact ⟨hring, h.good, hlogged.between rfl rfl⟩
      · cases hs
  | cpu free old => exact h.handlerStep hs

/-- The handler completes nothing. -/
theorem handlerStep_arrived {free : ℕ} {old : ℕ → ℕ → UInt8} (hs : handlerStep c free old s = some s') :
    s'.arrived = s.arrived := by
  rw [handlerStep] at hs
  split at hs
  · cases hs
  · split at hs <;> obtain rfl := Option.some.inj hs <;> rfl
  · obtain rfl := Option.some.inj hs
    simp only [ethRxPacket]
    split
    · split <;> rfl
    · rfl
  · split at hs <;> obtain rfl := Option.some.inj hs <;> rfl
  · obtain rfl := Option.some.inj hs
    rfl
  · obtain rfl := Option.some.inj hs
    rfl
  · next frame _ _ =>
      obtain rfl := Option.some.inj hs
      cases frame.descriptor <;> rfl
  · split at hs <;> obtain rfl := Option.some.inj hs <;> rfl
  · obtain rfl := Option.some.inj hs
    rfl
  · obtain rfl := Option.some.inj hs
    rw [ethernetifInput_eq]
  · obtain rfl := Option.some.inj hs
    rfl
  · obtain rfl := Option.some.inj hs
    rfl

/-- The history variable holds the completions of the schedule. -/
theorem arrived_of_run (hrun : run (step c) s es = some s') :
    s'.arrived.map Prod.snd = s.arrived.map Prod.snd ++ completions es := by
  induction es generalizing s with
  | nil =>
      obtain rfl := Option.some.inj hrun
      exact (List.append_nil _).symm
  | cons e es ih =>
      obtain ⟨t, ht, hrest⟩ := run_cons_eq_some.mp hrun
      rw [ih hrest]
      cases e with
      | complete status bytes =>
          obtain ⟨-, ht⟩ := Option.ite_none_right_eq_some.mp ht
          obtain rfl := Option.some.inj ht
          rw [List.map_append, completions, List.append_assoc]
          rfl
      | rbus =>
          obtain rfl := Option.some.inj ht
          rfl
      | irq =>
          rw [step] at ht
          split at ht
          · obtain ⟨-, ht⟩ := Option.ite_none_right_eq_some.mp ht
            obtain rfl := Option.some.inj ht
            rfl
          · cases ht
      | cpu free old =>
          rw [handlerStep_arrived ht]
          rfl

/-- The log of the frame in hand is the beginning of a block of that frame. -/
theorem Progress.exists_prefix {d : ℕ} {bytes : List UInt8} {rest : List Action}
    (h : Progress d bytes pc rest) :
    ∃ outcome, ValidOutcome (bytes, outcome) ∧ rest <+: block d bytes outcome := by
  have hnone : ValidOutcome (bytes, none) := fun _ hp => absurd hp (Option.some_ne_none _).symm
  have hsome : ∀ p, Received bytes p → ValidOutcome (bytes, some (p.map Pbuf.bytes)) := by
    intro p hrec pieces hp
    obtain rfl := Option.some.inj hp
    exact hrec.bytes_eq
  cases pc with
  | idle | test | rxPacket | clearR | clearNis => exact h.elim
  | alloc frame =>
      obtain rfl : rest = _ := h
      exact ⟨none, hnone, List.prefix_append [Action.take d] _⟩
  | copy frame done todo i =>
      obtain ⟨rfl, hcopy⟩ := h
      -- whatever is still to be copied counts as one more piece
      refine ⟨some (done.map Pbuf.bytes ++ [(withoutCrc bytes).drop i]), ?_, ?_⟩
      · intro pieces hp
        obtain rfl := Option.some.inj hp
        have hi : i ≤ bytes.length - 4 := hcopy.room ▸ Nat.le_add_right _ _
        have hdone : (done.map Pbuf.bytes).flatten = bytes.take i := hcopy.copied
        rw [List.flatten_append, List.flatten_singleton, hdone]
        conv_rhs => rw [← List.take_append_drop i (withoutCrc bytes)]
        rw [withoutCrc, List.take_take, Nat.min_eq_left hi]
      · rw [block, List.map_append, ← List.cons_append, List.append_assoc]
        exact List.prefix_append _ _
  | release frame p =>
      cases p with
      | none =>
          obtain rfl : rest = _ := h
          exact ⟨none, hnone, List.prefix_append [Action.take d, .allocFailed] _⟩
      | some p =>
          obtain ⟨rfl, hrec⟩ := h
          exact ⟨_, hsome p hrec, List.prefix_append _ _⟩
  | rbusTest p | rbusClear p | input p =>
      cases p with
      | none =>
          obtain rfl : rest = _ := h
          exact ⟨none, hnone, List.prefix_refl _⟩
      | some p =>
          obtain ⟨rfl, hrec⟩ := h
          refine ⟨_, hsome p hrec, ?_⟩
          exact (List.prefix_append_right_inj _).mpr (List.prefix_append [Action.release d] _)

/-- At the start there is nothing in the log. -/
theorem delivering_init (c : Config) (desc : ℕ → DmaDesc) (mem : ByteMem) :
    Delivering c (init c desc mem) where
  ring := rxRing_init c desc mem
  good _ hx := absurd hx List.not_mem_nil
  logged := ⟨[], [], rfl, fun _ hx => absurd hx List.not_mem_nil, List.nil_prefix,
    Or.inl ⟨rfl, rfl, rfl⟩⟩

/-- The invariant shows only blocks, and a part of one inside the handler. -/
theorem Delivering.delivered (h : Delivering c s) : Delivered c (s.arrived.map Prod.snd) s := by
  obtain ⟨done, rest, hlog, hvalid, hpre, ⟨-, hrest, -⟩ | ⟨-, x, hx, hprog⟩⟩ := h.logged
  · exact ⟨done, rest, hlog, hvalid, Or.inl ⟨hrest, hpre⟩⟩
  · obtain ⟨outcome, hout, hrest⟩ := hprog.exists_prefix
    refine ⟨done, rest, hlog, hvalid, Or.inr ⟨?_, (x.2, outcome), hout, ?_, hrest⟩⟩
    · intro hidle
      rw [hidle] at hprog
      exact hprog
    · rw [List.map_append]
      refine prefix_concat_of_getElem? hpre ?_
      rw [List.length_map, List.getElem?_map, hx]
      rfl

/-- **Delivery.** For every interleaving of good completions with the steps of the handler and every
outcome of `pbuf_alloc`, the log of the handler is made of the blocks of the frames in the order of
their arrival: each frame taken is passed to `netif->input` once, with its bytes less the CRC, or
dropped because `pbuf_alloc` failed or its EtherType is neither IP nor ARP; and its descriptor is given
back once, after the copy. -/
theorem run_delivers (c : Config) (desc : ℕ → DmaDesc) (mem : ByteMem) (es : List Event) (s : State)
    (hgood : ∀ e ∈ es, e.Good) (hrun : run (step c) (init c desc mem) es = some s) :
    Delivered c (completions es) s := by
  have hmeets : RunMeets (step c) (fun _ e => e.Good) (init c desc mem) es :=
    runMeets_of_forall _ hgood
  have h : Delivering c s := run_invariant_of_meets (fun _ _ _ h he hs => Delivering.step h he hs)
    (delivering_init c desc mem) hmeets hrun
  have harrived : s.arrived.map Prod.snd = completions es := arrived_of_run hrun
  rw [← harrived]
  exact h.delivered

/-- A good 64-byte frame with the EtherType of IP. -/
def ipFrame : List UInt8 := List.replicate 12 0 ++ [8, 0] ++ List.replicate 50 1

/-- A step of the handler with one free element in the pool. -/
def cpuOnePbuf : Event := .cpu 1 fun _ _ => 0

/-- Three good frames on two descriptors; the second arrives while the first is handled and finds the
pool empty, and the third is in the descriptor of the first. -/
def threeFrames : List Event :=
  [.complete goodStatus ipFrame, .irq] ++ List.replicate 5 cpuOnePbuf ++ [goodFrameCompletes] ++
    List.replicate 9 cpuNoPool ++ [goodFrameCompletes] ++ List.replicate 11 cpuOnePbuf

/-- The first frame is passed on, the second is dropped for want of a pbuf and the third for its
EtherType, and the handler returns. -/
theorem run_delivers_threeFrames : ∃ s, run (step twoBuffers) fresh threeFrames = some s ∧ s.pc = .idle ∧
    s.log = blocks 2 [(ipFrame, some [ipFrame.take 60]), (List.replicate 64 0, none),
      (List.replicate 64 0, some [List.replicate 60 0])] ∧
    Delivered twoBuffers [ipFrame, List.replicate 64 0, List.replicate 64 0] s := by
  have hout : (run (step twoBuffers) fresh threeFrames).map (fun s => (s.pc.isIdle, s.log)) =
      some (true, blocks 2 [(ipFrame, some [ipFrame.take 60]), (List.replicate 64 0, none),
        (List.replicate 64 0, some [List.replicate 60 0])]) := by decide +kernel
  obtain ⟨s, hs, hfinal⟩ := Option.map_eq_some_iff.mp hout
  simp only [Prod.mk.injEq, Pc.isIdle_iff] at hfinal
  refine ⟨s, hs, hfinal.1, hfinal.2, run_delivers twoBuffers _ _ _ s ?_ hs⟩
  have hzero : GoodCompletion goodStatus (List.replicate 64 0) := by decide
  have hip : GoodCompletion goodStatus ipFrame := by decide
  intro e he
  simp only [threeFrames, goodFrameCompletes, List.mem_append, List.mem_cons, List.not_mem_nil, or_false,
    List.mem_replicate] at he
  rcases he with ((((((rfl | rfl) | ⟨-, rfl⟩) | rfl) | ⟨-, rfl⟩) | rfl) | ⟨-, rfl⟩)
  · exact hip
  · trivial
  · trivial
  · exact hzero
  · trivial
  · exact hzero
  · trivial

end Logged

end BareMetal.Eth
