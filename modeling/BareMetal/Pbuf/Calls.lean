import BareMetal.Pbuf.TotLen
import Mathlib.Algebra.Group.Nat.Defs

/-! # Sequences of calls

`run_counted_totalled`: whatever the callers do with the references they hold, the counts are right and
`pbuf_free` frees the part of the chain that nobody else refers to. When each chain that is joined or split is
given by its first pbuf (`Unshared`), the totals are right too, and every call returns. Without that they need not
be (`not_totalsKept`). -/

namespace BareMetal.Pbufs

variable {c : Config} {s s' : State} {e : Event} {p t head : ℕ}

/-- The total of a joined chain is below 2^16. -/
def TotalFits (s : State) : Event → Prop
  | .cat head t | .chain head t => (s.heap.pbuf head).totLen.toNat + (s.heap.pbuf t).totLen.toNat < 2 ^ 16
  | _ => True

instance (s : State) : (e : Event) → Decidable (TotalFits s e)
  | .cat _ _ | .chain _ _ => inferInstanceAs (Decidable (_ < 2 ^ 16))
  | .alloc _ _ _ _ | .ref _ | .free _ | .dechain _ => inferInstanceAs (Decidable True)

/-- `pbuf_cat`, `pbuf_chain` and `pbuf_dechain` are given the first pbuf of a chain: no other pbuf links into
it, and it is not joined with a part of itself. -/
def Unshared (s : State) : Event → Prop
  | .cat head t | .chain head t => ∃ l, Chain s.heap head l ∧ Closed s.heap l ∧ t ∉ l
  | .dechain p => ∀ x ∈ s.heap.allocated, s.heap.next x ≠ p
  | _ => True

/-- A call that is made was allowed. -/
theorem allowed_of_step (hstep : step c s e = some s') : Allowed s e := by
  by_contra hnot
  simp only [step, if_neg hnot] at hstep
  cases hstep

/-- Every allowed call that returns keeps the counts right. -/
theorem counted_step (hc : Counted s.heap s.owner) (hstep : step c s e = some s') : Counted s'.heap s'.owner := by
  have hallowed := allowed_of_step hstep
  simp only [step, if_pos hallowed] at hstep
  cases e with
  | alloc layer length type elems =>
      obtain ⟨p, h', hrun, hc'⟩ := hc.pbufAlloc (c := c) hallowed layer length type
      simp only [hrun, Option.map_some] at hstep
      obtain rfl := Option.some.inj hstep
      exact hc'
  | ref p =>
      obtain rfl := Option.some.inj hstep
      exact hc.pbufRef hallowed.1 hallowed.2
  | free p =>
      obtain ⟨l, q, h', hrun, -, hc'⟩ := pbufFree_spec (p := p) hc fun _ => hallowed.2
      simp only [hrun, Option.map_some] at hstep
      obtain rfl := Option.some.inj hstep
      rwa [dropped, if_neg (hc.ne_null hallowed.1)] at hc'
  | cat head t =>
      obtain ⟨h', hrun, rfl⟩ := Option.map_eq_some_iff.mp hstep
      exact hc.pbufCatLoop hallowed.1 hallowed.2.1 hallowed.2.2 hrun
  | chain head t =>
      obtain ⟨h', hrun, rfl⟩ := Option.map_eq_some_iff.mp hstep
      exact hc.pbufChain hallowed.1 hallowed.2.1 hallowed.2.2 hrun
  | dechain p =>
      obtain ⟨rest, h', hrun, hc'⟩ := hc.pbufDechain hallowed
      simp only [hrun, Option.map_some] at hstep
      obtain rfl := Option.some.inj hstep
      exact hc'

/-- The loop of `pbuf_cat` comes to the end of a chain that is given by its first pbuf. -/
theorem Chain.pbufCat {h : Heap} {owner : ℕ → ℕ} {l : List ℕ} (hc : Counted h owner) (hl : Chain h head l)
    (hhead : head ∈ h.allocated) (ht : t ∈ h.allocated) (htl : t ∉ l) :
    ∃ h', pbufCat h head t = some h' ∧ Joined h t l h' := by
  have hmem := hl.subset hc hhead
  have hcard : l.length ≤ h.allocated.card := by
    rw [← List.toFinset_card_of_nodup (hl.path.nodup hl.null)]
    exact Finset.card_le_card fun x hx => hmem x (List.mem_toFinset.mp hx)
  exact pbufCatLoop_spec hl hmem (hc.ne_null hhead) ht htl hcard

/-- Every allowed call that is given first pbufs returns, and keeps the totals right. -/
theorem totalled_step (hc : Counted s.heap s.owner) (htot : Totalled s.heap) (hallowed : Allowed s e)
    (hfits : TotalFits s e) (hun : Unshared s e) : ∃ s', step c s e = some s' ∧ Totalled s'.heap := by
  simp only [step, if_pos hallowed]
  cases e with
  | alloc layer length type elems =>
      obtain ⟨p, h', hrun, -⟩ := hc.pbufAlloc (c := c) hallowed layer length type
      simp only [hrun]
      exact ⟨_, rfl, htot.pbufAlloc hc hallowed hrun⟩
  | ref p => exact ⟨_, rfl, htot.pbufRef hc hallowed.1⟩
  | free p =>
      obtain ⟨l, q, h', hrun, hfreed, hc'⟩ := pbufFree_spec (p := p) hc fun _ => hallowed.2
      simp only [hrun]
      exact ⟨_, rfl, htot.freed hc' hfreed⟩
  | cat head t =>
      obtain ⟨l, hl, hclosed, htl⟩ := hun
      obtain ⟨h', hrun, hjoined⟩ := hl.pbufCat hc hallowed.1 hallowed.2.1 htl
      simp only [hrun]
      exact ⟨_, rfl, htot.joined hc hl hallowed.1 hallowed.2.1 htl hclosed hfits hjoined⟩
  | chain head t =>
      obtain ⟨l, hl, hclosed, htl⟩ := hun
      obtain ⟨h', hrun, hjoined⟩ := hl.pbufCat hc hallowed.1 hallowed.2.1 htl
      have htot' := htot.joined hc hl hallowed.1 hallowed.2.1 htl hclosed hfits hjoined
      have ht : t ∈ h'.allocated := hjoined.allocated ▸ hallowed.2.1
      simp only [pbufChain, hrun]
      refine ⟨_, rfl, ?_⟩
      change Totalled (pbufRef h' t)
      rw [pbufRef, if_neg (hc.ne_null hallowed.2.1), use_eq ht]
      exact htot'.set_other rfl rfl rfl
  | dechain p =>
      obtain ⟨rest, h', hrun, -⟩ := hc.pbufDechain hallowed
      simp only [hrun]
      exact ⟨_, rfl, htot.pbufDechain hc hallowed hun hrun⟩

/-- Without pbufs there is nothing to count. -/
theorem counted_start : Counted start.heap start.owner := by
  constructor
  · exact Finset.notMem_empty 0
  · exact fun p hp => absurd hp (Finset.notMem_empty p)
  · intro p _
    have hlinks : start.heap.links p = 0 := inDegree_eq_zero_iff.mpr fun y hy => absurd hy (Finset.notMem_empty y)
    exact iff_of_false (Finset.notMem_empty p) (by rw [hlinks]; exact Nat.lt_irrefl 0)
  · rfl

/-- Nor to add up. -/
theorem totalled_start : Totalled start.heap := fun p hp => absurd hp (Finset.notMem_empty p)

/-- What `pbuf_free` promises: it frees the pbufs with a count of one from `p` on, up to the first one that has
other references, and returns how many they are. -/
def FreesPrefix (h : Heap) (p : ℕ) : Prop :=
  ∃ count l q h', pbufFree h p = some (count, h') ∧ Freed h p l q h' ∧ (l.length < 256 → count.toNat = l.length)

/-- A `pbuf_free` that is allowed frees a prefix of the chain. -/
theorem freesPrefix (hc : Counted s.heap s.owner) (hallowed : Allowed s (.free p)) : FreesPrefix s.heap p := by
  obtain ⟨l, q, h', hrun, hfreed, -⟩ := pbufFree_spec (p := p) hc fun _ => hallowed.2
  exact ⟨_, l, q, h', hrun, hfreed, fun hlt => UInt8.toNat_ofNat_of_lt' hlt⟩

/-- **The counts and the totals.** In every run the counts are right, exactly the pbufs with references are
allocated, and `pbuf_free` keeps its promise. In a run whose joined and split chains are given by their first
pbufs the totals are right as well, and the next such call returns. -/
theorem run_counted_totalled {es : List Event} (hrun : run (step c) start es = some s) :
    Counted s.heap s.owner ∧ (∀ p, Allowed s (.free p) → FreesPrefix s.heap p) ∧
      (RunMeets (step c) (fun s e => TotalFits s e ∧ Unshared s e) start es → Totalled s.heap ∧
        ∀ e, Allowed s e → TotalFits s e → Unshared s e → ∃ s', step c s e = some s') := by
  have hc : Counted s.heap s.owner :=
    run_invariant (I := fun s => Counted s.heap s.owner) (fun s e s' hc hstep => counted_step hc hstep) counted_start hrun
  refine ⟨hc, fun p hallowed => freesPrefix hc hallowed, fun hmeets => ?_⟩
  have htot : Counted s.heap s.owner ∧ Totalled s.heap := by
    refine run_invariant_of_meets (I := fun s => Counted s.heap s.owner ∧ Totalled s.heap) ?_
      ⟨counted_start, totalled_start⟩ hmeets hrun
    rintro s e s' ⟨hc, htot⟩ ⟨hfits, hun⟩ hstep
    obtain ⟨t, ht, htot'⟩ := totalled_step (c := c) hc htot (allowed_of_step hstep) hfits hun
    obtain rfl := Option.some.inj (ht.symm.trans hstep)
    exact ⟨counted_step hc hstep, htot'⟩
  refine ⟨htot.2, fun e hallowed hfits hun => ?_⟩
  obtain ⟨s', hstep, -⟩ := totalled_step (c := c) hc htot.2 hallowed hfits hun
  exact ⟨s', hstep⟩

/-- The size of an element fits 16 bits. -/
theorem pool_bufsize_lt : 592 < 2 ^ 16 := by decide

/-- A small configuration. -/
def smallConfig : Config where
  memAlignment := 4
  isAlignment := isAlignment_four
  sizeofStructPbuf := 16
  pbufPoolBufsizeAligned := 592
  headers_fit := by decide
  bufsize_lt := pool_bufsize_lt

/-- A packet of three pbufs whose payload has one more reference: it is joined, the head is split off, and both
references to the payload are dropped. -/
def headerAndPayload : List Event :=
  [.alloc .raw 20 .ram [64], .alloc .raw 600 .pool [128, 1024], .chain 64 128, .dechain 64, .ref 128, .free 128]

/-- The theorem at a run with a header in front of a payload. -/
theorem headerAndPayload_counted_totalled :
    ∃ s, run (step smallConfig) start headerAndPayload = some s ∧ Counted s.heap s.owner ∧
      FreesPrefix s.heap 128 ∧ Totalled s.heap := by
  obtain ⟨s, hrun, hallowed⟩ : ∃ s, run (step smallConfig) start headerAndPayload = some s ∧ Allowed s (.free 128) :=
    ⟨_, rfl, by decide⟩
  obtain ⟨hc, hfree, htot⟩ := run_counted_totalled hrun
  refine ⟨s, hrun, hc, hfree 128 hallowed, (htot ?_).1⟩
  refine ⟨⟨trivial, trivial⟩, fun s₁ h₁ => ?_⟩
  obtain rfl := Option.some.inj h₁
  refine ⟨⟨trivial, trivial⟩, fun s₂ h₂ => ?_⟩
  obtain rfl := Option.some.inj h₂
  refine ⟨⟨by decide, [64], ⟨⟨rfl, rfl⟩, by decide⟩, by unfold Closed; decide, by decide⟩, fun s₃ h₃ => ?_⟩
  obtain rfl := Option.some.inj h₃
  refine ⟨⟨trivial, by unfold Unshared; decide⟩, fun s₄ h₄ => ?_⟩
  obtain rfl := Option.some.inj h₄
  exact ⟨⟨trivial, trivial⟩, fun s₅ _ => ⟨⟨trivial, trivial⟩, fun _ _ => trivial⟩⟩

/-- The totals of every chain stay right, whatever chains are joined. -/
def TotalsKept (c : Config) : Prop :=
  ∀ es s, run (step c) start es = some s → RunMeets (step c) TotalFits start es → Totalled s.heap

/-- Two chains share their tail, and one of them is joined with a third. -/
def sharedTail : List Event :=
  [.alloc .raw 10 .ram [64], .alloc .raw 20 .ram [128], .alloc .raw 30 .ram [192], .chain 64 192, .chain 128 192,
    .alloc .raw 40 .ram [256], .cat 64 256]

/-- The total of the other chain is too small then. -/
theorem not_totalsKept : ¬TotalsKept smallConfig := by
  intro hkept
  obtain ⟨s, hrun, hs⟩ : ∃ s, run (step smallConfig) start sharedTail = some s ∧
      (128 ∈ s.heap.allocated ∧ s.heap.next 128 = 192 ∧ s.heap.next 192 = 256 ∧ s.heap.next 256 = 0) ∧
        (s.heap.pbuf 128).totLen.toNat ≠ chainSum s.heap [128, 192, 256] := ⟨_, rfl, by decide⟩
  obtain ⟨⟨hmem, h₁, h₂, h₃⟩, hne⟩ := hs
  obtain ⟨l, hl, hsum⟩ := hkept sharedTail s hrun (by decide) 128 hmem
  have hl' : Chain s.heap 128 [128, 192, 256] := by
    refine ⟨?_, by decide⟩
    simp only [path_cons, path_nil, h₁, h₂, h₃, true_and]
  exact hne (hl.unique hl' ▸ hsum)

end BareMetal.Pbufs
