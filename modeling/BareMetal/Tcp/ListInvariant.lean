import Mathlib.Data.List.Perm.Subperm
import BareMetal.Tcp.Alloc
import BareMetal.Tcp.Demux

/-! # What keeps the axioms

The axioms of `tcp_impl.h` are kept because a block is taken off its list before it changes in a way that does not
fit the list, and registered or returned to its pool afterwards. `ListInv s nodes out` is the invariant of the lists,
with `out` the blocks that are in between. The lemmas are for the pieces that the functions of `tcp.c` are made of. -/

namespace BareMetal.Tcp

/-- The states of `tcp_active_pcbs`. -/
def TcpState.Connected (s : TcpState) : Prop := s ≠ .closed ∧ s ≠ .listen ∧ s ≠ .timeWait

instance (s : TcpState) : Decidable s.Connected := inferInstanceAs (Decidable (_ ∧ _ ∧ _))

/-- The block may be on the list. -/
def ListName.Fits : ListName → Block → Prop
  | .listen, b => b.pcb.state = .listen
  | .bound, b => b.pcb.state = .closed ∧ b.localPort ≠ 0
  | .active, b => b.pcb.state.Connected
  | .timeWait, b => b.pcb.state = .timeWait

/-- The lists are in order; the blocks `out` are on none of them, and nothing else is said of these. -/
structure ListInv (s : Store) (nodes : ListName → List ℕ) (out : List ℕ) : Prop extends Linked s nodes where
  pools_disjoint : ∀ p q a, a ∈ s.elems p → a ∈ s.elems q → p = q
  free_elems : ∀ p, ∀ a ∈ s.free p, a ∈ s.elems p
  free_nodup : ∀ p, (s.free p).Nodup
  elems_ne_null : ∀ p, 0 ∉ s.elems p
  live : ∀ l, ∀ a ∈ nodes l, s.Live l.pool a
  one_list : ∀ l l' a, a ∈ nodes l → a ∈ nodes l' → l = l'
  fits : ∀ l, ∀ a ∈ nodes l, l.Fits (s.block a)
  /-- A listening block, and one that is not closed or has a port, is on a list. -/
  listed : ∀ p a, s.Live p a → a ∉ out →
    p = .tcpPcbListen ∨ (s.block a).pcb.state ≠ .closed ∨ (s.block a).localPort ≠ 0 → ∃ l, a ∈ nodes l
  refused : ∀ a, s.Live .tcpPcb a → a ∉ out → (s.block a).pcb.refusedData = none
  off : ∀ a ∈ out, ∀ l, a ∉ nodes l

/-- The number of control blocks, which bounds the length of every list. -/
def Store.size (s : Store) : ℕ := (s.elems .tcpPcb).length + (s.elems .tcpPcbListen).length

variable {s s' : Store} {nodes nodes' : ListName → List ℕ} {l : ListName} {p : Pool} {a b fuel : ℕ} {out : List ℕ}
  {f : Block → Block}

/-- The invariant, as the axioms of the lists. -/
theorem ListInv.axioms (h : ListInv s nodes []) : Axioms s nodes where
  toLinked := h.toLinked
  pools_disjoint := h.pools_disjoint
  free_elems := h.free_elems
  free_nodup := h.free_nodup
  elems_ne_null := h.elems_ne_null
  live := h.live
  listed p a hlive hstate := h.listed p a hlive List.not_mem_nil (.inr (.inl hstate))
  one_list := h.one_list
  listen_state := h.fits .listen
  timeWait_state := h.fits .timeWait
  active_state := h.fits .active

/-- Every block of a list is an element of its pool, once. -/
theorem ListInv.length_le (h : ListInv s nodes out) (l : ListName) : (nodes l).length ≤ s.size := by
  have hsub : (nodes l).Subperm (s.elems l.pool) :=
    List.Nodup.subperm (h.toLinked.nodup l) fun a ha => (h.live l a ha).1
  have hpool : (s.elems l.pool).length ≤ s.size := by
    rw [Store.size]
    cases l.pool <;> omega
  exact Nat.le_trans hsub.length_le hpool

/-- The list tells what the block is like. -/
theorem ListInv.mem_of_fits (h : ListInv s nodes []) (hlive : s.Live p a)
    (hstate : (s.block a).pcb.state ≠ .closed ∨ (s.block a).localPort ≠ 0)
    (hfits : ∀ l', l'.Fits (s.block a) → l' = l) : a ∈ nodes l := by
  obtain ⟨l', hl'⟩ := h.listed p a hlive List.not_mem_nil (.inr hstate)
  exact hfits l' (h.fits l' a hl') ▸ hl'

/-- A live block in a connected state is on `tcp_active_pcbs`. -/
theorem ListInv.mem_active (h : ListInv s nodes []) (hlive : s.Live p a)
    (hstate : (s.block a).pcb.state.Connected) : a ∈ nodes .active := by
  refine h.mem_of_fits hlive (.inl hstate.1) fun l' hl' => ?_
  obtain ⟨hclosed, hlisten, htw⟩ := hstate
  cases l' with
  | listen => exact absurd hl' hlisten
  | bound => exact absurd hl'.1 hclosed
  | active => rfl
  | timeWait => exact absurd hl' htw

/-- A live block in TIME_WAIT is on `tcp_tw_pcbs`. -/
theorem ListInv.mem_timeWait (h : ListInv s nodes []) (hlive : s.Live p a)
    (hstate : (s.block a).pcb.state = .timeWait) : a ∈ nodes .timeWait := by
  refine h.mem_of_fits hlive (.inl (by rw [hstate]; decide)) fun l' hl' => ?_
  cases l' with
  | listen => exact absurd (hstate.symm.trans hl') (by decide)
  | bound => exact absurd (hstate.symm.trans hl'.1) (by decide)
  | active => exact absurd hstate hl'.2.2
  | timeWait => rfl

/-- A live block in LISTEN is on `tcp_listen_pcbs`. -/
theorem ListInv.mem_listen (h : ListInv s nodes []) (hlive : s.Live p a)
    (hstate : (s.block a).pcb.state = .listen) : a ∈ nodes .listen := by
  refine h.mem_of_fits hlive (.inl (by rw [hstate]; decide)) fun l' hl' => ?_
  cases l' with
  | listen => rfl
  | bound => exact absurd (hstate.symm.trans hl'.1) (by decide)
  | active => exact absurd hstate hl'.2.1
  | timeWait => exact absurd (hstate.symm.trans hl') (by decide)

/-- A live block in CLOSED with a port is on `tcp_bound_pcbs`. -/
theorem ListInv.mem_bound (h : ListInv s nodes []) (hlive : s.Live p a)
    (hstate : (s.block a).pcb.state = .closed) (hport : (s.block a).localPort ≠ 0) : a ∈ nodes .bound := by
  refine h.mem_of_fits hlive (.inr hport) fun l' hl' => ?_
  cases l' with
  | listen => exact absurd (hstate.symm.trans hl') (by decide)
  | bound => rfl
  | active => exact absurd hstate hl'.1
  | timeWait => exact absurd (hstate.symm.trans hl') (by decide)

/-- The blocks of the listening pool are listening. -/
theorem ListInv.pool_of_closed (h : ListInv s nodes []) (hlive : s.Live p a)
    (hstate : (s.block a).pcb.state = .closed) : p = .tcpPcb := by
  cases p with
  | tcpPcb => rfl
  | tcpPcbListen =>
      obtain ⟨l, hl⟩ := h.listed _ a hlive List.not_mem_nil (.inl rfl)
      have hpool := h.pools_disjoint _ _ a (h.live l a hl).1 hlive.1
      have hfits := h.fits l a hl
      cases l with
      | listen => exact absurd (hstate.symm.trans hfits) (by decide)
      | _ => cases hpool

/-- A closed block without a port is on no list. -/
theorem ListInv.off_of_closed (h : ListInv s nodes out) (hstate : (s.block a).pcb.state = .closed)
    (hport : (s.block a).localPort = 0) (l : ListName) : a ∉ nodes l := by
  intro ha
  have hfits := h.fits l a ha
  cases l with
  | listen => exact absurd (hstate.symm.trans hfits) (by decide)
  | bound => exact hfits.2 hport
  | active => exact hfits.1 hstate
  | timeWait => exact absurd (hstate.symm.trans hfits) (by decide)

/-! ## The pieces -/

/-- Only the blocks, the lists and the pools matter. -/
theorem ListInv.congr (h : ListInv s nodes out) (hblock : s'.block = s.block) (hhead : s'.head = s.head)
    (helems : s'.elems = s.elems) (hfree : s'.free = s.free) : ListInv s' nodes out := by
  have hnext : s'.next = s.next := by
    funext x
    rw [Store.next, Store.next, hblock]
  have hlive : ∀ p a, s'.Live p a ↔ s.Live p a := fun p a => by rw [Store.Live, Store.Live, helems, hfree]
  constructor
  · exact ⟨by rw [hnext, hhead]; exact h.path, h.ne_null⟩
  · rw [helems]
    exact h.pools_disjoint
  · rw [helems, hfree]
    exact h.free_elems
  · rw [hfree]
    exact h.free_nodup
  · rw [helems]
    exact h.elems_ne_null
  · exact fun l a ha => (hlive _ a).mpr (h.live l a ha)
  · exact h.one_list
  · rw [hblock]
    exact h.fits
  · rw [hblock]
    exact fun p a ha => h.listed p a ((hlive p a).mp ha)
  · rw [hblock]
    exact fun a ha => h.refused a ((hlive _ a).mp ha)
  · exact h.off

/-- The four lists are lists. -/
theorem ListInv.lists (h : ListInv s nodes out) : Lists s nodes := ⟨h.toLinked, h.one_list⟩

/-- The link of a block says nothing about its list. -/
theorem fits_next (l : ListName) (b : Block) (n : ℕ) : l.Fits { b with next := n } ↔ l.Fits b := by
  cases l <;> rfl

/-- Writing a field other than the link. -/
theorem block_onBlock_self (s : Store) (a : ℕ) (f : Block → Block) :
    (s.onBlock a f).block a = { f (s.block a) with next := s.next a } := Function.update_self _ _ _

/-- The other blocks. -/
theorem block_onBlock_of_ne (s : Store) (f : Block → Block) (hne : b ≠ a) : (s.onBlock a f).block b = s.block b :=
  Function.update_of_ne hne _ _

/-- The order of the lists does not matter. -/
theorem ListInv.reorder (h : ListInv s nodes out) (hlists : Lists s' nodes') (hreord : Reordered s s' nodes nodes') :
    ListInv s' nodes' out := by
  have hrel := hreord.relinked
  have hmem : ∀ l b, b ∈ nodes' l ↔ b ∈ nodes l := fun l b => (hreord.perm l).mem_iff
  have hlive : ∀ p b, s'.Live p b ↔ s.Live p b := fun p b => by
    rw [Store.Live, Store.Live, hrel.elems_eq, hrel.free_eq]
  constructor
  · exact hlists.toLinked
  · rw [hrel.elems_eq]
    exact h.pools_disjoint
  · rw [hrel.elems_eq, hrel.free_eq]
    exact h.free_elems
  · rw [hrel.free_eq]
    exact h.free_nodup
  · rw [hrel.elems_eq]
    exact h.elems_ne_null
  · exact fun l b hb => (hlive _ b).mpr (h.live l b ((hmem l b).mp hb))
  · exact hlists.one_list
  · intro l b hb
    rw [hrel.block_eq, fits_next]
    exact h.fits l b ((hmem l b).mp hb)
  · intro p b hb hout hstate
    rw [hrel.block_eq] at hstate
    obtain ⟨l, hl⟩ := h.listed p b ((hlive p b).mp hb) hout hstate
    exact ⟨l, (hmem l b).mpr hl⟩
  · intro b hb hout
    rw [hrel.pcb_eq]
    exact h.refused b ((hlive _ b).mp hb) hout
  · exact fun b hb l hm => h.off b hb l ((hmem l b).mp hm)

/-- `TCP_RMV` takes a block out. -/
theorem ListInv.tcpRmv (h : ListInv s nodes out) (ha : a ∈ nodes l) (hfuel : s.size ≤ fuel) :
    ∃ s', s.tcpRmv fuel l a = some s' ∧ Relinked s s' ∧ ListInv s' (fun l' => (nodes l').erase a) (a :: out) := by
  obtain ⟨s', hrun, hrel, hlinked⟩ := h.toLinked.tcpRmv (Nat.le_trans (h.length_le l) hfuel) ha
    fun l' hl' b hb hb' => hl' (h.one_list _ _ b hb' hb)
  have helems := hrel.elems_eq
  have hfree := hrel.free_eq
  have hlive : ∀ p b, s'.Live p b ↔ s.Live p b := fun p b => by rw [Store.Live, Store.Live, helems, hfree]
  refine ⟨s', hrun, hrel, hlinked, ?_, ?_, ?_, ?_, ?_, ?_, ?_, ?_, ?_, ?_⟩
  · rw [helems]
    exact h.pools_disjoint
  · rw [helems, hfree]
    exact h.free_elems
  · rw [hfree]
    exact h.free_nodup
  · rw [helems]
    exact h.elems_ne_null
  · exact fun l' b hb => (hlive _ b).mpr (h.live l' b (List.mem_of_mem_erase hb))
  · exact fun l₁ l₂ b h₁ h₂ => h.one_list l₁ l₂ b (List.mem_of_mem_erase h₁) (List.mem_of_mem_erase h₂)
  · intro l' b hb
    rw [hrel.block_eq, fits_next]
    exact h.fits l' b (List.mem_of_mem_erase hb)
  · intro p b hb hne hstate
    obtain ⟨hba, hne⟩ := not_or.mp (List.mem_cons.not.mp hne)
    rw [hrel.block_eq] at hstate
    obtain ⟨l', hl'⟩ := h.listed p b ((hlive p b).mp hb) hne hstate
    exact ⟨l', (List.mem_erase_of_ne hba).mpr hl'⟩
  · intro b hb hne
    rw [hrel.pcb_eq]
    exact h.refused b ((hlive _ b).mp hb) fun hm => hne (List.mem_cons_of_mem a hm)
  · intro b hb l'
    rcases List.mem_cons.mp hb with rfl | hb
    · exact (h.toLinked.nodup l').not_mem_erase
    · exact fun hm => h.off b hb l' (List.mem_of_mem_erase hm)

/-- The block that is out may be changed. -/
theorem ListInv.set_out (h : ListInv s nodes [a]) (hother : ∀ b, b ≠ a → s'.block b = s.block b)
    (hhead : s'.head = s.head) (helems : s'.elems = s.elems) (hfree : s'.free = s.free) :
    ListInv s' nodes [a] := by
  have hlive : ∀ p b, s'.Live p b ↔ s.Live p b := fun p b => by rw [Store.Live, Store.Live, helems, hfree]
  have hne : ∀ l, ∀ b ∈ nodes l, b ≠ a := fun l b hb heq => h.off a List.mem_cons_self l (heq ▸ hb)
  constructor
  · refine ⟨fun l => ?_, h.ne_null⟩
    rw [hhead]
    refine (path_congr fun x hx => ?_).mp (h.path l)
    rw [Store.next, Store.next, hother x (hne l x hx)]
  · rw [helems]
    exact h.pools_disjoint
  · rw [helems, hfree]
    exact h.free_elems
  · rw [hfree]
    exact h.free_nodup
  · rw [helems]
    exact h.elems_ne_null
  · exact fun l b hb => (hlive _ b).mpr (h.live l b hb)
  · exact h.one_list
  · intro l b hb
    rw [hother b (hne l b hb)]
    exact h.fits l b hb
  · intro p b hb hb'
    rw [hother b (List.ne_of_not_mem_cons hb')]
    exact h.listed p b ((hlive p b).mp hb) hb'
  · intro b hb hb'
    rw [hother b (List.ne_of_not_mem_cons hb')]
    exact h.refused b ((hlive _ b).mp hb) hb'
  · exact h.off

/-- A block may change as long as it fits its list. -/
theorem ListInv.set_listed (h : ListInv s nodes []) (ha : a ∈ nodes l) (hother : ∀ b, b ≠ a → s'.block b = s.block b)
    (hnext : s'.next a = s.next a) (hfits : l.Fits (s'.block a)) (href : l.pool = .tcpPcb → (s'.block a).pcb.refusedData = none)
    (hhead : s'.head = s.head) (helems : s'.elems = s.elems) (hfree : s'.free = s.free) : ListInv s' nodes [] := by
  have hlive : ∀ p b, s'.Live p b ↔ s.Live p b := fun p b => by rw [Store.Live, Store.Live, helems, hfree]
  have hnextAll : s'.next = s.next := by
    funext x
    by_cases hx : x = a
    · rw [hx, hnext]
    · rw [Store.next, Store.next, hother x hx]
  constructor
  · exact ⟨by rw [hnextAll, hhead]; exact h.path, h.ne_null⟩
  · rw [helems]
    exact h.pools_disjoint
  · rw [helems, hfree]
    exact h.free_elems
  · rw [hfree]
    exact h.free_nodup
  · rw [helems]
    exact h.elems_ne_null
  · exact fun l b hb => (hlive _ b).mpr (h.live l b hb)
  · exact h.one_list
  · intro l' b hb
    by_cases hba : b = a
    · subst hba
      rwa [h.one_list l' l b hb ha]
    · rw [hother b hba]
      exact h.fits l' b hb
  · intro p b hb hb' hstate
    by_cases hba : b = a
    · exact ⟨l, hba ▸ ha⟩
    · rw [hother b hba] at hstate
      exact h.listed p b ((hlive p b).mp hb) hb' hstate
  · intro b hb hb'
    by_cases hba : b = a
    · subst hba
      exact href (h.pools_disjoint _ _ b (h.live l b ha).1 ((hlive _ b).mp hb).1)
    · rw [hother b hba]
      exact h.refused b ((hlive _ b).mp hb) hb'
  · exact h.off

/-- `TCP_REG` puts the block that is out on a list that it fits. -/
theorem ListInv.tcpReg (h : ListInv s nodes [a]) (hlive : s.Live l.pool a) (hfits : l.Fits (s.block a))
    (href : l.pool = .tcpPcb → (s.block a).pcb.refusedData = none) :
    ListInv (s.tcpReg l a) (Function.update nodes l (a :: nodes l)) [] := by
  -- the block is at the front of its list and on no other
  have hmem : ∀ l' b, b ∈ Function.update nodes l (a :: nodes l) l' → b ∈ nodes l' ∨ l' = l ∧ b = a := by
    intro l' b hb
    by_cases hl : l' = l
    · subst hl
      rw [Function.update_self] at hb
      exact (List.mem_cons.mp hb).symm.imp_right fun heq => ⟨rfl, heq⟩
    · rw [Function.update_of_ne hl] at hb
      exact .inl hb
  have hblock : ∀ b, (s.tcpReg l a).block b = { s.block b with next := (s.tcpReg l a).next b } :=
    ((relinked_setNext s a (s.head l)).trans (relinked_setHead _ l a)).block_eq
  have ha0 : a ≠ 0 := fun h0 => h.elems_ne_null _ (h0 ▸ hlive.1)
  constructor
  · refine ⟨fun l' => ?_, fun l' h0 => ?_⟩
    · rw [Store.tcpReg, next_setHead, next_setNext, head_setHead, head_setNext]
      by_cases hl : l' = l
      · subst hl
        rw [Function.update_self, Function.update_self]
        exact (h.path l').push (h.off a List.mem_cons_self l')
      · rw [Function.update_of_ne hl, Function.update_of_ne hl]
        exact (path_update (h.off a List.mem_cons_self l')).mpr (h.path l')
    · rcases hmem l' 0 h0 with h0 | ⟨-, h0⟩
      · exact h.ne_null l' h0
      · exact ha0 h0.symm
  · exact h.pools_disjoint
  · exact h.free_elems
  · exact h.free_nodup
  · exact h.elems_ne_null
  · intro l' b hb
    rcases hmem l' b hb with hb | ⟨rfl, rfl⟩
    · exact h.live l' b hb
    · exact hlive
  · intro l₁ l₂ b h₁ h₂
    rcases hmem l₁ b h₁ with hb₁ | ⟨rfl, rfl⟩
    · rcases hmem l₂ b h₂ with hb₂ | ⟨rfl, rfl⟩
      · exact h.one_list l₁ l₂ b hb₁ hb₂
      · exact absurd hb₁ (h.off b List.mem_cons_self l₁)
    · rcases hmem l₂ b h₂ with hb₂ | ⟨rfl, -⟩
      · exact absurd hb₂ (h.off b List.mem_cons_self l₂)
      · rfl
  · intro l' b hb
    rw [hblock, fits_next]
    rcases hmem l' b hb with hb | ⟨rfl, rfl⟩
    · exact h.fits l' b hb
    · exact hfits
  · intro p b hb _ hstate
    rw [hblock] at hstate
    by_cases hba : b = a
    · exact ⟨l, by rw [Function.update_self, hba]; exact List.mem_cons_self⟩
    · obtain ⟨l', hl'⟩ := h.listed p b hb (List.mem_singleton.not.mpr hba) hstate
      refine ⟨l', ?_⟩
      by_cases hl : l' = l
      · subst hl
        rw [Function.update_self]
        exact List.mem_cons_of_mem a hl'
      · rwa [Function.update_of_ne hl]
  · intro b hb _
    rw [hblock]
    by_cases hba : b = a
    · subst hba
      exact href (h.pools_disjoint _ _ b hlive.1 hb.1)
    · exact h.refused b hb (List.mem_singleton.not.mpr hba)
  · exact fun _ h' => nomatch h'

/-- The block is the next one to be handed out. -/
theorem free_mempFree (s : Store) (p : Pool) (a : ℕ) :
    (s.mempFree p a).free = Function.update s.free p (a :: s.free p) := rfl

/-- `memp_free` returns the block that is out. -/
theorem ListInv.mempFree (h : ListInv s nodes (a :: out)) (hlive : s.Live p a) :
    ListInv (s.mempFree p a) nodes out := by
  -- the pool has one free block more
  have hfree : ∀ q b, b ∈ (s.mempFree p a).free q ↔ b ∈ s.free q ∨ q = p ∧ b = a := by
    intro q b
    rw [free_mempFree]
    by_cases hq : q = p
    · subst hq
      rw [Function.update_self, List.mem_cons]
      tauto
    · rw [Function.update_of_ne hq]
      tauto
  have hlive' : ∀ q b, (s.mempFree p a).Live q b → s.Live q b ∧ b ≠ a := by
    rintro q b ⟨helem, hnot⟩
    rw [hfree, not_or] at hnot
    refine ⟨⟨helem, hnot.1⟩, ?_⟩
    rintro rfl
    exact hnot.2 ⟨h.pools_disjoint _ _ b helem hlive.1, rfl⟩
  constructor
  · exact ⟨h.path, h.ne_null⟩
  · exact h.pools_disjoint
  · intro q b hb
    rcases (hfree q b).mp hb with hb | ⟨rfl, rfl⟩
    · exact h.free_elems q b hb
    · exact hlive.1
  · intro q
    rw [free_mempFree]
    by_cases hq : q = p
    · subst hq
      rw [Function.update_self]
      exact List.nodup_cons.mpr ⟨hlive.2, h.free_nodup q⟩
    · rw [Function.update_of_ne hq]
      exact h.free_nodup q
  · exact h.elems_ne_null
  · intro l b hb
    obtain ⟨helem, hnot⟩ := h.live l b hb
    refine ⟨helem, fun hb' => ?_⟩
    rcases (hfree _ b).mp hb' with hb' | ⟨-, rfl⟩
    · exact hnot hb'
    · exact h.off b List.mem_cons_self l hb
  · exact h.one_list
  · exact h.fits
  · intro q b hb hout hstate
    obtain ⟨hb, hne⟩ := hlive' q b hb
    exact h.listed q b hb (List.not_mem_cons_of_ne_of_not_mem hne hout) hstate
  · intro b hb hout
    obtain ⟨hb, hne⟩ := hlive' .tcpPcb b hb
    exact h.refused b hb (List.not_mem_cons_of_ne_of_not_mem hne hout)
  · exact fun b hb => h.off b (List.mem_cons_of_mem a hb)

/-- A closed block without a port may stay on no list. -/
theorem ListInv.leave (h : ListInv s nodes [a]) (hlive : s.Live .tcpPcb a) (hstate : (s.block a).pcb.state = .closed)
    (hport : (s.block a).localPort = 0) (href : (s.block a).pcb.refusedData = none) : ListInv s nodes [] where
  toLinked := h.toLinked
  pools_disjoint := h.pools_disjoint
  free_elems := h.free_elems
  free_nodup := h.free_nodup
  elems_ne_null := h.elems_ne_null
  live := h.live
  one_list := h.one_list
  fits := h.fits
  listed p b hb _ hb' := by
    refine h.listed p b hb (List.mem_singleton.not.mpr ?_) hb'
    rintro rfl
    rcases hb' with rfl | hne | hne
    · exact absurd (h.pools_disjoint _ _ b hb.1 hlive.1) (by decide)
    · exact hne hstate
    · exact hne hport
  refused b hb _ := by
    by_cases hba : b = a
    · exact hba ▸ href
    · exact h.refused b hb (List.mem_singleton.not.mpr hba)
  off _ h' := nomatch h'

/-- A block that is on no list is out. -/
theorem ListInv.takeOut (h : ListInv s nodes out) (hoff : ∀ l, a ∉ nodes l) : ListInv s nodes (a :: out) where
  toLinked := h.toLinked
  pools_disjoint := h.pools_disjoint
  free_elems := h.free_elems
  free_nodup := h.free_nodup
  elems_ne_null := h.elems_ne_null
  live := h.live
  one_list := h.one_list
  fits := h.fits
  listed p b hb hne hb' := h.listed p b hb (fun hm => hne (List.mem_cons_of_mem a hm)) hb'
  refused b hb hne := h.refused b hb fun hm => hne (List.mem_cons_of_mem a hm)
  off b hb l := by
    rcases List.mem_cons.mp hb with rfl | hb
    · exact hoff l
    · exact h.off b hb l

/-- `memp_malloc` takes a block that is on no list. -/
theorem ListInv.mempMalloc (h : ListInv s nodes []) (hrun : s.mempMalloc p = some (a, s')) :
    ListInv s' nodes [a] ∧ s'.Live p a ∧ s'.block = s.block ∧ s'.elems = s.elems ∧ ∀ q b, s.Live q b → s'.Live q b := by
  rw [Store.mempMalloc] at hrun
  cases hfree : s.free p with
  | nil =>
      rw [hfree] at hrun
      cases hrun
  | cons x rest =>
      rw [hfree] at hrun
      obtain ⟨rfl, rfl⟩ := Prod.mk.inj (Option.some.inj hrun)
      have hx : x ∈ s.free p := hfree ▸ List.mem_cons_self
      have hnd := h.free_nodup p
      rw [hfree] at hnd
      -- the pool has one free block less, and what is live stays so
      have hsub : ∀ q, (Function.update s.free p rest q).Sublist (s.free q) := by
        intro q
        by_cases hq : q = p
        · subst hq
          rw [Function.update_self, hfree]
          exact List.sublist_cons_self x rest
        · rw [Function.update_of_ne hq]
      have hlive : ∀ q b, b ∈ s.elems q → b ∉ Function.update s.free p rest q → b ≠ x → s.Live q b := by
        intro q b helem hnot hne
        refine ⟨helem, fun hb => hnot ?_⟩
        by_cases hq : q = p
        · subst hq
          rw [Function.update_self]
          rw [hfree] at hb
          exact (List.mem_cons.mp hb).resolve_left hne
        · rwa [Function.update_of_ne hq]
      -- a free block is on no list
      have hoff : ∀ l, x ∉ nodes l := fun l hl => by
        have hl := h.live l x hl
        rw [h.pools_disjoint _ _ x hl.1 (h.free_elems p x hx)] at hl
        exact hl.2 hx
      refine ⟨⟨⟨h.path, h.ne_null⟩, h.pools_disjoint, ?_, ?_, h.elems_ne_null, ?_, h.one_list, h.fits, ?_, ?_, ?_⟩,
        ⟨h.free_elems p x hx, ?_⟩, rfl, rfl, fun q b hb => ⟨hb.1, fun hm => hb.2 ((hsub q).subset hm)⟩⟩
      · exact fun q b hb => h.free_elems q b ((hsub q).subset hb)
      · exact fun q => (h.free_nodup q).sublist (hsub q)
      · exact fun l b hb => ⟨(h.live l b hb).1, fun hb' => (h.live l b hb).2 ((hsub _).subset hb')⟩
      · intro q b hb hne hstate
        have hbx := List.ne_of_not_mem_cons hne
        exact h.listed q b (hlive q b hb.1 hb.2 hbx) List.not_mem_nil hstate
      · intro b hb hne
        have hbx := List.ne_of_not_mem_cons hne
        exact h.refused b (hlive _ b hb.1 hb.2 hbx) List.not_mem_nil
      · exact fun b hb l => List.mem_singleton.mp hb ▸ hoff l
      · have hself : Function.update s.free p rest p = rest := Function.update_self _ _ _
        simp only [hself]
        exact (List.nodup_cons.mp hnd).1

end BareMetal.Tcp
