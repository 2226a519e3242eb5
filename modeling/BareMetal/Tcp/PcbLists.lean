import BareMetal.Lib.LinkedPath
import BareMetal.Tcp.Input

/-! # The lists of control blocks

All control blocks with their links, and the four list heads of `tcp.c`: the level at which `TCP_REG` and
`TCP_RMV` of `tcp_impl.h` work. A control block is known by its address, and 0 is `NULL`. `Linked s nodes`
says which blocks each list holds; it is what the loops over the lists and the two macros are specified
with. Loops take a bound on their rounds and return `none` when they reach it, as they do on a list that
has become a cycle. -/

namespace BareMetal.Tcp

/-- The lists, in the order of `tcp_pcb_lists[]`. -/
inductive ListName
  | listen
  | bound
  | active
  | timeWait
  deriving DecidableEq, Repr

/-- `tcp_pcb_lists[]`. -/
def tcpPcbLists : List ListName := [.listen, .bound, .active, .timeWait]

/-- The table has all four lists. -/
theorem mem_tcpPcbLists (l : ListName) : l ∈ tcpPcbLists := by cases l <;> decide

/-- The pools of control blocks. -/
inductive Pool
  | tcpPcb
  | tcpPcbListen
  deriving DecidableEq, Repr

/-- The pool that the blocks of a list come from. -/
def ListName.pool : ListName → Pool
  | .listen => .tcpPcbListen
  | _ => .tcpPcb

/-- `TCP_LOCAL_PORT_RANGE_START`. -/
def tcpLocalPortRangeStart : UInt16 := 0xC000

/-- `TCP_LOCAL_PORT_RANGE_END`. -/
def tcpLocalPortRangeEnd : UInt16 := 0xFFFF

/-- The values of `tcp_port`. -/
abbrev LocalPort : Type := { port : UInt16 // tcpLocalPortRangeStart ≤ port }

/-- `struct tcp_pcb` with its link, its addresses and the application behind it. -/
structure Block where
  next : ℕ
  prio : UInt8
  localIp : UInt32
  remoteIp : UInt32
  localPort : UInt16
  remotePort : UInt16
  pcb : Pcb
  app : App

/-- `ip_addr_isany`; `none` is `NULL`. -/
def ipAddrIsany (ipaddr : Option UInt32) : Bool := ipaddr.getD 0 == 0

/-- The control blocks and the globals of `tcp.c`. -/
structure Store where
  block : ℕ → Block
  head : ListName → ℕ
  /-- The elements of a pool. -/
  elems : Pool → List ℕ
  /-- `memp_tab[]`: the free elements of a pool, the first one first. -/
  free : Pool → List ℕ
  tcpPort : LocalPort
  tcpTicks : UInt32
  tcpTimerCtr : UInt8
  tcpInputPcb : ℕ
  tcpActivePcbsChanged : Bool
  /-- `iss` of `tcp_next_iss`. -/
  iss : UInt32

variable {s s' : Store} {nodes : ListName → List ℕ} {l : ListName} {a b x : ℕ} {fuel : ℕ}

/-- `pcb->next`. -/
def Store.next (s : Store) (a : ℕ) : ℕ := (s.block a).next

/-- `pcb->next = b`. -/
def Store.setNext (s : Store) (a b : ℕ) : Store :=
  { s with block := Function.update s.block a { s.block a with next := b } }

/-- Set a list head. -/
def Store.setHead (s : Store) (l : ListName) (a : ℕ) : Store := { s with head := Function.update s.head l a }

/-- Change a control block, not its link. -/
def Store.onBlock (s : Store) (a : ℕ) (f : Block → Block) : Store :=
  { s with block := Function.update s.block a { f (s.block a) with next := s.next a } }

/-- A link is set. -/
@[simp] theorem next_setNext (s : Store) (a b : ℕ) : (s.setNext a b).next = Function.update s.next a b := by
  funext x
  by_cases hx : x = a
  · subst hx
    simp [Store.next, Store.setNext]
  · simp [Store.next, Store.setNext, hx]

/-- The heads are not links. -/
@[simp] theorem next_setHead (s : Store) (l : ListName) (a : ℕ) : (s.setHead l a).next = s.next := rfl

/-- The links are not heads. -/
@[simp] theorem head_setNext (s : Store) (a b : ℕ) : (s.setNext a b).head = s.head := rfl

/-- A head is set. -/
@[simp] theorem head_setHead (s : Store) (l : ListName) (a : ℕ) :
    (s.setHead l a).head = Function.update s.head l a := rfl

/-- The fields of a block beside its link. -/
@[simp] theorem next_onBlock (s : Store) (a : ℕ) (f : Block → Block) : (s.onBlock a f).next = s.next := by
  funext x
  by_cases hx : x = a
  · subst hx
    simp [Store.next, Store.onBlock]
  · simp [Store.next, Store.onBlock, hx]

/-- The fields of a block are not heads. -/
@[simp] theorem head_onBlock (s : Store) (a : ℕ) (f : Block → Block) : (s.onBlock a f).head = s.head := rfl

/-- `TCP_REG(pcbs, npcb)`. -/
def Store.tcpReg (s : Store) (l : ListName) (a : ℕ) : Store := (s.setNext a (s.head l)).setHead l a

/-- `TCP_RMV(pcbs, npcb)`. -/
def Store.tcpRmv (fuel : ℕ) (s : Store) (l : ListName) (a : ℕ) : Option Store :=
  if s.head l = a then some ((s.setHead l (s.next a)).setNext a 0)
  else
    (findNode 0 s.next (fun x => s.next x == a) fuel (s.head l)).map fun
      | some x => (s.setNext x (s.next a)).setNext a 0
      | none => s.setNext a 0

/-- The search of all lists for a block that satisfies `f`. -/
def Store.anyListed (fuel : ℕ) (s : Store) (f : Block → Bool) : List ListName → Option Bool
  | [] => some false
  | l :: ls => do
      match ← findNode 0 s.next (fun a => f (s.block a)) fuel (s.head l) with
      | some _ => some true
      | none => s.anyListed fuel f ls

/-- The lists hold the blocks `nodes`, and each ends in `NULL`. -/
structure Linked (s : Store) (nodes : ListName → List ℕ) : Prop where
  path : ∀ l, Path s.next (s.head l) (nodes l) 0
  ne_null : ∀ l, 0 ∉ nodes l

/-- The search finds out whether a listed block satisfies `f`. -/
theorem Linked.anyListed_eq (h : Linked s nodes) (hfuel : ∀ l, (nodes l).length ≤ fuel) (f : Block → Bool)
    (ls : List ListName) :
    s.anyListed fuel f ls = some (ls.any fun l => (nodes l).any fun a => f (s.block a)) := by
  induction ls with
  | nil => rfl
  | cons l ls ih =>
      rw [Store.anyListed, findNode_eq (h.path l) (h.ne_null l) (hfuel l), List.any_cons]
      cases hfind : (nodes l).find? fun a => f (s.block a) with
      | some a =>
          have hany : ((nodes l).any fun a => f (s.block a)) = true :=
            List.any_eq_true.mpr ⟨a, List.mem_of_find?_eq_some hfind, List.find?_some (p := fun a => f (s.block a)) hfind⟩
          simp [hany]
      | none =>
          have hany : ((nodes l).any fun a => f (s.block a)) = false :=
            List.any_eq_false.mpr fun a ha => List.find?_eq_none.mp hfind a ha
          simp [hany, ih]

/-- Some listed block satisfies `f`. -/
theorem Linked.anyListed_iff (h : Linked s nodes) (hfuel : ∀ l, (nodes l).length ≤ fuel) (f : Block → Bool) :
    ∃ found, s.anyListed fuel f tcpPcbLists = some found ∧
      (found = true ↔ ∃ l, ∃ a ∈ nodes l, f (s.block a) = true) := by
  refine ⟨_, h.anyListed_eq hfuel f tcpPcbLists, ?_⟩
  simp only [List.any_eq_true]
  constructor
  · rintro ⟨l, -, hl⟩
    exact ⟨l, hl⟩
  · rintro ⟨l, hl⟩
    exact ⟨l, mem_tcpPcbLists l, hl⟩

/-- `s'` is `s` but for the links and the list heads. -/
def Relinked (s s' : Store) : Prop :=
  s' = { s with block := fun x => { s.block x with next := s'.next x }, head := s'.head }

/-- Nothing was linked. -/
theorem Relinked.refl (s : Store) : Relinked s s := rfl

/-- Two relinkings are one. -/
theorem Relinked.trans {s₁ s₂ s₃ : Store} (h₁ : Relinked s₁ s₂) (h₂ : Relinked s₂ s₃) : Relinked s₁ s₃ := by
  rw [Relinked, h₁] at h₂
  exact h₂

/-- Setting a link changes nothing else. -/
theorem relinked_setNext (s : Store) (a b : ℕ) : Relinked s (s.setNext a b) := by
  rw [Relinked, next_setNext, Store.setNext]
  congr 1
  funext x
  by_cases hx : x = a
  · subst hx
    rw [Function.update_self, Function.update_self]
  · rw [Function.update_of_ne hx, Function.update_of_ne hx]
    rfl

/-- Setting a head changes nothing else. -/
theorem relinked_setHead (s : Store) (l : ListName) (a : ℕ) : Relinked s (s.setHead l a) := rfl

/-- Relinking leaves the blocks alone. -/
theorem Relinked.block_eq (h : Relinked s s') (x : ℕ) : s'.block x = { s.block x with next := s'.next x } :=
  congrFun (congrArg Store.block h) x

/-- The blocks are the same but for their links. -/
theorem Relinked.pcb_eq (h : Relinked s s') (x : ℕ) : (s'.block x).pcb = (s.block x).pcb := by
  rw [h.block_eq]

/-- The pools have the same elements. -/
theorem Relinked.elems_eq (h : Relinked s s') : s'.elems = s.elems := by
  rw [Relinked] at h
  rw [h]

/-- The same elements are free. -/
theorem Relinked.free_eq (h : Relinked s s') : s'.free = s.free := by
  rw [Relinked] at h
  rw [h]

/-- `TCP_RMV` takes a block off its list. -/
theorem Linked.tcpRmv (h : Linked s nodes) (hfuel : (nodes l).length ≤ fuel) (ha : a ∈ nodes l)
    (hone : ∀ l', l' ≠ l → ∀ b ∈ nodes l, b ∉ nodes l') :
    ∃ s', s.tcpRmv fuel l a = some s' ∧ Relinked s s' ∧ Linked s' fun l' => (nodes l').erase a := by
  have hne : a ≠ 0 := fun h0 => h.ne_null l (h0 ▸ ha)
  have hnull : ∀ l', 0 ∉ (nodes l').erase a := fun l' h0 => h.ne_null l' (List.mem_of_mem_erase h0)
  have hnd := (h.path l).nodup (h.ne_null l)
  by_cases hhead : s.head l = a
  · -- the head of the list is taken off
    obtain ⟨rest, hrest⟩ : ∃ rest, nodes l = a :: rest := by
      cases hl : nodes l with
      | nil => exact absurd (hl ▸ ha) List.not_mem_nil
      | cons x rest =>
          have hx := (hl ▸ h.path l).1
          exact ⟨rest, by rw [← hx, hhead]⟩
    rw [hrest] at hnd
    refine ⟨_, if_pos hhead, (relinked_setHead s l _).trans (relinked_setNext _ _ _), fun l' => ?_, hnull⟩
    rw [next_setNext, next_setHead, head_setNext, head_setHead]
    by_cases hl' : l' = l
    · subst hl'
      have hpath := h.path l'
      rw [hrest] at hpath
      rw [Function.update_self, hrest, List.erase_cons_head]
      exact (path_update (List.nodup_cons.mp hnd).1).mpr hpath.2
    · rw [Function.update_of_ne hl', List.erase_of_not_mem (hone l' hl' a ha)]
      exact (path_update (hone l' hl' a ha)).mpr (h.path l')
  · -- the block is linked out behind its predecessor
    obtain ⟨p, hp, hpa⟩ := (h.path l).exists_pred ha hhead
    obtain ⟨x, hx⟩ := Option.isSome_iff_exists.mp
      (List.find?_isSome.mpr ⟨p, hp, beq_iff_eq.mpr hpa⟩ : ((nodes l).find? fun x => s.next x == a).isSome)
    have hxa : s.next x = a := beq_iff_eq.mp (List.find?_some (p := fun x => s.next x == a) hx)
    obtain ⟨l₁, l₂, hsplit⟩ := (h.path l).split_of_next (List.mem_of_find?_eq_some hx) hxa hne
    rw [hsplit] at hnd
    have hxl : x ∈ nodes l := List.mem_of_find?_eq_some hx
    have hperm : (l₁ ++ x :: a :: l₂).Perm (a :: (l₁ ++ x :: l₂)) := by
      rw [List.append_cons, List.append_cons l₁ x l₂]
      exact List.perm_middle
    have hal : a ∉ l₁ ++ x :: l₂ := (List.nodup_cons.mp (hperm.nodup hnd)).1
    have herase : (nodes l).erase a = l₁ ++ x :: l₂ := by
      have ha₁ : a ∉ l₁ := fun hm => hal (List.mem_append_left _ hm)
      have hax : x ≠ a := fun heq => hal (heq ▸ List.mem_append_right l₁ List.mem_cons_self)
      rw [hsplit, List.erase_append_right _ ha₁, List.erase_cons_tail (by simpa using hax), List.erase_cons_head]
    refine ⟨(s.setNext x (s.next a)).setNext a 0, ?_,
      (relinked_setNext s _ _).trans (relinked_setNext _ _ _), fun l' => ?_, hnull⟩
    · rw [Store.tcpRmv, if_neg hhead, findNode_eq (h.path l) (h.ne_null l) hfuel, hx]
      rfl
    · rw [next_setNext, next_setNext, head_setNext, head_setNext]
      by_cases hl' : l' = l
      · subst hl'
        rw [herase]
        exact (path_update hal).mpr (Path.unlink (hsplit ▸ h.path l') hnd)
      · rw [List.erase_of_not_mem (hone l' hl' a ha)]
        exact (path_update (hone l' hl' a ha)).mpr ((path_update (hone l' hl' x hxl)).mpr (h.path l'))

/-! ## The axioms -/

/-- A block that was allocated and not returned to its pool. -/
def Store.Live (s : Store) (p : Pool) (a : ℕ) : Prop := a ∈ s.elems p ∧ a ∉ s.free p

/-- What has to hold of the lists, by the comment of `tcp_impl.h` over `TCP_REG`. -/
structure Axioms (s : Store) (nodes : ListName → List ℕ) : Prop extends Linked s nodes where
  pools_disjoint : ∀ p q a, a ∈ s.elems p → a ∈ s.elems q → p = q
  free_elems : ∀ p, ∀ a ∈ s.free p, a ∈ s.elems p
  free_nodup : ∀ p, (s.free p).Nodup
  elems_ne_null : ∀ p, 0 ∉ s.elems p
  /-- No list holds a block that is back in its pool. -/
  live : ∀ l, ∀ a ∈ nodes l, s.Live l.pool a
  /-- Every block that is not closed is on a list. -/
  listed : ∀ p a, s.Live p a → (s.block a).pcb.state ≠ .closed → ∃ l, a ∈ nodes l
  /-- A block is on one list only. -/
  one_list : ∀ l l' a, a ∈ nodes l → a ∈ nodes l' → l = l'
  listen_state : ∀ a ∈ nodes .listen, (s.block a).pcb.state = .listen
  timeWait_state : ∀ a ∈ nodes .timeWait, (s.block a).pcb.state = .timeWait
  active_state : ∀ a ∈ nodes .active, (s.block a).pcb.state ≠ .closed ∧ (s.block a).pcb.state ≠ .listen ∧
    (s.block a).pcb.state ≠ .timeWait

/-- The list of a well-formed state holds each of its blocks once. -/
theorem Linked.nodup (h : Linked s nodes) (l : ListName) : (nodes l).Nodup := (h.path l).nodup (h.ne_null l)

end BareMetal.Tcp
