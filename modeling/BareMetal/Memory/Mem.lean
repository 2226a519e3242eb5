import BareMetal.Lib.Run
import BareMetal.Lib.Align
import BareMetal.Lib.ByteMem

/-! # The heap of `mem.c`

The heap is a doubly linked list of `struct mem` headers stored as offsets inside the memory that it
manages. A pointer into the heap is modelled by its offset from `ram`; the pointers that callers see
are addresses. `mem_size_t` has two bytes or four, as `MEM_SIZE` says, and a store truncates to it. The
two loops of `mem_malloc` run on fuel: the result is `none` when it is used up, and the proofs show that
one unit for each byte of the heap is always enough. Assertions and statistics are left out. -/

namespace BareMetal.Mem

/-- `MEM_ALIGNMENT`, `MEM_SIZE` and the aligned address of the heap. The fields say that the heap can
hold a block and that its offsets fit into `mem_size_t` and its addresses into 32 bits. -/
structure Config where
  memAlignment : ℕ
  memSize : ℕ
  /-- `ram`. -/
  ram : ℕ
  isAlignment : IsAlignment memAlignment
  ram_dvd : memAlignment ∣ ram
  ram_pos : 0 < ram
  block_fits : alignUp memAlignment (3 * if 64000 < memSize then 4 else 2) + alignUp memAlignment 12 ≤
    alignUp memAlignment memSize
  memSize_fits : alignUp memAlignment memSize < 256 ^ if 64000 < memSize then 4 else 2
  ram_fits : ram + alignUp memAlignment memSize +
    alignUp memAlignment (3 * if 64000 < memSize then 4 else 2) < 2 ^ 32

namespace Config

variable (c : Config)

/-- The bytes of a `mem_size_t`. -/
def memSizeT : ℕ := if 64000 < c.memSize then 4 else 2

/-- `SIZEOF_STRUCT_MEM`: two `mem_size_t` and a byte, padded to their alignment. -/
def sizeofStructMem : ℕ := alignUp c.memAlignment (3 * c.memSizeT)

/-- `MIN_SIZE_ALIGNED`. -/
def minSizeAligned : ℕ := alignUp c.memAlignment 12

/-- `MEM_SIZE_ALIGNED`. -/
def memSizeAligned : ℕ := alignUp c.memAlignment c.memSize

/-- `LWIP_MEM_ALIGN_SIZE(size)` assigned to a `mem_size_t`. -/
def memAlignSize (size : ℕ) : ℕ := alignUp c.memAlignment size % 256 ^ c.memSizeT

end Config

variable (c : Config)

/-- `mem->next`. -/
def next (m : ByteMem) (mem : ℕ) : ℕ := loadLE m c.memSizeT mem

/-- `mem->prev`. -/
def prev (m : ByteMem) (mem : ℕ) : ℕ := loadLE m c.memSizeT (mem + c.memSizeT)

/-- `mem->used != 0`. -/
def used (m : ByteMem) (mem : ℕ) : Bool := m (mem + 2 * c.memSizeT) != 0

/-- `mem->next = v`. -/
def setNext (m : ByteMem) (mem v : ℕ) : ByteMem := storeLE m c.memSizeT mem v

/-- `mem->prev = v`. -/
def setPrev (m : ByteMem) (mem v : ℕ) : ByteMem := storeLE m c.memSizeT (mem + c.memSizeT) v

/-- `mem->used = v`. -/
def setUsed (m : ByteMem) (mem : ℕ) (v : UInt8) : ByteMem :=
  Function.update m (mem + 2 * c.memSizeT) v

/-- The memory from `ram` on, and `lfree`. -/
structure Heap where
  mem : ByteMem
  lfree : ℕ

/-- `mem_init`. -/
def memInit (m : ByteMem) : Heap where
  mem :=
    let m := setNext c m 0 c.memSizeAligned
    let m := setPrev c m 0 0
    let m := setUsed c m 0 0
    let m := setUsed c m c.memSizeAligned 1
    let m := setNext c m c.memSizeAligned c.memSizeAligned
    setPrev c m c.memSizeAligned c.memSizeAligned
  lfree := 0

/-- The forward half of `plug_holes`. -/
def plugForward (h : Heap) (mem : ℕ) : Heap :=
  let nmem := next c h.mem mem
  if mem ≠ nmem ∧ used c h.mem nmem = false ∧ nmem ≠ c.memSizeAligned then
    let m := setNext c h.mem mem (next c h.mem nmem)
    { mem := setPrev c m (next c m nmem) mem
      lfree := if h.lfree = nmem then mem else h.lfree }
  else h

/-- The backward half of `plug_holes`. -/
def plugBackward (h : Heap) (mem : ℕ) : Heap :=
  let pmem := prev c h.mem mem
  if pmem ≠ mem ∧ used c h.mem pmem = false then
    let m := setNext c h.mem pmem (next c h.mem mem)
    { mem := setPrev c m (next c m mem) pmem
      lfree := if h.lfree = mem then pmem else h.lfree }
  else h

/-- `plug_holes`. -/
def plugHoles (h : Heap) (mem : ℕ) : Heap := plugBackward c (plugForward c h mem) mem

/-- `mem_free(rmem)`. -/
def memFree (h : Heap) (rmem : ℕ) : Heap :=
  if rmem = 0 then h
  else if rmem < c.ram ∨ c.ram + c.memSizeAligned ≤ rmem then h
  else
    let mem := rmem - c.sizeofStructMem - c.ram
    plugHoles c { mem := setUsed c h.mem mem 0
                  lfree := if mem < h.lfree then mem else h.lfree } mem

/-- Put the header of a free block at `ptr2`, behind the block `ptr` and in front of `next`; both
`mem_trim` and `mem_malloc` write it this way. -/
def insertFree (m : ByteMem) (ptr ptr2 next' : ℕ) : ByteMem :=
  let m := setUsed c m ptr2 0
  let m := setNext c m ptr2 next'
  setPrev c m ptr2 ptr

/-- `if (mem2->next != MEM_SIZE_ALIGNED) ram[mem2->next]->prev = ptr2`. -/
def relinkPrev (m : ByteMem) (ptr2 : ℕ) : ByteMem :=
  if next c m ptr2 ≠ c.memSizeAligned then setPrev c m (next c m ptr2) ptr2 else m

/-- `mem->next - (ptr + SIZEOF_STRUCT_MEM)` in unsigned 32-bit arithmetic. -/
def userSize (m : ByteMem) (ptr : ℕ) : ℕ :=
  (next c m ptr + 2 ^ 32 - (ptr + c.sizeofStructMem)) % 2 ^ 32

/-- The end of `mem_trim`: the `size` data bytes of the block `ptr` are cut down to `newsize`. -/
def shrinkBlock (h : Heap) (ptr size newsize : ℕ) : Heap :=
  let mem2 := next c h.mem ptr
  let ptr2 := ptr + c.sizeofStructMem + newsize
  if used c h.mem mem2 = false then
    -- the free block behind is moved down
    let m := insertFree c h.mem ptr ptr2 (next c h.mem mem2)
    { mem := relinkPrev c (setNext c m ptr ptr2) ptr2
      lfree := if h.lfree = mem2 then ptr2 else h.lfree }
  else if newsize + c.sizeofStructMem + c.minSizeAligned ≤ size then
    -- a new free block is made of the rest
    let m := insertFree c h.mem ptr ptr2 (next c h.mem ptr)
    { mem := relinkPrev c (setNext c m ptr ptr2) ptr2
      lfree := if ptr2 < h.lfree then ptr2 else h.lfree }
  else h

/-- `mem_trim(rmem, newsize)`; the pointer returned and the heap. -/
def memTrim (h : Heap) (rmem newsize : ℕ) : ℕ × Heap :=
  let newsize := c.memAlignSize newsize
  let newsize := if newsize < c.minSizeAligned then c.minSizeAligned else newsize
  if c.memSizeAligned < newsize then (0, h)
  else if rmem < c.ram ∨ c.ram + c.memSizeAligned ≤ rmem then (rmem, h)
  else
    let ptr := rmem - c.sizeofStructMem - c.ram
    let size := userSize c h.mem ptr % 256 ^ c.memSizeT
    if size < newsize then (0, h)
    else if newsize = size then (rmem, h)
    else (rmem, shrinkBlock c h ptr size newsize)

/-- The search of `mem_malloc` for the first block from `ptr` on that is large enough: `some none` when
the loop ends without one, and `none` when the fuel does. -/
def findFit (m : ByteMem) (size : ℕ) : ℕ → ℕ → Option (Option ℕ)
  | 0, _ => none
  | fuel + 1, ptr =>
      if ptr < c.memSizeAligned - size then
        if used c m ptr = false ∧ size ≤ userSize c m ptr then some (some ptr)
        else findFit m size fuel (next c m ptr)
      else some none

/-- The search of `mem_malloc` for the next free block. -/
def findFree (m : ByteMem) : ℕ → ℕ → Option ℕ
  | 0, _ => none
  | fuel + 1, cur =>
      if used c m cur = true ∧ cur ≠ c.memSizeAligned then findFree m fuel (next c m cur)
      else some cur

/-- Take the block `ptr` for `size` bytes: split it when the rest can be a block, else take all of it. -/
def takeBlock (m : ByteMem) (ptr size : ℕ) : ByteMem :=
  if size + c.sizeofStructMem + c.minSizeAligned ≤ userSize c m ptr then
    let ptr2 := ptr + c.sizeofStructMem + size
    let m := insertFree c m ptr ptr2 (next c m ptr)
    let m := setUsed c (setNext c m ptr ptr2) ptr 1
    relinkPrev c m ptr2
  else setUsed c m ptr 1

/-- One unit of fuel for each byte of the heap, and one for the end. -/
def fuel : ℕ := c.memSizeAligned + 1

/-- `mem_malloc(size)`; the pointer returned and the heap. -/
def memMalloc (h : Heap) (size : ℕ) : Option (ℕ × Heap) :=
  if size = 0 then some (0, h)
  else
    let size := c.memAlignSize size
    let size := if size < c.minSizeAligned then c.minSizeAligned else size
    if c.memSizeAligned < size then some (0, h)
    else
      (findFit c h.mem size (fuel c) h.lfree).bind fun
        | none => some (0, h)
        | some ptr =>
            let m := takeBlock c h.mem ptr size
            (if ptr = h.lfree then findFree c m (fuel c) h.lfree else some h.lfree).map fun lfree =>
              (c.ram + ptr + c.sizeofStructMem, ⟨m, lfree⟩)

end BareMetal.Mem
