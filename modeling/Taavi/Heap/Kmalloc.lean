import Taavi.Config
import Taavi.Lib.ByteMemory
import Taavi.Lib.Loop

/-!
# The kernel heap

`kernel/mm/kmalloc/kmalloc.c`: headers are words of a byte memory. A result is missing exactly when
a loop does not leave. The mapping of new pages is supplied: it fails, or gives the bytes of the
frames.
-/

namespace Taavi.Heap

open Lib

/-- `sizeof(block_header_t)`: the words `magic`, `size` and `next`. -/
def headerSize (A : Arch) : ℕ := 3 * A.word

def magicOf (A : Arch) (m : Memory) (block : ℕ) : ℕ := m.read block A.word

def sizeOf (A : Arch) (m : Memory) (block : ℕ) : ℕ := m.read (block + A.word) A.word

/-- `block->next`, where `NULL` is address zero. -/
def nextOf (A : Arch) (m : Memory) (block : ℕ) : ℕ := m.read (block + 2 * A.word) A.word

def setMagic (A : Arch) (m : Memory) (block v : ℕ) : Memory := m.write block A.word v

def setSize (A : Arch) (m : Memory) (block v : ℕ) : Memory := m.write (block + A.word) A.word v

def setNext (A : Arch) (m : Memory) (block v : ℕ) : Memory :=
  m.write (block + 2 * A.word) A.word v

/-- The memory of the machine and the allocator's globals. -/
structure State where
  mem : Memory
  freeList : ℕ
  remainingHeapSize : ℕ
  currentHeapCeiling : ℕ

/-- One pass of the loop of `update_remaining_heap_size`. -/
def sumBody (A : Arch) (m : Memory) : ℕ × ℕ → (ℕ × ℕ) ⊕ ℕ
  | (current, total) =>
    if current = 0 then .inr total
    else .inl (nextOf A m current, A.wrap (total + (headerSize A + sizeOf A m current)))

/-- `update_remaining_heap_size`: the bytes of all free blocks. -/
def updateRemainingHeapSize (A : Arch) (s : State) : Option State := do
  let total ← loop (sumBody A s.mem) A.addressSpace (s.freeList, 0)
  return { s with remainingHeapSize := total }

/-- One pass of the loop of `__merge`, which leaves with `false` at a corrupted header. -/
def mergeBody (A : Arch) : Memory × ℕ → (Memory × ℕ) ⊕ (Memory × Bool)
  | (m, current) =>
    if current = 0 ∨ nextOf A m current = 0 then .inr (m, true)
    else if magicOf A m (nextOf A m current) ≠ heapMagic then .inr (m, false)
    else if A.wrap (current + headerSize A + sizeOf A m current) = nextOf A m current then
      let m := setSize A m current
        (A.wrap (sizeOf A m current + (headerSize A + sizeOf A m (nextOf A m current))))
      let m := setNext A m current (nextOf A m (nextOf A m current))
      .inl (m, current)
    else .inl (m, nextOf A m current)

/-- `__merge`: join the free blocks that touch. `true` is `STATUS_OK`. -/
def merge (A : Arch) (s : State) : Option (State × Bool) := do
  let (m, ok) ← loop (mergeBody A) A.addressSpace (s.mem, s.freeList)
  let s := { s with mem := m }
  if ok then
    let s ← updateRemainingHeapSize A s
    return (s, true)
  else return (s, false)

/-- One pass of the search of `__kfree` for the last smaller block and the first that is not. -/
def placeBody (A : Arch) (m : Memory) (addr : ℕ) : ℕ × ℕ → (ℕ × ℕ) ⊕ (ℕ × ℕ)
  | (prev, current) =>
    if current ≠ 0 ∧ current < addr then .inl (current, nextOf A m current)
    else .inr (prev, current)

/-- `__kfree`. `true` is `STATUS_OK`. -/
def kfreeBlock (A : Arch) (s : State) (ptr : ℕ) : Option (State × Bool) := do
  let addr := A.wrap (ptr + A.addressSpace - headerSize A)
  if magicOf A s.mem addr ≠ heapMagic then return (s, false)
  else
    let (prev, current) ← loop (placeBody A s.mem addr) A.addressSpace (0, s.freeList)
    if current = addr then return (s, false)
    else
      let m := setNext A s.mem addr current
      if prev = 0 then merge A { s with mem := m, freeList := addr }
      else merge A { s with mem := setNext A m prev addr }

/-- `addition_size`: the bytes by which the heap grows at once. -/
def additionSize : ℕ := additionHeapPageSize * pageSize * 2

/-- One pass of the first-fit search of `__kmalloc`. -/
def fitBody (A : Arch) (m : Memory) (size : ℕ) : ℕ × ℕ → (ℕ × ℕ) ⊕ Option (ℕ × ℕ)
  | (prev, current) =>
    if current = 0 then .inr none
    else if size ≤ sizeOf A m current then .inr (some (prev, current))
    else .inl (current, nextOf A m current)

/-- The split of `__kmalloc`, when the rest can hold a header and a byte. -/
def splitBlock (A : Arch) (m : Memory) (size current : ℕ) : Memory :=
  if A.wrap (size + headerSize A + 1) ≤ sizeOf A m current then
    let split := A.wrap (current + headerSize A + size)
    let m := setSize A m split (sizeOf A m current - size - headerSize A)
    let m := setMagic A m split heapMagic
    let m := setNext A m split (nextOf A m current)
    let m := setSize A m current size
    setNext A m current split
  else m

/-- The end of a successful search: split the block and take it off the free list. -/
def takeBlock (A : Arch) (s : State) (size prev current : ℕ) : State :=
  let m := splitBlock A s.mem size current
  if prev = 0 then { s with mem := m, freeList := nextOf A m current }
  else { s with mem := setNext A m prev (nextOf A m current) }

/-- The growth of `__kmalloc`: the new pages become one block, which is freed into the list. -/
def grow (A : Arch) (s : State) (frames : Memory) : Option State := do
  let block := s.currentHeapCeiling
  let m : Memory := fun x =>
    if block ≤ x ∧ x < block + additionSize then frames x else s.mem x
  let m := setSize A m block (additionSize - headerSize A)
  let m := setMagic A m block heapMagic
  let m := setNext A m block 0
  let (s, _) ← kfreeBlock A { s with mem := m } (A.wrap (block + headerSize A))
  updateRemainingHeapSize A
    { s with currentHeapCeiling := A.wrap (s.currentHeapCeiling + additionSize) }

/-- `__kmalloc`: search, and grow the heap while nothing fits. `vmm i` is the outcome of the `i`-th
`vmm_alloc`. -/
def kmallocLoop (A : Arch) (size : ℕ) (vmm : ℕ → Option Memory) :
    ℕ → ℕ → State → Option (State × ℕ)
  | 0, _, _ => none
  | fuel + 1, i, s => do
    match ← loop (fitBody A s.mem size) A.addressSpace (0, s.freeList) with
    | some (prev, current) =>
      let s ← updateRemainingHeapSize A (takeBlock A s size prev current)
      return (s, A.wrap (current + headerSize A))
    | none =>
      if A.heapCeil < A.wrap (additionSize + s.currentHeapCeiling) then return (s, 0)
      else
        match vmm i with
        | none => return (s, 0)
        | some frames =>
          let s ← grow A s frames
          kmallocLoop A size vmm fuel (i + 1) s

/-- `kmalloc`. The null pointer is zero. -/
def kmalloc (A : Arch) (s : State) (size : ℕ) (vmm : ℕ → Option Memory) : Option (State × ℕ) :=
  if size = 0 then some (s, 0) else kmallocLoop A size vmm A.addressSpace 0 s

/-- `kfree`. `true` is `STATUS_OK`. -/
def kfree (A : Arch) (s : State) (ptr : ℕ) : Option (State × Bool) :=
  if ptr = 0 then some (s, false) else kfreeBlock A s ptr

/-- `kmalloc_init`, with the outcome of its call of `vmm_alloc`. -/
def kmallocInit (A : Arch) (s : State) (start size : ℕ) (vmm : Option Memory) :
    Option (State × Bool) := do
  if start = 0 ∨ size = 0 then return (s, false)
  else
    match vmm with
    | none => return (s, false)
    | some frames =>
      let m : Memory := fun x => if start ≤ x ∧ x < start + size then frames x else s.mem x
      let m := setSize A m start (A.wrap (size + A.addressSpace - headerSize A))
      let m := setMagic A m start heapMagic
      let m := setNext A m start 0
      let s ← updateRemainingHeapSize A
        { s with mem := m, freeList := start, currentHeapCeiling := A.wrap (start + size) }
      return (s, true)

end Taavi.Heap
