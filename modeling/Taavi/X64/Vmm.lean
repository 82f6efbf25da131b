import Taavi.X64.Paging

/-!
# The virtual memory manager of the x86_64

`kernel/arch/x86_64/mm/vmm/vmm.c`: ranges of pages, the release of an address space, and kernel
stacks with a guard page. The physical memory manager is a parameter.
-/

namespace Taavi.X64

open Lib
open Paging (Machine invalidPhysicalPage pageRw)

def pageNx : ℕ := 2 ^ 63

def kernelStackPages : ℕ := 16

def kstackRegionBase : ℕ := 0xFFFFC00000000000

def kstackSlotSize : ℕ := (kernelStackPages + 1) * pageSize

variable {α : Type*} (alloc : α → ℕ × α) (free : α → ℕ → α × Bool)

def clearFrame (s : Machine α) (frame : ℕ) : Machine α :=
  { s with mem := assign s.mem frame fun _ => 0 }

/-- The rollback of `vmm_alloc`: the pages from `virtStart` up to `virt` are given back. -/
def vmmRollback (dir virtStart : ℕ) : ℕ → Machine α → ℕ → Machine α
  | 0, s, _ => s
  | fuel + 1, s, virt =>
    if virtStart < virt then
      let virt := virt - pageSize
      let physAddr := pagingGetPhys s dir virt
      let s := if physAddr ≠ invalidPhysicalPage then { s with pmm := (free s.pmm physAddr).1 }
        else s
      vmmRollback dir virtStart fuel (pagingUnmap alloc s dir virt).1 virt
    else s

/-- The loop of `vmm_alloc`, with the number of pages that are left. -/
def vmmAllocLoop (dir virtStart flags : ℕ) : ℕ → Machine α → ℕ → Machine α × Bool
  | 0, s, _ => (s, true)
  | pages + 1, s, virt =>
    let (addr, pmm) := alloc s.pmm
    let s := { s with pmm }
    if addr = 0 then (vmmRollback alloc free dir virtStart (virt / pageSize) s virt, false)
    else
      match pagingMap alloc (clearFrame s (addr / pageSize)) dir virt addr flags with
      | (s, true) => vmmAllocLoop dir virtStart flags pages s ((virt + pageSize) % 2 ^ 64)
      | (s, false) => (vmmRollback alloc free dir virtStart (virt / pageSize) s virt, false)

def pagesOf (size : ℕ) : ℕ := (size + pageSize - 1) % 2 ^ 64 / pageSize

/-- `vmm_alloc`. `true` is `STATUS_OK`. -/
def vmmAlloc (s : Machine α) (dir virt size flags : ℕ) : Machine α × Bool :=
  if dir = 0 ∨ size = 0 ∨ virt % pageSize ≠ 0 then (s, false)
  else vmmAllocLoop alloc free dir virt flags (pagesOf size) s virt

/-- The loop of `vmm_free`, with the number of pages that are left. -/
def vmmFreeLoop (dir : ℕ) : ℕ → Machine α → ℕ → Machine α
  | 0, s, _ => s
  | pages + 1, s, virt =>
    let physAddr := pagingGetPhys s dir virt
    let s :=
      if physAddr ≠ invalidPhysicalPage then
        let s := (pagingUnmap alloc s dir virt).1
        { s with pmm := (free s.pmm physAddr).1 }
      else s
    vmmFreeLoop dir pages s ((virt + pageSize) % 2 ^ 64)

def vmmFree (s : Machine α) (dir virt size : ℕ) : Machine α × Bool :=
  if dir = 0 then (s, false) else (vmmFreeLoop alloc free dir (pagesOf size) s virt, true)

def vmmCreateDir (s : Machine α) : Machine α × ℕ := pagingCreateDirectory alloc s

/-- One pass of `vmm_free_user_space`. What an entry leads to is released before its frame. -/
def releaseEntry (below : Machine α → ℕ → Machine α) (table : ℕ) (s : Machine α) (i : ℕ) :
    Machine α :=
  if !(s.mem table i).testBit 0 then s
  else
    let s := below s (frameOf (s.mem table i))
    { s with
      mem := storeWord s.mem table i 0
      pmm := (free s.pmm (s.mem table i &&& pageFrameMask)).1 }

/-- The nested loops of `vmm_free_user_space` below a table with the given number of levels. -/
def releaseBelow : ℕ → Machine α → ℕ → Machine α
  | 0, s, _ => s
  | level + 1, s, table =>
    (List.range entriesPerTable).foldl (releaseEntry free (releaseBelow level) table) s

def vmmFreeUserSpace (s : Machine α) (dir : ℕ) : Machine α × Bool :=
  if dir = 0 then (s, false)
  else
    ((List.range kernelPdIndexStart).foldl (releaseEntry free (releaseBelow free 3) dir) s, true)

/-- The globals of the kernel stacks. -/
structure Kstacks (α : Type*) where
  machine : Machine α
  kstackMap : ℕ → ℕ

/-- The address at which the slot of a kernel stack begins. -/
def kstackBase (i : ℕ) : ℕ := kstackRegionBase + i * kstackSlotSize

/-- `vmm_alloc_kstack`, which gives the end of the stack, or nothing for `STATUS_ERROR`. -/
def vmmAllocKstack (s : Kstacks α) : Kstacks α × Option ℕ :=
  match firstSlot maxTasks fun i => s.kstackMap i == 0 with
  | none => (s, none)
  | some i =>
    match vmmAlloc alloc free s.machine s.machine.kernelPageDir (kstackBase i + pageSize)
        (kernelStackPages * pageSize) (pageRw ||| pageNx) with
    | (machine, false) => ({ s with machine }, none)
    | (machine, true) =>
      ({ machine, kstackMap := assign s.kstackMap i 1 }, some (kstackBase i + kstackSlotSize))

def vmmFreeKstack (s : Kstacks α) (kernelStack : ℕ) : Kstacks α × Bool :=
  let base := (kernelStack + 2 ^ 64 - kstackSlotSize) % 2 ^ 64
  let offset := (base + 2 ^ 64 - kstackRegionBase) % 2 ^ 64
  let index := offset / kstackSlotSize
  if maxTasks ≤ index then (s, false)
  else if s.kstackMap index = 0 then (s, false)
  else
    match vmmFree alloc free s.machine s.machine.kernelPageDir
        ((kernelStack + 2 ^ 64 - kernelStackPages * pageSize) % 2 ^ 64)
        (kernelStackPages * pageSize) with
    | (machine, false) => ({ s with machine }, false)
    | (machine, true) => ({ machine, kstackMap := assign s.kstackMap index 0 }, true)

end Taavi.X64
