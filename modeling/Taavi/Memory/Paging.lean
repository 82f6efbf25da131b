import Taavi.Config
import Taavi.Lib.TableTree

/-!
# Paging on the i686

`paging.c` and `vmm.c` of `kernel/arch/x86/mm`. Memory is a family of frames of words, and a pointer
to a table is the number of its frame, with `0` for `NULL`. The physical memory manager is a
parameter.
-/

namespace Taavi.Paging

open Lib

def pagePresent : ℕ := 1

def pageRw : ℕ := 2

def pageUser : ℕ := 4

def entriesPerTable : ℕ := 1024

def kernelPdIndexStart : ℕ := 768

def invalidPhysicalPage : ℕ := 0xFFFFFFFF

def vgaMemoryAddress : ℕ := 0xC00B8000

def vgaPhysicalAddress : ℕ := 0x000B8000

def pdIndex (virt : ℕ) : ℕ := virt / 2 ^ 22

def ptIndex (virt : ℕ) : ℕ := virt / 2 ^ 12 % entriesPerTable

/-- The frame that an entry names, if it is present. -/
def tableOf (entry : ℕ) : Option ℕ :=
  if entry.testBit 0 then some (entry / pageSize) else none

/-- The memory, the directory of the kernel and the physical memory manager. -/
structure Machine (α : Type*) where
  mem : ℕ → ℕ → ℕ
  kernelPageDir : ℕ
  pmm : α

/-- `deferred_map_entry_t`, of an entry that is taken. -/
structure DeferredMapping where
  virt : ℕ
  phys : ℕ
  flags : ℕ
  pageCount : ℕ

variable {α : Type*}

def pdFlags (flags : ℕ) : ℕ :=
  if flags.testBit 2 then pagePresent ||| pageRw ||| pageUser else pagePresent ||| pageRw

def Machine.setPage (s : Machine α) (dir virt entry : ℕ) : Machine α :=
  { s with mem := storeWord s.mem (s.mem dir (pdIndex virt) / pageSize) (ptIndex virt) entry }

variable (alloc : α → ℕ × α)

/-- `paging_map`. `true` is `STATUS_OK`. -/
def pagingMap (s : Machine α) (dir virt phys flags : ℕ) : Machine α × Bool :=
  if dir = 0 then (s, false)
  else if (s.mem dir (pdIndex virt)).testBit 0 then
    (s.setPage dir virt (phys ||| flags ||| pagePresent), true)
  else
    let (physAddr, pmm) := alloc s.pmm
    if physAddr = 0 then ({ s with pmm }, false)
    else
      let mem := install s.mem dir (pdIndex virt) (physAddr / pageSize) 0
        (physAddr ||| pdFlags flags)
      (({ s with mem, pmm }).setPage dir virt (phys ||| flags ||| pagePresent), true)

/-- `paging_unmap`. `true` is `STATUS_OK`. -/
def pagingUnmap (s : Machine α) (dir virt : ℕ) : Machine α × Bool :=
  if dir = 0 then (s, false)
  else if (s.mem dir (pdIndex virt)).testBit 0 then (s.setPage dir virt 0, true)
  else (s, false)

def pagingGetPhys (s : Machine α) (dir virt : ℕ) : ℕ :=
  if dir = 0 then invalidPhysicalPage
  else if (s.mem dir (pdIndex virt)).testBit 0 then
    s.mem (s.mem dir (pdIndex virt) / pageSize) (ptIndex virt) / pageSize * pageSize
  else invalidPhysicalPage

/-- The entries of a new directory. Those of the kernel half are the kernel's. -/
def directoryContent (s : Machine α) (i : ℕ) : ℕ :=
  if kernelPdIndexStart ≤ i then s.mem s.kernelPageDir i else 0

def pagingCreateDirectory (s : Machine α) : Machine α × ℕ :=
  let (physPage, pmm) := alloc s.pmm
  if physPage = 0 then ({ s with pmm }, 0)
  else
    ({ s with mem := assign s.mem (physPage / pageSize) (directoryContent s), pmm },
      physPage / pageSize)

/-- Map consecutive pages. A failed call is not noticed. -/
def mapPages (s : Machine α) (dir virt phys flags count : ℕ) : Machine α :=
  (List.range count).foldl
    (fun s i => (pagingMap alloc s dir ((virt + i * pageSize) % 2 ^ 32)
      ((phys + i * pageSize) % 2 ^ 32) flags).1) s

/-- `paging_init`, up to the switch to the directory of the kernel. -/
def pagingInit (s : Machine α) (totalBytes : ℕ) (deferred : List DeferredMapping) : Machine α :=
  let s := { s with mem := assign s.mem s.kernelPageDir fun _ => 0 }
  let pages := (totalBytes + 2 ^ 32 - kernelPhysicalAddress) % 2 ^ 32 / pageSize
  let s := mapPages alloc s s.kernelPageDir (kernelVirtualBase + kernelPhysicalAddress)
    kernelPhysicalAddress (pagePresent ||| pageRw) pages
  let s := (pagingMap alloc s s.kernelPageDir vgaMemoryAddress vgaPhysicalAddress
    (pagePresent ||| pageRw)).1
  deferred.foldl (fun s m => mapPages alloc s s.kernelPageDir m.virt m.phys m.flags m.pageCount) s

variable (free : α → ℕ → α × Bool)

/-- The rollback of `vmm_alloc`: the pages from `virtStart` up to `virt` are given back. -/
def vmmRollback (dir virtStart : ℕ) : ℕ → Machine α → ℕ → Machine α
  | 0, s, _ => s
  | fuel + 1, s, virt =>
    if virtStart < virt then
      let virt := virt - pageSize
      let physAddr := pagingGetPhys s dir virt
      let s := if physAddr ≠ invalidPhysicalPage then { s with pmm := (free s.pmm physAddr).1 }
        else s
      vmmRollback dir virtStart fuel (pagingUnmap s dir virt).1 virt
    else s

/-- The loop of `vmm_alloc`, with the number of pages that are left. -/
def vmmAllocLoop (dir virtStart flags : ℕ) : ℕ → Machine α → ℕ → Machine α × Bool
  | 0, s, _ => (s, true)
  | pages + 1, s, virt =>
    let (addr, pmm) := alloc s.pmm
    let s := { s with pmm }
    if addr = 0 then (vmmRollback free dir virtStart maxPages s virt, false)
    else
      match pagingMap alloc s dir virt addr flags with
      | (s, true) => vmmAllocLoop dir virtStart flags pages s ((virt + pageSize) % 2 ^ 32)
      | (s, false) => ({ s with pmm := (free s.pmm (pagingGetPhys s dir virt)).1 }, false)

/-- `vmm_alloc`. `true` is `STATUS_OK`. -/
def vmmAlloc (s : Machine α) (dir virt size flags : ℕ) : Machine α × Bool :=
  if dir = 0 then (s, false)
  else vmmAllocLoop alloc free dir virt flags ((size + pageSize - 1) % 2 ^ 32 / pageSize) s virt

end Taavi.Paging
