import Taavi.Memory.Paging

/-!
# Paging on the x86_64

`kernel/arch/x86_64/mm/paging/paging.c`, with four levels and huge pages of 2 MiB. As on the i686,
pointers to tables are numbers of frames, and the physical memory manager is a parameter.
-/

namespace Taavi.X64

open Lib
open Paging (Machine pagePresent pageRw pageUser)

def pageHuge : ℕ := 128

def pageUserRw : ℕ := pagePresent ||| pageRw ||| pageUser

def pageFrameMask : ℕ := 0x000FFFFFFFFFF000

def hugePageSize : ℕ := 2 * 1024 * 1024

def entriesPerTable : ℕ := 512

def kernelPdIndexStart : ℕ := 256

def tableIndex (shift virt : ℕ) : ℕ := virt / 2 ^ shift % entriesPerTable

def pml4Index (virt : ℕ) : ℕ := tableIndex 39 virt

def pdpIndex (virt : ℕ) : ℕ := tableIndex 30 virt

def pdIndex (virt : ℕ) : ℕ := tableIndex 21 virt

def ptIndex (virt : ℕ) : ℕ := tableIndex 12 virt

def frameOf (entry : ℕ) : ℕ := (entry &&& pageFrameMask) / pageSize

/-- `is_canonical`: the shifts of a signed integer of 64 bits. -/
def isCanonical (virt : ℕ) : Bool :=
  (Int.bmod (virt * 2 ^ 16) (2 ^ 64)) / 2 ^ 16 == Int.bmod virt (2 ^ 64)

def isAddressViable (addr : ℕ) : Bool := addr % pageSize == 0

section

variable {α : Type*} (alloc : α → ℕ × α)

def searchOrCreateTable (s : Machine α) (table index : ℕ) (create : Bool) (flags : ℕ) :
    Machine α × Option ℕ :=
  let entry := s.mem table index
  if entry.testBit 0 then
    if entry.testBit 7 then (s, none)
    else if flags.testBit 2 && !entry.testBit 2 then
      ({ s with mem := storeWord s.mem table index (entry ||| pageUser) },
        some (frameOf (entry ||| pageUser)))
    else (s, some (frameOf entry))
  else if !create then (s, none)
  else
    let (physPage, pmm) := alloc s.pmm
    if physPage = 0 then ({ s with pmm }, none)
    else
      let entryFlags := if flags.testBit 2 then pageUserRw else pagePresent ||| pageRw
      let entry := physPage ||| entryFlags
      ({ s with mem := install s.mem table index (physPage / pageSize) 0 entry, pmm },
        some (frameOf entry))

/-- `__search_or_create_table` for one index after the other, up to the first `NULL`. -/
def descend (create : Bool) (flags : ℕ) : Machine α → ℕ → List ℕ → Machine α × Option ℕ
  | s, table, [] => (s, some table)
  | s, table, index :: path =>
    match searchOrCreateTable alloc s table index create flags with
    | (s, none) => (s, none)
    | (s, some next) => descend create flags s next path

/-- `paging_map`. `true` is `STATUS_OK`. -/
def pagingMap (s : Machine α) (dir virt phys flags : ℕ) : Machine α × Bool :=
  if !isAddressViable virt then (s, false)
  else if !isAddressViable phys then (s, false)
  else if !isCanonical virt then (s, false)
  else
    match descend alloc true flags s dir [pml4Index virt, pdpIndex virt, pdIndex virt] with
    | (s, none) => (s, false)
    | (s, some ptTable) =>
      if (s.mem ptTable (ptIndex virt)).testBit 0 then (s, false)
      else
        ({ s with mem := storeWord s.mem ptTable (ptIndex virt) (phys ||| flags ||| pagePresent) },
          true)

def pagingMapHuge (s : Machine α) (dir virt phys flags : ℕ) : Machine α × Bool :=
  if !isAddressViable virt then (s, false)
  else if !isAddressViable phys then (s, false)
  else if !isCanonical virt then (s, false)
  else
    match descend alloc true flags s dir [pml4Index virt, pdpIndex virt] with
    | (s, none) => (s, false)
    | (s, some pdTable) =>
      if (s.mem pdTable (pdIndex virt)).testBit 0 then (s, false)
      else
        let entry := phys ||| flags ||| pagePresent ||| pageHuge
        ({ s with mem := storeWord s.mem pdTable (pdIndex virt) entry }, true)

def pagingUnmap (s : Machine α) (dir virt : ℕ) : Machine α × Bool :=
  if !isAddressViable virt then (s, false)
  else
    match descend alloc false 0 s dir [pml4Index virt, pdpIndex virt, pdIndex virt] with
    | (s, none) => (s, false)
    | (s, some ptTable) =>
      if (s.mem ptTable (ptIndex virt)).testBit 0 then
        ({ s with mem := storeWord s.mem ptTable (ptIndex virt) 0 }, true)
      else (s, false)

def pagingGetPhys (s : Machine α) (dir virt : ℕ) : ℕ :=
  let pml4Entry := s.mem dir (pml4Index virt)
  if !pml4Entry.testBit 0 then 0
  else
    let pdpEntry := s.mem (frameOf pml4Entry) (pdpIndex virt)
    if !pdpEntry.testBit 0 then 0
    else
      let pdEntry := s.mem (frameOf pdpEntry) (pdIndex virt)
      if !pdEntry.testBit 0 then 0
      else if pdEntry.testBit 7 then
        (pdEntry &&& pageFrameMask) + (virt &&& (hugePageSize - 1))
      else
        let ptEntry := s.mem (frameOf pdEntry) (ptIndex virt)
        if !ptEntry.testBit 0 then 0
        else (ptEntry &&& pageFrameMask) + (virt &&& 0xFFF)

/-- The entries of a new directory. Those of the kernel half are the kernel's. -/
def directoryContent (s : Machine α) (i : ℕ) : ℕ :=
  if kernelPdIndexStart ≤ i then s.mem s.kernelPageDir i else 0

def pagingCreateDirectory (s : Machine α) : Machine α × ℕ :=
  let (physPage, pmm) := alloc s.pmm
  if physPage = 0 then ({ s with pmm }, 0)
  else
    ({ s with mem := assign s.mem (physPage / pageSize) (directoryContent s), pmm },
      physPage / pageSize)

/-- The loop of `paging_init` that gives every entry of the kernel half a table. -/
def fillKernelHalf : ℕ → ℕ → Machine α → Machine α × Bool
  | 0, _, s => (s, true)
  | left + 1, i, s =>
    let (physPage, pmm) := alloc s.pmm
    if physPage = 0 then ({ s with pmm }, false)
    else
      let entry := physPage ||| pagePresent ||| pageRw
      fillKernelHalf left (i + 1)
        { s with mem := install s.mem s.kernelPageDir i (physPage / pageSize) 0 entry, pmm }

/-- `paging_init` before the first mapping: an empty directory with its kernel half. -/
def initKernelHalf (s : Machine α) : Machine α × Bool :=
  fillKernelHalf alloc (entriesPerTable - kernelPdIndexStart) kernelPdIndexStart
    { s with mem := assign s.mem s.kernelPageDir fun _ => 0 }

end

/-- The walk of the processor: the entries that it reads, or nothing for a page fault. -/
def pageWalk (mem : ℕ → ℕ → ℕ) : ℕ → List ℕ → Option (List ℕ)
  | _, [] => some []
  | table, index :: path =>
    let entry := mem table index
    if !entry.testBit 0 then none
    else if entry.testBit 7 && !path.isEmpty then some [entry]
    else (pageWalk mem (frameOf entry) path).map (entry :: ·)

def walkOf {α : Type*} (s : Machine α) (dir virt : ℕ) : Option (List ℕ) :=
  pageWalk s.mem dir [pml4Index virt, pdpIndex virt, pdIndex virt, ptIndex virt]

/-- The processor grants an access that needs the bit in every entry of the walk. -/
def grants {α : Type*} (bit : ℕ) (s : Machine α) (dir virt : ℕ) : Bool :=
  (walkOf s dir virt).any fun entries => entries.all fun entry => entry.testBit bit

def userAccess {α : Type*} (s : Machine α) (dir virt : ℕ) : Bool := grants 2 s dir virt

def writeAccess {α : Type*} (s : Machine α) (dir virt : ℕ) : Bool := grants 1 s dir virt

end Taavi.X64
