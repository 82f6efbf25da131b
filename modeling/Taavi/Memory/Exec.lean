import Taavi.Lib.ByteMemory
import Taavi.Memory.Paging
import Taavi.Memory.Pmm

/-!
# Loading programs and growing their heaps

`elf_load` of `loader/elf.c` and `sys_sbrk` of `tcb/syscall.c`. The program is given by the bytes at
every offset, since the loader follows the offsets of the file without a bound.
-/

namespace Taavi.Paging

open Lib Pmm

def ptLoad : ℕ := 1

def pageUserRw : ℕ := pagePresent ||| pageRw ||| pageUser

def elfCheckFile (data : Memory) : Bool :=
  data 0 == 0x7F && data 1 == 0x45 && data 2 == 0x4C && data 3 == 0x46

/-- `elf_check_supported`: the class, the byte order, the machine, the version and the type. -/
def elfCheckSupported (data : Memory) : Bool :=
  elfCheckFile data && data 4 == 1 && data 5 == 1 && data.read 18 2 == 3 && data 6 == 1 &&
    (data.read 16 2 == 1 || data.read 16 2 == 2)

/-- `Elf32_Phdr`: what the loader reads of it. -/
structure Phdr where
  type : ℕ
  offset : ℕ
  vaddr : ℕ
  filesz : ℕ
  memsz : ℕ
  flags : ℕ
  deriving DecidableEq

/-- The program header with the given number. -/
def phdrAt (data : Memory) (i : ℕ) : Phdr :=
  let start := (data.read 28 4 + i * data.read 42 2) % 2 ^ 32
  { type := data.read start 4
    offset := data.read (start + 4) 4
    vaddr := data.read (start + 8) 4
    filesz := data.read (start + 16) 4
    memsz := data.read (start + 20) 4
    flags := data.read (start + 24) 4 }

namespace Phdr

def pages (p : Phdr) : ℕ := (p.memsz + pageSize - 1) % 2 ^ 32 / pageSize

def size (p : Phdr) : ℕ := p.pages * pageSize

def pageFlags (p : Phdr) : ℕ :=
  if p.flags.testBit 1 then pagePresent ||| pageUser ||| pageRw else pagePresent ||| pageUser

/-- `to_copy`, for the page with the given number. -/
def toCopy (p : Phdr) (j : ℕ) : ℕ :=
  if j * pageSize < p.filesz then min (p.filesz - j * pageSize) pageSize else 0

end Phdr

/-- The words of a page that starts with bytes of the file and goes on with zeros. -/
def pageContent (data : Memory) (offset count : ℕ) (k : ℕ) : ℕ :=
  Memory.read (fun x => if x < count then data ((offset + x) % 2 ^ 32) else 0) (4 * k) 4

/-- The machine with the real memory manager. -/
abbrev Kernel := Machine Pmm.State

/-- The pages of a segment are filled. `true` means that every page was found. -/
def fillPages (data : Memory) (p : Phdr) (dir : ℕ) : ℕ → ℕ → Kernel → Kernel × Bool
  | 0, _, s => (s, true)
  | left + 1, j, s =>
    let phys := pagingGetPhys s dir ((p.vaddr + j * pageSize) % 2 ^ 32)
    if phys = invalidPhysicalPage then (s, false)
    else
      let content := pageContent data (p.offset + j * pageSize) (p.toCopy j)
      fillPages data p dir left (j + 1) { s with mem := assign s.mem (phys / pageSize) content }

/-- The loop over the program headers, with `header_end`. -/
def loadSegments (data : Memory) (dir : ℕ) : ℕ → ℕ → Kernel → ℕ → Kernel × Option ℕ
  | 0, _, s, headerEnd => (s, some headerEnd)
  | left + 1, i, s, headerEnd =>
    let p := phdrAt data i
    if p.type ≠ ptLoad then loadSegments data dir left (i + 1) s headerEnd
    else
      match vmmAlloc pmmAlloc pmmFree s dir p.vaddr p.size p.pageFlags with
      | (s, false) => (s, none)
      | (s, true) =>
        match fillPages data p dir p.pages 0 s with
        | (s, false) => (s, none)
        | (s, true) =>
          let segmentEnd := (p.vaddr + p.size) % 2 ^ 32
          loadSegments data dir left (i + 1) s (max headerEnd segmentEnd)

/-- `elf_load`, which gives the entry point and the start of the heap. -/
def elfLoad (data : Memory) (s : Kernel) (dir : ℕ) : Kernel × Option (ℕ × ℕ) :=
  if elfCheckFile data && elfCheckSupported data then
    let r := loadSegments data dir (data.read 44 2) 0 s 0
    (r.1, r.2.map fun headerEnd => (data.read 24 4, headerEnd))
  else (s, none)

/-- A task: the machine, its directory and the end of its heap. -/
structure Process where
  machine : Kernel
  dir : ℕ
  heapEnd : ℕ

def alignedSize (size : ℕ) : ℕ := (size + pageSize - 1) % 2 ^ 32 / pageSize * pageSize

/-- `sys_sbrk`, which gives the old end of the heap, or nothing for `STATUS_ERROR`. -/
def sysSbrk (p : Process) (size : ℕ) : Process × Option ℕ :=
  if size = 0 then (p, some p.heapEnd)
  else
    match vmmAlloc pmmAlloc pmmFree p.machine p.dir p.heapEnd (alignedSize size) pageUserRw with
    | (machine, false) => ({ p with machine }, none)
    | (machine, true) =>
      ({ p with machine, heapEnd := (p.heapEnd + alignedSize size) % 2 ^ 32 }, some p.heapEnd)

end Taavi.Paging
