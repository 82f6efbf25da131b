import Mathlib.Tactic.Ring

/-!
# Kernel configuration

The constants of `kernel/include/config.h` that more than one component of the
kernel uses.
-/

namespace Taavi

/-- `PAGE_SIZE`. -/
def pageSize : ℕ := 4096

/-- `ADDITION_HEAP_PAGE_SIZE`: the pages of the first heap mapping. -/
def additionHeapPageSize : ℕ := 256

/-- `MAX_PAGES`: the pages of the address space of the i686. -/
def maxPages : ℕ := 1024 * 1024

/-- `CONVENTIONAL_MEMORY_KB`. -/
def conventionalMemoryKb : ℕ := 1024

/-- `RESERVED_LOW_PAGES`. -/
def reservedLowPages : ℕ := 256

/-- `KERNEL_VIRTUAL_BASE`. -/
def kernelVirtualBase : ℕ := 0xC0000000

/-- `KERNEL_PHYSICAL_ADDRESS`. -/
def kernelPhysicalAddress : ℕ := 0x00100000

/-- `MAX_TASKS`. -/
def maxTasks : ℕ := 256

/-- `HEAP_MAGIC`. -/
def heapMagic : ℕ := 0xDEADBEEF

/-- The architecture the kernel is built for. `kmalloc.c` is compiled for both. -/
inductive Arch where
  | i386
  | x86_64
  deriving DecidableEq, Repr

namespace Arch

/-- `sizeof(uintptr_t)`. -/
def word : Arch → ℕ
  | i386 => 4
  | x86_64 => 8

/-- The number of values of a `uintptr_t`. -/
def addressSpace (A : Arch) : ℕ := 256 ^ A.word

/-- Reduction of a number to a `uintptr_t`. -/
def wrap (A : Arch) (n : ℕ) : ℕ := n % A.addressSpace

/-- `HEAP_START`. -/
def heapStart : Arch → ℕ
  | i386 => 0xD0000000
  | x86_64 => 0xFFFFE00000000000

/-- `HEAP_CEIL`. -/
def heapCeil : Arch → ℕ
  | i386 => 0xD8000000
  | x86_64 => 0xFFFFE00000000000 + 2 ^ 30

end Arch

end Taavi
