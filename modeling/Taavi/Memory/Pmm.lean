import Taavi.Config
import Taavi.Lib.Bitmap

/-!
# The physical memory manager

`kernel/arch/x86/mm/pmm/pmm.c`: a bitmap of the pages in use. The memory map is read through the
addresses of its entries, and the image and the bitmap are where `boot/linker.ld` puts them.
-/

namespace Taavi.Pmm

open Lib

structure MmapEntry where
  size : ℕ
  baseLow : ℕ
  baseHigh : ℕ
  lengthLow : ℕ
  lengthHigh : ℕ
  type : ℕ

/-- `struct multiboot_info`: what the memory manager reads of it. -/
structure MultibootInfo where
  /-- The memory above the first megabyte, in kilobytes. -/
  memUpper : ℕ
  mmapLength : ℕ
  mmapAddr : ℕ
  entryAt : ℕ → MmapEntry

/-- The kernel starts at `KERNEL_PHYSICAL_ADDRESS`, ends at a page boundary, and holds `bitmap`. -/
structure KernelImage where
  kernelEnd : ℕ
  bitmap : ℕ
  aligned : pageSize ∣ kernelEnd
  start_le : kernelVirtualBase + kernelPhysicalAddress ≤ bitmap
  le_end : bitmap + maxPages / 8 ≤ kernelVirtualBase + kernelEnd
  fits : kernelVirtualBase + kernelEnd ≤ 2 ^ 32

/-- The globals of the memory manager. -/
structure State where
  bitmap : ℕ → BitVec 32
  usedPages : ℕ
  freePages : ℕ
  lastFound : ℕ
  totalMemBytes : ℕ

def pmmTestBit (s : State) (page : ℕ) : Bool := testBit s.bitmap page

namespace MultibootInfo

variable (mboot : MultibootInfo)

def totalBytes : ℕ := (mboot.memUpper + conventionalMemoryKb) % 2 ^ 32 * 1024 % 2 ^ 32

def totalPages : ℕ := mboot.totalBytes / pageSize

/-- The loop over the memory map, as the list of the entries that it meets. -/
def mmapWalk (vend : ℕ) : ℕ → ℕ → List MmapEntry
  | 0, _ => []
  | fuel + 1, vaddr =>
    if vaddr < vend then
      mboot.entryAt vaddr :: mmapWalk vend fuel ((vaddr + (mboot.entryAt vaddr).size + 4) % 2 ^ 32)
    else []

/-- The entries of the memory map. Every pass goes on by four bytes or more, or the address wraps
around and the loop may not end. -/
def mmapEntries : List MmapEntry :=
  let vaddr := (mboot.mmapAddr + kernelVirtualBase) % 2 ^ 32
  mboot.mmapWalk ((vaddr + mboot.mmapLength) % 2 ^ 32) mboot.mmapLength vaddr

end MultibootInfo

/-- The pages of an entry of the memory map become free, if it is available memory. -/
def freeEntry (totalPages : ℕ) (bitmap : ℕ → BitVec 32) (entry : MmapEntry) : ℕ → BitVec 32 :=
  if entry.type = 1 then
    (List.range' (entry.baseLow / pageSize) (entry.lengthLow / pageSize)).foldl
      (fun bitmap page => if page < totalPages then clearBit bitmap page else bitmap) bitmap
  else bitmap

namespace KernelImage

def bitmapPhys (img : KernelImage) : ℕ := img.bitmap - kernelVirtualBase

def bitmapEnd (img : KernelImage) (totalPages : ℕ) : ℕ :=
  (img.bitmapPhys + (totalPages + 31) / 32 * 4 - 1) / pageSize

end KernelImage

def initBitmap (img : KernelImage) (mboot : MultibootInfo) : ℕ → BitVec 32 :=
  let bitmap := fillBytes (fun _ => 0) ((mboot.totalPages + 7) / 8)
  let bitmap := mboot.mmapEntries.foldl (freeEntry mboot.totalPages) bitmap
  let bitmap := setBits bitmap 0 reservedLowPages
  let bitmap := setBits bitmap (kernelPhysicalAddress / pageSize) (img.kernelEnd / pageSize)
  setBits bitmap (img.bitmapPhys / pageSize) (img.bitmapEnd mboot.totalPages + 1)

/-- `pmm_init`, with the globals zero before it. -/
def pmmInit (img : KernelImage) (mboot : MultibootInfo) : State :=
  { bitmap := initBitmap img mboot
    usedPages := (List.range mboot.totalPages).countP (testBit (initBitmap img mboot))
    freePages := (List.range mboot.totalPages).countP fun i => !testBit (initBitmap img mboot) i
    lastFound := reservedLowPages - 1
    totalMemBytes := mboot.totalBytes }

def State.takePage (s : State) (page : ℕ) : ℕ × State :=
  (page * pageSize % 2 ^ 32,
    { s with
      bitmap := setBit s.bitmap page
      usedPages := (s.usedPages + 1) % 2 ^ 32
      freePages := (s.freePages + (2 ^ 32 - 1)) % 2 ^ 32
      lastFound := page + 1 })

def pmmAlloc (s : State) : ℕ × State :=
  match firstFrom s.lastFound maxPages (fun page => !pmmTestBit s page) with
  | some page => s.takePage page
  | none =>
    match firstFrom 0 s.lastFound (fun page => !pmmTestBit s page) with
    | some page => s.takePage page
    | none => (0, s)

/-- `pmm_free`. `true` is `STATUS_OK`. -/
def pmmFree (s : State) (addr : ℕ) : State × Bool :=
  let page := addr / pageSize
  if pmmTestBit s page = false then (s, false)
  else
    ({ s with
      bitmap := clearBit s.bitmap page
      usedPages := (s.usedPages + (2 ^ 32 - 1)) % 2 ^ 32
      freePages := (s.freePages + 1) % 2 ^ 32 }, true)

end Taavi.Pmm
