import Taavi.Config
import Taavi.Lib.Bitmap
import Taavi.Lib.Runs

/-!
# The physical memory manager of the x86_64

`kernel/arch/x86_64/mm/pmm/pmm.c`: a bitmap of the pages in use up to the end of the memory, two
counters and a cursor of 32 bits.
-/

namespace Taavi.X64.Pmm

open Lib

inductive RegionType where
  | usable
  | reserved
  | reclaimable
  | kernel
  | framebuffer
  | acpiReclaimable
  | acpiNvs
  | badMemory
  deriving DecidableEq, Repr

structure MemRegion where
  base : ℕ
  length : ℕ
  type : RegionType
  deriving DecidableEq, Repr

/-- The globals of the memory manager. -/
structure State where
  bitmap : ℕ → BitVec 64
  maxPages : ℕ
  usedPages : ℕ
  freePages : ℕ
  lastFound : ℕ

def mib : ℕ := 1048576

/-- `__pmm_test_bit`. The index is reduced to 32 bits, which matters for no page below `2 ^ 32`. -/
def pmmTestBit (s : State) (page : ℕ) : Bool := testBit s.bitmap page

namespace MemRegion

variable (r : MemRegion)

/-- The address behind a region. -/
def top : ℕ := (r.base + r.length) % 2 ^ 64

def firstPage : ℕ := (r.base + pageSize - 1) % 2 ^ 64 / pageSize

/-- The whole pages of a region, in the order of the loops over them. -/
def pages : List ℕ := List.range' r.firstPage (r.top / pageSize - r.firstPage)

end MemRegion

/-- `potential_bitmap_top`. It stays zero when no region has memory for the bitmap. -/
def potentialBitmapTop (regions : List MemRegion) : ℕ :=
  regions.foldl (fun top r =>
    if (r.type = .usable ∨ r.type = .reclaimable) ∧ top < r.top then r.top else top) 0

/-- A page becomes free in `pmm_init`. -/
def State.clearPage (s : State) (page : ℕ) : State :=
  { s with bitmap := clearBit s.bitmap page, freePages := (s.freePages + 1) % 2 ^ 32 }

def State.takePage (s : State) (page : ℕ) : State :=
  { s with
    bitmap := setBit s.bitmap page
    usedPages := (s.usedPages + 1) % 2 ^ 32
    freePages := (s.freePages + (2 ^ 32 - 1)) % 2 ^ 32 }

/-- The pages of a region become free, if it is usable. -/
def State.clearRegion (s : State) (r : MemRegion) : State :=
  if r.type = .usable then r.pages.foldl State.clearPage s else s

def State.reserveFirst (s : State) : State :=
  if pmmTestBit s 0 = false then s.takePage 0 else s

def bitmapBytes (maxPages : ℕ) : ℕ := (maxPages + 7) / 8

def bitmapRegion (regions : List MemRegion) (maxPages : ℕ) : Option MemRegion :=
  regions.find? fun r => r.type = .usable ∧ mib ≤ r.base ∧ bitmapBytes maxPages ≤ r.length

/-- `pmm_init`, with the globals zero before it. It gives nothing for `STATUS_ERROR`. -/
def pmmInit (memory : ℕ → BitVec 64) (regions : List MemRegion) : Option State :=
  let top := potentialBitmapTop regions
  if top = 0 then none
  else
    let maxPages := top / pageSize
    match bitmapRegion regions maxPages with
    | none => none
    | some home =>
      let s : State :=
        { bitmap := fillBytes memory (bitmapBytes maxPages)
          maxPages := maxPages
          usedPages := 0
          freePages := 0
          lastFound := 0 }
      let s := regions.foldl State.clearRegion s
      let pageCount := (bitmapBytes maxPages + pageSize - 1) / pageSize
      let s := (List.range' (home.base / pageSize) pageCount).foldl State.takePage s
      let s := s.reserveFirst
      some { s with usedPages := (s.maxPages + (2 ^ 64 - s.freePages)) % 2 ^ 32 }

def pmmAlloc (s : State) : ℕ × State :=
  let found (page : ℕ) : ℕ × State :=
    (page * pageSize % 2 ^ 64, { s.takePage page with lastFound := (page + 1) % 2 ^ 32 })
  match firstFrom s.lastFound s.maxPages (fun page => !pmmTestBit s page) with
  | some page => found page
  | none =>
    match firstFrom 0 s.lastFound (fun page => !pmmTestBit s page) with
    | some page => found page
    | none => (0, s)

/-- `pmm_free`. `true` is `STATUS_OK`. -/
def pmmFree (s : State) (phys : ℕ) : State × Bool :=
  if phys % pageSize ≠ 0 then (s, false)
  else
    let page := phys / pageSize
    if s.maxPages ≤ page then (s, false)
    else if pmmTestBit s page = false then (s, true)
    else
      ({ s with
        bitmap := clearBit s.bitmap page
        usedPages := (s.usedPages + (2 ^ 32 - 1)) % 2 ^ 32
        freePages := (s.freePages + 1) % 2 ^ 32
        lastFound := if page < s.lastFound then page else s.lastFound }, true)

/-- The addresses that `pmm_reclaim_bootloader` frees, in their order. -/
def reclaimedAddrs (regions : List MemRegion) : List ℕ :=
  regions.flatMap fun r =>
    if r.type = .reclaimable ∧ r.length ≠ 0 then
      (r.pages.map (· * pageSize)).filter fun addr => mib ≤ addr
    else []

def pmmReclaimBootloader (s : State) (regions : List MemRegion) : State :=
  (reclaimedAddrs regions).foldl (fun s addr => (pmmFree s addr).1) s

end Taavi.X64.Pmm
