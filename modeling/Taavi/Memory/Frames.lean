import Taavi.Memory.Pmm

/-!
# The frames that are handed out

`pmm_alloc` looks at the bits of all pages of the address space, from the last one it found. Where a
page is free from there to the end of the memory, it hands out only available pages, each once.
-/

namespace Taavi.Pmm

open Lib

section

variable {s : State} {page q : ℕ}

theorem pmmTestBit_takePage :
    pmmTestBit (s.takePage page).2 q = (decide (q = page) || pmmTestBit s q) :=
  testBit_setBit (by decide) _ _ _

theorem pmmAlloc_cases (hcursor : s.lastFound ≤ maxPages) :
    (∃ page, page < maxPages ∧ pmmTestBit s page = false ∧ pmmAlloc s = s.takePage page ∧
      ∀ q, s.lastFound ≤ q → q < maxPages → pmmTestBit s q = false →
        s.lastFound ≤ page ∧ page ≤ q) ∨
      pmmAlloc s = (0, s) ∧ ∀ q, q < maxPages → pmmTestBit s q = true := by
  unfold pmmAlloc
  cases hfst : firstFrom s.lastFound maxPages (fun page => !pmmTestBit s page) with
  | some page =>
    obtain ⟨hfrom, hlt, hfree, hused⟩ := firstFrom_eq_some.mp hfst
    refine .inl ⟨page, hlt, by simpa using hfree, rfl, fun q hq _ hqfree => ⟨hfrom, ?_⟩⟩
    by_contra hpre
    have hqused := hused q hq (by omega)
    simp [hqfree] at hqused
  | none =>
    have hrest := firstFrom_eq_none.mp hfst
    cases hsnd : firstFrom 0 s.lastFound (fun page => !pmmTestBit s page) with
    | some page =>
      obtain ⟨-, hlt, hfree, -⟩ := firstFrom_eq_some.mp hsnd
      refine .inl ⟨page, by omega, by simpa using hfree, rfl, fun q hq hqlt hqfree => ?_⟩
      have hqused := hrest q hq hqlt
      simp [hqfree] at hqused
    | none =>
      have hpre := firstFrom_eq_none.mp hsnd
      refine .inr ⟨rfl, fun q hq => ?_⟩
      by_cases hqcursor : q < s.lastFound
      · simpa using hpre q (Nat.zero_le q) hqcursor
      · simpa using hrest q (by omega) hq

theorem pmmAlloc_of_first (hfrom : s.lastFound ≤ page) (hlt : page < maxPages)
    (hfree : pmmTestBit s page = false)
    (hused : ∀ q, s.lastFound ≤ q → q < page → pmmTestBit s q = true) :
    pmmAlloc s = s.takePage page := by
  have hfst : firstFrom s.lastFound maxPages (fun page => !pmmTestBit s page) = some page :=
    firstFrom_eq_some.mpr ⟨hfrom, hlt, by simp [hfree], fun q hq hqlt => by simp [hused q hq hqlt]⟩
  unfold pmmAlloc
  rw [hfst]

theorem pmmTestBit_pmmFree (addr : ℕ) :
    pmmTestBit (pmmFree s addr).1 q = (decide (q ≠ addr / pageSize) && pmmTestBit s q) := by
  unfold pmmFree
  dsimp only
  split
  · rename_i hfree
    by_cases hq : q = addr / pageSize
    · rw [hq, hfree, Bool.and_false]
    · simp [hq]
  · exact testBit_clearBit (by decide) _ _ _

theorem lastFound_pmmFree (addr : ℕ) : (pmmFree s addr).1.lastFound = s.lastFound := by
  unfold pmmFree
  dsimp only
  split <;> rfl

end

namespace MmapEntry

def base (e : MmapEntry) : ℕ := e.baseHigh * 2 ^ 32 + e.baseLow

def length (e : MmapEntry) : ℕ := e.lengthHigh * 2 ^ 32 + e.lengthLow

def Contains (e : MmapEntry) (page : ℕ) : Prop :=
  e.base ≤ page * pageSize ∧ (page + 1) * pageSize ≤ e.base + e.length

def frees (e : MmapEntry) (totalPages page : ℕ) : Bool :=
  e.type = 1 ∧ e.baseLow / pageSize ≤ page ∧
    page < e.baseLow / pageSize + e.lengthLow / pageSize ∧ page < totalPages

end MmapEntry

section

variable {img : KernelImage} {mboot : MultibootInfo} {page : ℕ}

theorem testBit_freeEntry (totalPages : ℕ) (bitmap : ℕ → BitVec 32) (entry : MmapEntry) :
    testBit (freeEntry totalPages bitmap entry) page =
      (!entry.frees totalPages page && testBit bitmap page) := by
  unfold freeEntry MmapEntry.frees
  split
  · rename_i htype
    have hfilt : ∀ l : List ℕ, l.foldl
        (fun bitmap page => if page < totalPages then clearBit bitmap page else bitmap) bitmap =
        (l.filter fun page => page < totalPages).foldl clearBit bitmap := by
      intro l
      simp only [List.foldl_filter, decide_eq_true_eq]
    rw [hfilt, testBit_foldl_clearBit (by decide), ← decide_not]
    congr 1
    simp only [List.mem_filter, List.mem_range'_1, decide_eq_true_eq, htype, true_and, and_assoc]
  · rename_i htype
    simp [htype]

theorem testBit_foldl_freeEntry (totalPages : ℕ) (entries : List MmapEntry)
    (bitmap : ℕ → BitVec 32) :
    testBit (entries.foldl (freeEntry totalPages) bitmap) page =
      (entries.all (fun e => !e.frees totalPages page) && testBit bitmap page) := by
  induction entries generalizing bitmap with
  | nil => simp
  | cons e entries ih =>
    rw [List.foldl_cons, ih, testBit_freeEntry, List.all_cons, ← Bool.and_assoc,
      Bool.and_comm (List.all ..)]

theorem testBit_initBitmap : testBit (initBitmap img mboot) page =
    (decide (img.bitmapPhys / pageSize ≤ page ∧ page < img.bitmapEnd mboot.totalPages + 1) ||
      (decide (kernelPhysicalAddress / pageSize ≤ page ∧ page < img.kernelEnd / pageSize) ||
        (decide (0 ≤ page ∧ page < reservedLowPages) ||
          mboot.mmapEntries.all (fun e => !e.frees mboot.totalPages page) &&
            decide (page < 8 * ((mboot.totalPages + 7) / 8))))) := by
  unfold initBitmap
  dsimp only
  rw [testBit_setBits (by decide), testBit_setBits (by decide), testBit_setBits (by decide),
    testBit_foldl_freeEntry, testBit_fillBytes (by decide) (by decide)]
  have hzero : testBit (fun _ => (0 : BitVec 32)) page = false := by simp [testBit]
  rw [hzero, Bool.or_false]

/-- The memory is less than four gigabytes, as the boot loader reports it. -/
def MultibootInfo.Fits (mboot : MultibootInfo) : Prop :=
  (mboot.memUpper + conventionalMemoryKb) * 1024 < 2 ^ 32

theorem MultibootInfo.Fits.totalBytes_eq (h : mboot.Fits) :
    mboot.totalBytes = (mboot.memUpper + conventionalMemoryKb) * 1024 := by
  unfold MultibootInfo.Fits at h
  unfold MultibootInfo.totalBytes
  rw [Nat.mod_eq_of_lt (by omega : mboot.memUpper + conventionalMemoryKb < 2 ^ 32),
    Nat.mod_eq_of_lt h]

theorem MultibootInfo.Fits.totalPages_bounds (h : mboot.Fits) :
    reservedLowPages ≤ mboot.totalPages ∧ mboot.totalPages < maxPages := by
  unfold MultibootInfo.totalPages
  rw [h.totalBytes_eq]
  unfold MultibootInfo.Fits conventionalMemoryKb at *
  unfold pageSize reservedLowPages maxPages
  omega

structure RealFrame (img : KernelImage) (mboot : MultibootInfo) (page : ℕ) : Prop where
  exists_page : page < mboot.totalPages
  available : ∃ e ∈ mboot.mmapEntries, e.type = 1 ∧ e.Contains page
  not_low : reservedLowPages ≤ page
  not_kernel : ¬(kernelPhysicalAddress / pageSize ≤ page ∧ page < img.kernelEnd / pageSize)
  not_bitmap : ¬(img.bitmapPhys / pageSize ≤ page ∧
    page ≤ (img.bitmapPhys + maxPages / 8 - 1) / pageSize)

/-- The entries of available memory start at page boundaries below four gigabytes. -/
def MultibootInfo.MapAligned (mboot : MultibootInfo) : Prop :=
  ∀ e ∈ mboot.mmapEntries, e.type = 1 → pageSize ∣ e.baseLow ∧ e.baseHigh = 0

theorem MmapEntry.contains_of_frees {e : MmapEntry} {totalPages : ℕ} (halign : pageSize ∣ e.baseLow)
    (hhigh : e.baseHigh = 0) (h : e.frees totalPages page = true) : e.Contains page := by
  obtain ⟨-, hfrom, hto, -⟩ := of_decide_eq_true h
  obtain ⟨start, hstart⟩ := halign
  unfold MmapEntry.Contains MmapEntry.base MmapEntry.length
  rw [hhigh]
  have hdiv : e.baseLow / pageSize = start := by
    rw [hstart]
    exact Nat.mul_div_cancel_left start (by decide)
  rw [hdiv] at hfrom hto
  unfold pageSize at *
  omega

theorem KernelImage.bitmap_pages (img : KernelImage) :
    kernelPhysicalAddress / pageSize ≤ img.bitmapPhys / pageSize ∧
      (img.bitmapPhys + maxPages / 8 - 1) / pageSize < img.kernelEnd / pageSize := by
  obtain ⟨pages, hpages⟩ := img.aligned
  have hstart := img.start_le
  have hend := img.le_end
  unfold KernelImage.bitmapPhys
  unfold kernelVirtualBase kernelPhysicalAddress maxPages pageSize at *
  omega

theorem realFrame_of_initBitmap (hmap : mboot.MapAligned) (hpage : page < mboot.totalPages)
    (hfree : testBit (initBitmap img mboot) page = false) : RealFrame img mboot page := by
  rw [testBit_initBitmap] at hfree
  simp only [Bool.or_eq_false_iff, Bool.and_eq_false_iff, decide_eq_false_iff_not] at hfree
  obtain ⟨-, hker, hlow, hmapped⟩ := hfree
  have hbitmap := img.bitmap_pages
  refine ⟨hpage, ?_, by omega, hker, by omega⟩
  rcases hmapped with hsome | hpast
  · obtain ⟨e, he, hfrees⟩ := List.all_eq_false.mp hsome
    have hfrees : e.frees mboot.totalPages page = true := by simpa using hfrees
    have htype : e.type = 1 := (of_decide_eq_true hfrees).1
    obtain ⟨halign, hhigh⟩ := hmap e he htype
    exact ⟨e, he, htype, e.contains_of_frees halign hhigh hfrees⟩
  · omega

end

end Taavi.Pmm
