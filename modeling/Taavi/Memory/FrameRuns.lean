import Taavi.Memory.Frames
import Taavi.Lib.Runs
import Mathlib.Data.Finset.Basic

/-!
# Runs of the physical memory manager

Any sequence of allocations and of frees of frames that were returned before. The record
keeps which frames were returned, and which of them are handed out.
-/

namespace Taavi.Pmm

open Lib

/-- The memory manager and what its users have. -/
structure Session where
  pmm : State
  handedOut : Finset ℕ
  returned : Finset ℕ

/-- The calls of the users. -/
inductive Op where
  | alloc
  | free (addr : ℕ)

namespace Session

variable {img : KernelImage} {mboot : MultibootInfo} {s s' : Session} {op : Op}

/-- Nothing is handed out after `pmm_init`. -/
def start (img : KernelImage) (mboot : MultibootInfo) : Session :=
  { pmm := pmmInit img mboot, handedOut := ∅, returned := ∅ }

/-- One call. -/
def step (s : Session) : Op → Option Session
  | .alloc =>
    let res := pmmAlloc s.pmm
    if res.1 = 0 then some { s with pmm := res.2 }
    else some { pmm := res.2, handedOut := insert res.1 s.handedOut
                returned := insert res.1 s.returned }
  | .free addr =>
    if addr ∈ s.returned then
      some { s with pmm := (pmmFree s.pmm addr).1, handedOut := s.handedOut.erase addr }
    else none

def Step (s : Session) (op : Op) (s' : Session) : Prop := s.step op = some s'

end Session

/-- From the cursor on a page is free that exists, or no page is free that does not exist. -/
def AllocSafely (totalPages : ℕ) (s : State) : Prop :=
  (∃ page, s.lastFound ≤ page ∧ page < totalPages ∧ pmmTestBit s page = false) ∨
    ∀ page, totalPages ≤ page → page < maxPages → pmmTestBit s page = true

theorem AllocSafely.page_lt {totalPages page : ℕ} {s : State} (hsafe : AllocSafely totalPages s)
    (htotal : totalPages < maxPages) (hpage : page < maxPages) (hfree : pmmTestBit s page = false)
    (hfst : ∀ q, s.lastFound ≤ q → q < maxPages → pmmTestBit s q = false →
      s.lastFound ≤ page ∧ page ≤ q) : page < totalPages := by
  rcases hsafe with ⟨q, hq, hqlt, hqfree⟩ | hnone
  · have := (hfst q hq (by omega) hqfree).2
    omega
  · by_contra hpast
    rw [hnone page (by omega) hpage] at hfree
    cases hfree

namespace Session

variable {img : KernelImage} {mboot : MultibootInfo} {s s' : Session} {op : Op}

/-- The condition on a call. -/
def SafeOp (mboot : MultibootInfo) (s : Session) (op : Op) : Prop :=
  op = .alloc → AllocSafely mboot.totalPages s.pmm

structure Sound (img : KernelImage) (mboot : MultibootInfo) (s : Session) : Prop where
  cursor : s.pmm.lastFound ≤ maxPages
  free : ∀ page, page < mboot.totalPages → pmmTestBit s.pmm page = false →
    RealFrame img mboot page ∧ page * pageSize ∉ s.handedOut
  returned : ∀ addr ∈ s.returned, ∃ page, addr = page * pageSize ∧ RealFrame img mboot page

theorem sound_start (hmap : mboot.MapAligned) : (start img mboot).Sound img mboot :=
  ⟨show reservedLowPages - 1 ≤ maxPages by decide,
    fun _ hpage hfree => ⟨realFrame_of_initBitmap hmap hpage hfree, by simp [start]⟩,
    by simp [start]⟩

theorem Sound.alloc_cases (h : s.Sound img mboot) (hfits : mboot.Fits)
    (hsafe : AllocSafely mboot.totalPages s.pmm) :
    (∃ page, pmmAlloc s.pmm = (page * pageSize, (s.pmm.takePage page).2) ∧ page * pageSize ≠ 0 ∧
      page < maxPages ∧ pmmTestBit s.pmm page = false ∧ page < mboot.totalPages) ∨
      pmmAlloc s.pmm = (0, s.pmm) := by
  obtain ⟨-, htotal⟩ := hfits.totalPages_bounds
  rcases pmmAlloc_cases h.cursor with ⟨page, hpage, hfree, heq, hfst⟩ | ⟨heq, -⟩
  · have hlt := hsafe.page_lt htotal hpage hfree hfst
    have hlow := (h.free page hlt hfree).1.not_low
    refine .inl ⟨page, ?_, ?_, hpage, hfree, hlt⟩
    · rw [heq, State.takePage, Nat.mod_eq_of_lt]
      unfold maxPages at hpage
      unfold pageSize
      omega
    · unfold reservedLowPages at hlow
      unfold pageSize
      omega
  · exact .inr heq

theorem Sound.alloc (h : s.Sound img mboot) (hfits : mboot.Fits)
    (hsafe : AllocSafely mboot.totalPages s.pmm) (hstep : s.step .alloc = some s') :
    s'.Sound img mboot := by
  rcases h.alloc_cases hfits hsafe with ⟨page, heq, hne, hpage, hfree, hlt⟩ | heq
  · simp only [step, heq, if_neg hne, Option.some.injEq] at hstep
    subst hstep
    refine ⟨hpage, fun q hq hqfree => ?_, fun addr haddr => ?_⟩
    · dsimp only at hqfree ⊢
      rw [pmmTestBit_takePage, Bool.or_eq_false_iff, decide_eq_false_iff_not] at hqfree
      obtain ⟨hreal, hnot⟩ := h.free q hq hqfree.2
      refine ⟨hreal, ?_⟩
      rw [Finset.mem_insert, not_or]
      refine ⟨fun hsame => hqfree.1 ?_, hnot⟩
      exact Nat.eq_of_mul_eq_mul_right (by decide) hsame
    · rcases Finset.mem_insert.mp haddr with rfl | haddr
      · exact ⟨page, rfl, (h.free page hlt hfree).1⟩
      · exact h.returned addr haddr
  · simp only [step, heq, if_true, Option.some.injEq] at hstep
    subst hstep
    exact h

theorem Sound.free_step (h : s.Sound img mboot) {addr : ℕ} (hstep : s.step (.free addr) = some s') :
    s'.Sound img mboot := by
  simp only [step] at hstep
  split at hstep
  · rename_i hreturned
    cases hstep
    obtain ⟨page, rfl, hreal⟩ := h.returned addr hreturned
    have hdiv : page * pageSize / pageSize = page := Nat.mul_div_cancel page (by decide)
    refine ⟨?_, fun q hq hqfree => ?_, h.returned⟩
    · rw [lastFound_pmmFree]
      exact h.cursor
    · rw [pmmTestBit_pmmFree, hdiv, Bool.and_eq_false_iff] at hqfree
      by_cases hqpage : q = page
      · subst hqpage
        exact ⟨hreal, Finset.notMem_erase _ _⟩
      · have hqfree := hqfree.resolve_left (by simp [hqpage])
        obtain ⟨hqreal, hnot⟩ := h.free q hq hqfree
        exact ⟨hqreal, fun hmem => hnot (Finset.mem_of_mem_erase hmem)⟩
  · cases hstep

theorem sound_of_run (hfits : mboot.Fits) (hmap : mboot.MapAligned) {ops : List Op}
    (hrun : Run (Guarded (SafeOp mboot) Step) (start img mboot) ops s) : s.Sound img mboot := by
  refine hrun.invariant (fun s op s' h ⟨hsafe, hstep⟩ => ?_) (sound_start hmap)
  cases op with
  | alloc => exact h.alloc hfits (hsafe rfl) hstep
  | free addr => exact h.free_step hstep

/-- **Only real memory is handed out**, and zero when none is left, if every allocation is made
while a page that exists is free from the cursor on, or while no page is free that does not exist. -/
theorem alloc_returns_real_memory (hfits : mboot.Fits) (hmap : mboot.MapAligned) {ops : List Op}
    (hrun : Run (Guarded (SafeOp mboot) Step) (start img mboot) ops s)
    (hsafe : AllocSafely mboot.totalPages s.pmm) :
    ((pmmAlloc s.pmm).1 ≠ 0 → ∃ page, (pmmAlloc s.pmm).1 = page * pageSize ∧
      RealFrame img mboot page ∧ (pmmAlloc s.pmm).1 ∉ s.handedOut) ∧
    ((∀ page, RealFrame img mboot page → page * pageSize ∈ s.handedOut) →
      (pmmAlloc s.pmm).1 = 0) := by
  have hsound := sound_of_run hfits hmap hrun
  rcases hsound.alloc_cases hfits hsafe with ⟨page, heq, -, -, hfree, hlt⟩ | heq
  · obtain ⟨hreal, hnot⟩ := hsound.free page hlt hfree
    rw [heq]
    exact ⟨fun _ => ⟨page, rfl, hreal, hnot⟩, fun hall => absurd (hall page hreal) hnot⟩
  · rw [heq]
    exact ⟨fun hne => absurd rfl hne, fun _ => rfl⟩

theorem step_alloc_of_first {page : ℕ} (hne : page ≠ 0) (hfrom : s.pmm.lastFound ≤ page)
    (hlt : page < maxPages) (hfree : pmmTestBit s.pmm page = false)
    (hused : ∀ q, s.pmm.lastFound ≤ q → q < page → pmmTestBit s.pmm q = true) :
    ∃ s', s.step .alloc = some s' ∧ s'.pmm = (s.pmm.takePage page).2 := by
  have haddr : (s.pmm.takePage page).1 ≠ 0 := by
    unfold State.takePage
    unfold maxPages at hlt
    unfold pageSize
    omega
  simp only [step, pmmAlloc_of_first hfrom hlt hfree hused, if_neg haddr]
  exact ⟨_, rfl, rfl⟩

def smallImage : KernelImage where
  kernelEnd := 0x200000
  bitmap := 0xC01C0000
  aligned := by decide
  start_le := by decide
  le_end := by decide
  fits := by decide

/-- A machine with 520 pages, of which the pages 256 to 513 are available memory. -/
def smallMachine : MultibootInfo where
  memUpper := 1056
  mmapLength := 24
  mmapAddr := 0x1000
  entryAt := fun _ =>
    { size := 20, baseLow := 0x100000, baseHigh := 0, lengthLow := 0x102000, lengthHigh := 0, type := 1 }

theorem mmapEntries_small : smallMachine.mmapEntries = [smallMachine.entryAt 0] := by
  simp [MultibootInfo.mmapEntries, MultibootInfo.mmapWalk, smallMachine, kernelVirtualBase]

theorem pmmTestBit_start_small (page : ℕ) : pmmTestBit (start smallImage smallMachine).pmm page =
    decide (page < 512 ∨ 514 ≤ page ∧ page < 520) := by
  have htotal : smallMachine.totalPages = 520 := by decide
  have hmap := mmapEntries_small
  have hbit : pmmTestBit (start smallImage smallMachine).pmm page = _ := testBit_initBitmap
  rw [hbit, htotal, hmap]
  rw [Bool.eq_iff_iff]
  simp only [List.all_cons, List.all_nil, Bool.and_true, MmapEntry.frees, Bool.or_eq_true,
    Bool.and_eq_true, Bool.not_eq_true', decide_eq_true_eq, decide_eq_false_iff_not]
  simp only [smallImage, smallMachine, KernelImage.bitmapPhys, KernelImage.bitmapEnd,
    kernelVirtualBase, kernelPhysicalAddress, pageSize, reservedLowPages, true_and]
  omega

theorem step_start_small : ∃ s, (start smallImage smallMachine).step .alloc = some s ∧
    s.pmm = ((start smallImage smallMachine).pmm.takePage 512).2 := by
  refine step_alloc_of_first (by decide) (show reservedLowPages - 1 ≤ 512 by decide) (by decide)
    ?_ fun q _ hq => ?_
  · rw [pmmTestBit_start_small]
    decide
  · rw [pmmTestBit_start_small, decide_eq_true_eq]
    exact .inl hq

/-- Then page 513 is free, and the condition holds. -/
theorem small_machine_returns_real_memory : ∃ s,
    Run (Guarded (SafeOp smallMachine) Step) (start smallImage smallMachine) [.alloc] s ∧
      ∃ page, (pmmAlloc s.pmm).1 = page * pageSize ∧ RealFrame smallImage smallMachine page ∧
        (pmmAlloc s.pmm).1 ∉ s.handedOut := by
  obtain ⟨s, hstep, hpmm⟩ := step_start_small
  have htotal : smallMachine.totalPages = 520 := by decide
  have hfree : pmmTestBit s.pmm 513 = false := by
    rw [hpmm, pmmTestBit_takePage, pmmTestBit_start_small]
    decide
  have hsafe : SafeOp smallMachine (start smallImage smallMachine) .alloc := by
    refine fun _ => .inl ⟨512, show reservedLowPages - 1 ≤ 512 by decide, by rw [htotal]; decide, ?_⟩
    rw [pmmTestBit_start_small]
    decide
  have hsafe' : AllocSafely smallMachine.totalPages s.pmm :=
    Or.inl ⟨513, by rw [hpmm]; exact le_rfl, by rw [htotal]; decide, hfree⟩
  have hmap : smallMachine.MapAligned := by
    intro e he _
    rw [mmapEntries_small, List.mem_singleton] at he
    rw [he]
    decide
  have halloc : pmmAlloc s.pmm = s.pmm.takePage 513 :=
    pmmAlloc_of_first (by rw [hpmm]; exact le_rfl) (by decide) hfree fun q hq hlt => by
      rw [hpmm] at hq
      have : 513 ≤ q := hq
      omega
  have hrun : Run (Guarded (SafeOp smallMachine) Step) (start smallImage smallMachine) [.alloc] s :=
    .cons ⟨hsafe, hstep⟩ (.nil s)
  have hfits : smallMachine.Fits := (by decide : (1056 + conventionalMemoryKb) * 1024 < 2 ^ 32)
  refine ⟨s, hrun, (alloc_returns_real_memory hfits hmap hrun hsafe').1 ?_⟩
  rw [halloc]
  exact (by decide : 513 * pageSize % 2 ^ 32 ≠ 0)

/-- **Memory that does not exist is handed out.** The third allocation of the small machine returns
page 520 of 520. -/
theorem small_machine_returns_missing_page : ∃ s,
    Run Step (start smallImage smallMachine) [.alloc, .alloc] s ∧
      smallMachine.totalPages = 520 ∧ (pmmAlloc s.pmm).1 = 520 * pageSize ∧
      ¬RealFrame smallImage smallMachine 520 := by
  obtain ⟨s, hstep, hpmm⟩ := step_start_small
  have hbit : ∀ q, pmmTestBit s.pmm q = decide (q < 513 ∨ 514 ≤ q ∧ q < 520) := by
    intro q
    rw [hpmm, pmmTestBit_takePage, pmmTestBit_start_small, ← Bool.decide_or, decide_eq_decide]
    omega
  have hcursor : s.pmm.lastFound = 513 := by
    rw [hpmm]
    rfl
  obtain ⟨s', hstep', hpmm'⟩ : ∃ s', s.step .alloc = some s' ∧ s'.pmm = (s.pmm.takePage 513).2 := by
    refine step_alloc_of_first (by decide) hcursor.le (by decide) ?_ fun q hq hlt => by omega
    rw [hbit]
    decide
  have halloc : pmmAlloc s'.pmm = s'.pmm.takePage 520 := by
    refine pmmAlloc_of_first ?_ (by decide) ?_ fun q hq hlt => ?_
    · rw [hpmm']
      exact (by decide : 514 ≤ 520)
    · rw [hpmm', pmmTestBit_takePage, hbit]
      decide
    · rw [hpmm'] at hq ⊢
      rw [pmmTestBit_takePage, hbit, ← Bool.decide_or, decide_eq_true_eq]
      omega
  refine ⟨s', .cons hstep (.cons hstep' (.nil s')), by decide, ?_, fun hreal => ?_⟩
  · rw [halloc]
    exact (by decide : 520 * pageSize % 2 ^ 32 = 520 * pageSize)
  · have htotal : smallMachine.totalPages = 520 := by decide
    have := hreal.exists_page
    omega

end Session

end Taavi.Pmm
