import Taavi.Memory.FrameRuns

/-!
# The counters of the physical memory manager

`used_pages` and `free_pages` count bits. `pmm_alloc` and `pmm_free` move them by one, also for
pages that were not counted, and `check_for_modules` marks pages without counting them.
-/

namespace Taavi.Pmm

open Lib

/-- `struct multiboot_mod`: the addresses of a module. -/
structure Module where
  modStart : ℕ
  modEnd : ℕ

def maxMods : ℕ := 10

def Module.startPage (mod : Module) : ℕ := mod.modStart / pageSize

def Module.endPage (mod : Module) : ℕ := (mod.modEnd + pageSize - 1) % 2 ^ 32 / pageSize

def Module.mark (bitmap : ℕ → BitVec 32) (mod : Module) : ℕ → BitVec 32 :=
  setBits bitmap mod.startPage mod.endPage

/-- What `check_for_modules` does to the memory manager, for the modules in `mods`. -/
def checkForModules (s : State) (mods : List Module) : State :=
  { s with bitmap := (mods.take maxMods).foldl Module.mark s.bitmap }

/-- What happens after `pmm_init`. -/
inductive Call where
  | modules (mods : List Module)
  | alloc
  | free (addr : ℕ)

def Call.run (s : State) : Call → State
  | modules mods => checkForModules s mods
  | alloc => (pmmAlloc s).2
  | free addr => (pmmFree s addr).1

/-- The pages of the modules are marked as used, and the page allocated or freed exists. -/
def Call.CountsSafely (totalPages : ℕ) (s : State) : Call → Prop
  | modules mods => ∀ mod ∈ mods.take maxMods, ∀ page, mod.startPage ≤ page → page < mod.endPage →
      page < totalPages → pmmTestBit s page = true
  | alloc => AllocSafely totalPages s
  | free addr => pmmTestBit s (addr / pageSize) = true → addr / pageSize < totalPages

/-- The steps of the memory manager that meet the condition. -/
abbrev SafeCall (totalPages : ℕ) : State → Call → State → Prop :=
  Guarded (fun s call => call.CountsSafely totalPages s) fun s call s' => call.run s = s'

variable {img : KernelImage} {mboot : MultibootInfo} {s s' : State} {n page : ℕ} {call : Call}

theorem MultibootInfo.totalPages_lt (mboot : MultibootInfo) : mboot.totalPages < maxPages := by
  have hbytes : mboot.totalBytes < 2 ^ 32 := Nat.mod_lt _ (by decide)
  unfold MultibootInfo.totalPages pageSize maxPages
  omega

/-- The counters are those of the bits of the pages that exist. -/
structure Counted (n : ℕ) (s : State) : Prop where
  cursor : s.lastFound ≤ maxPages
  used : s.usedPages = countSet s.bitmap n
  free : s.freePages = countClear s.bitmap n

theorem counted_pmmInit (img : KernelImage) (mboot : MultibootInfo) :
    Counted mboot.totalPages (pmmInit img mboot) :=
  ⟨show reservedLowPages - 1 ≤ maxPages by decide, rfl, rfl⟩

theorem pmmTestBit_checkForModules (mods : List Module) :
    pmmTestBit (checkForModules s mods) page =
      ((mods.take maxMods).any (fun mod => decide (mod.startPage ≤ page ∧ page < mod.endPage)) ||
        pmmTestBit s page) := by
  unfold checkForModules pmmTestBit
  dsimp only
  generalize mods.take maxMods = l
  generalize s.bitmap = bitmap
  induction l generalizing bitmap with
  | nil => rfl
  | cons mod l ih =>
    rw [List.foldl_cons, ih, Module.mark, testBit_setBits (by decide), List.any_cons, ← Bool.or_assoc,
      Bool.or_comm (List.any ..)]

theorem Counted.modules (h : Counted n s) {mods : List Module}
    (hok : (Call.modules mods).CountsSafely n s) : Counted n (checkForModules s mods) := by
  have hbits : ∀ page < n,
      testBit (checkForModules s mods).bitmap page = testBit s.bitmap page := by
    intro page hpage
    refine (pmmTestBit_checkForModules mods).trans ?_
    by_cases hmarked : pmmTestBit s page = true
    · rw [hmarked, Bool.or_true]
      exact hmarked.symm
    · have hnone : (mods.take maxMods).any
          (fun mod => decide (mod.startPage ≤ page ∧ page < mod.endPage)) = false := by
        refine List.any_eq_false.mpr fun mod hmod hin => hmarked ?_
        obtain ⟨hstart, hend⟩ := of_decide_eq_true hin
        exact hok mod hmod page hstart hend hpage
      rw [hnone, Bool.false_or]
      rfl
  have hset := countSet_congr hbits
  have hsum := countSet_add_countClear s.bitmap n
  have hsum' := countSet_add_countClear (checkForModules s mods).bitmap n
  refine ⟨h.cursor, h.used.trans hset.symm, h.free.trans ?_⟩
  omega

theorem Counted.takePage (h : Counted n s) (hn : n < maxPages) (hpage : page < n)
    (hfree : pmmTestBit s page = false) : Counted n (s.takePage page).2 := by
  have hset : countSet (setBit s.bitmap page) n = countSet s.bitmap n + 1 :=
    countSet_setBit (by decide) hpage hfree
  have hsum := countSet_add_countClear s.bitmap n
  have hsum' := countSet_add_countClear (setBit s.bitmap page) n
  have hused := h.used
  have hfreePages := h.free
  unfold maxPages at hn
  refine ⟨?_, ?_, ?_⟩
  · show page + 1 ≤ maxPages
    unfold maxPages
    omega
  · show (s.usedPages + 1) % 2 ^ 32 = countSet (setBit s.bitmap page) n
    omega
  · show (s.freePages + (2 ^ 32 - 1)) % 2 ^ 32 = countClear (setBit s.bitmap page) n
    omega

theorem Counted.alloc (h : Counted n s) (hn : n < maxPages) (hok : AllocSafely n s) :
    Counted n (pmmAlloc s).2 := by
  rcases pmmAlloc_cases h.cursor with ⟨page, hpage, hfree, heq, hfst⟩ | ⟨heq, -⟩
  · rw [heq]
    exact h.takePage hn (hok.page_lt hn hpage hfree hfst) hfree
  · rw [heq]
    exact h

theorem Counted.free_call (h : Counted n s) (hn : n < maxPages) {addr : ℕ}
    (hok : (Call.free addr).CountsSafely n s) : Counted n (pmmFree s addr).1 := by
  cases hbit : pmmTestBit s (addr / pageSize) with
  | false =>
    have heq : pmmFree s addr = (s, false) := if_pos hbit
    rw [heq]
    exact h
  | true =>
    have hset : countSet s.bitmap n = countSet (clearBit s.bitmap (addr / pageSize)) n + 1 :=
      countSet_clearBit (by decide) (hok hbit) hbit
    have hsum := countSet_add_countClear s.bitmap n
    have hsum' := countSet_add_countClear (clearBit s.bitmap (addr / pageSize)) n
    have hused := h.used
    have hfreePages := h.free
    unfold maxPages at hn
    have hne : ¬ pmmTestBit s (addr / pageSize) = false := by simp [hbit]
    unfold pmmFree
    dsimp only
    rw [if_neg hne]
    refine ⟨h.cursor, ?_, ?_⟩
    · show (s.usedPages + (2 ^ 32 - 1)) % 2 ^ 32 = countSet (clearBit s.bitmap (addr / pageSize)) n
      omega
    · show (s.freePages + 1) % 2 ^ 32 = countClear (clearBit s.bitmap (addr / pageSize)) n
      omega

/-- If all calls meet the condition, the counters are those of the bits of existing pages. -/
theorem counters_follow_bitmap {calls : List Call}
    (hrun : Run (SafeCall mboot.totalPages) (pmmInit img mboot) calls s) :
    s.usedPages = countSet s.bitmap mboot.totalPages ∧
      s.freePages = countClear s.bitmap mboot.totalPages ∧
      s.usedPages + s.freePages = mboot.totalPages := by
  have hn := mboot.totalPages_lt
  have hkeep : ∀ s call s', Counted mboot.totalPages s → SafeCall mboot.totalPages s call s' →
      Counted mboot.totalPages s' := by
    rintro s call s' h ⟨hok, rfl⟩
    cases call with
    | modules mods => exact h.modules hok
    | alloc => exact h.alloc hn hok
    | free addr => exact h.free_call hn hok
  have h := Run.invariant hkeep hrun (counted_pmmInit img mboot)
  have hsum := countSet_add_countClear s.bitmap mboot.totalPages
  exact ⟨h.used, h.free, by rw [h.used, h.free, hsum]⟩

open Session

/-- A module in the page 512 of the small machine, which is free. -/
def smallModule : Module := { modStart := 0x200000, modEnd := 0x201000 }

theorem pmmTestBit_pmmInit_small (page : ℕ) : pmmTestBit (pmmInit smallImage smallMachine) page =
    decide (page < 512 ∨ 514 ≤ page ∧ page < 520) := pmmTestBit_start_small page

theorem pmmTestBit_pmmInit_free : pmmTestBit (pmmInit smallImage smallMachine) 512 = false := by
  rw [pmmTestBit_pmmInit_small]
  decide

theorem run_alloc (hsafe : AllocSafely n s) : Run (SafeCall n) s [.alloc] (pmmAlloc s).2 :=
  .cons ⟨hsafe, rfl⟩ (.nil _)

/-- The counters of the small machine after a page was allocated. -/
theorem small_machine_counts : ∃ s,
    Run (SafeCall smallMachine.totalPages) (pmmInit smallImage smallMachine) [.alloc] s ∧
      s.usedPages + s.freePages = smallMachine.totalPages := by
  have hsafe : AllocSafely smallMachine.totalPages (pmmInit smallImage smallMachine) :=
    .inl ⟨512, show reservedLowPages - 1 ≤ 512 by decide, by decide, pmmTestBit_pmmInit_free⟩
  exact ⟨_, run_alloc hsafe, (counters_follow_bitmap (run_alloc hsafe)).2.2⟩

theorem run_modules (h : Counted n s) (hn : 512 < n) (hfree : pmmTestBit s 512 = false) :
    ∃ t, Run (fun s call s' => Call.run s call = s') s [.modules [smallModule]] t ∧
      t.usedPages + 1 = countSet t.bitmap n := by
  refine ⟨_, .cons rfl (.nil _), ?_⟩
  have hbitmap : (checkForModules s [smallModule]).bitmap = setBit s.bitmap 512 := rfl
  rw [Call.run, hbitmap, countSet_setBit (by decide) hn hfree, ← h.used]
  rfl

/-- The page of a module in free memory is marked as used and not counted. -/
theorem small_machine_miscounts : ∃ s,
    Run (fun s call s' => Call.run s call = s') (pmmInit smallImage smallMachine)
      [.modules [smallModule]] s ∧
      s.usedPages + 1 = countSet s.bitmap smallMachine.totalPages :=
  run_modules (counted_pmmInit _ _) (by decide) pmmTestBit_pmmInit_free

end Taavi.Pmm
