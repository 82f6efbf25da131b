import Taavi.X64.PmmInit

/-!
# Runs of the physical memory manager of the x86_64

No free page is ever below the cursor, so the first loop of `pmm_alloc` finds the lowest free page,
and the second one nothing.
-/

namespace Taavi.X64.Pmm

open Lib

inductive Call where
  | alloc
  | free (addr : ℕ)
  | reclaim (regions : List MemRegion)

def Call.run (s : State) : Call → State
  | .alloc => (pmmAlloc s).2
  | .free addr => (pmmFree s addr).1
  | .reclaim regions => pmmReclaimBootloader s regions

def Call.SparesFirst : Call → Prop
  | .free addr => addr ≠ 0
  | _ => True

def Call.GivesBack (addr : ℕ) : Call → Prop
  | .alloc => False
  | .free freed => freed = addr
  | .reclaim regions => addr ∈ reclaimedAddrs regions

def CallStep (s : State) (call : Call) (s' : State) : Prop := call.SparesFirst ∧ call.run s = s'

def LowestFree (s : State) (page : ℕ) : Prop :=
  page < s.maxPages ∧ pmmTestBit s page = false ∧ ∀ q < page, pmmTestBit s q = true

variable {s s' t : State} {regions : List MemRegion} {page q addr : ℕ} {calls : List Call}

theorem LowestFree.unique (hpage : LowestFree s page) (hq : LowestFree s q) : page = q := by
  obtain ⟨-, hfree, hpre⟩ := hpage
  obtain ⟨-, hfree', hpre'⟩ := hq
  rcases lt_trichotomy page q with hlt | heq | hlt
  · exact absurd (hpre' page hlt) (by simp [hfree])
  · exact heq
  · exact absurd (hpre q hlt) (by simp [hfree'])

theorem Balanced.pmmAlloc_cases (h : Balanced s) :
    (∃ page, LowestFree s page ∧ 0 < page ∧
      pmmAlloc s = (page * pageSize, { s.takePage page with lastFound := page + 1 })) ∨
    ((∀ page < s.maxPages, pmmTestBit s page = true) ∧ pmmAlloc s = (0, s)) := by
  have hfew := h.few
  unfold pmmAlloc
  dsimp only
  cases hfst : firstFrom s.lastFound s.maxPages fun page => !pmmTestBit s page with
  | some page =>
    obtain ⟨-, hlt, hclear, hpre⟩ := firstFrom_eq_some.mp hfst
    have hfree : pmmTestBit s page = false := by simpa using hclear
    have hpos : 0 < page := by
      refine Nat.pos_of_ne_zero fun hzero => ?_
      rw [hzero, h.first] at hfree
      cases hfree
    refine .inl ⟨page, ⟨hlt, hfree, fun q hq => ?_⟩, hpos, ?_⟩
    · rcases lt_or_ge q s.lastFound with hq' | hq'
      · exact h.below q hq'
      · simpa using hpre q hq' hq
    · have haddr : page * pageSize % 2 ^ 64 = page * pageSize := by
        unfold pageSize
        omega
      have hnext : (page + 1) % 2 ^ 32 = page + 1 := Nat.mod_eq_of_lt (by omega)
      dsimp only
      rw [haddr, hnext]
  | none =>
    have hnone : firstFrom 0 s.lastFound (fun page => !pmmTestBit s page) = none := by
      refine firstFrom_eq_none.mpr fun q _ hq => ?_
      rw [h.below q hq]
      rfl
    rw [hnone]
    refine .inr ⟨fun page hpage => ?_, rfl⟩
    rcases lt_or_ge page s.lastFound with hlow | hhigh
    · exact h.below page hlow
    · simpa using firstFrom_eq_none.mp hfst page hhigh hpage

theorem Balanced.pmmAlloc_eq (h : Balanced s) (hpage : LowestFree s page) :
    (pmmAlloc s).1 = page * pageSize := by
  rcases h.pmmAlloc_cases with ⟨q, hq, -, heq⟩ | ⟨hfull, -⟩
  · rw [heq, hpage.unique hq]
  · exact absurd (hfull page hpage.1) (by simp [hpage.2.1])

theorem Balanced.pmmAlloc_eq_zero_iff (h : Balanced s) :
    (pmmAlloc s).1 = 0 ↔ ∀ page < s.maxPages, pmmTestBit s page = true := by
  rcases h.pmmAlloc_cases with ⟨page, ⟨hlt, hfree, -⟩, hpos, heq⟩ | ⟨hfull, heq⟩
  · refine ⟨fun hzero => ?_, fun hfull => absurd (hfull page hlt) (by simp [hfree])⟩
    rw [heq] at hzero
    unfold pageSize at hzero
    omega
  · exact ⟨fun _ => hfull, fun _ => by rw [heq]⟩

theorem pmmTestBit_takePage (s : State) (page q n : ℕ) :
    pmmTestBit { s.takePage page with lastFound := n } q = (decide (q = page) || pmmTestBit s q) :=
  testBit_setBit (by decide) s.bitmap page q

theorem Balanced.takePage (h : Balanced s) (hpage : LowestFree s page) :
    Balanced { s.takePage page with lastFound := page + 1 } := by
  obtain ⟨hlt, hclear, hpre⟩ := hpage
  have htaken := h.toFreeCounted.takePage hlt hclear
  have hpositive : s.freePages ≠ 0 := by
    intro hzero
    have hall := List.countP_eq_zero.mp (h.free.symm.trans hzero) page (List.mem_range.mpr hlt)
    have hbit : testBit s.bitmap page = false := hclear
    simp [hbit] at hall
  have hsum := h.sum
  have hfew := h.few
  refine ⟨⟨htaken.few, htaken.free⟩, ?_, ?_, ?_, ?_⟩
  · show (s.usedPages + 1) % 2 ^ 32 + (s.freePages + (2 ^ 32 - 1)) % 2 ^ 32 = s.maxPages
    omega
  · show page + 1 ≤ s.maxPages
    omega
  · intro q hq
    have hle : q < page + 1 := hq
    rw [pmmTestBit_takePage]
    rcases lt_or_ge q page with hlow | hhigh
    · rw [hpre q hlow, Bool.or_true]
    · rw [decide_eq_true (by omega : q = page), Bool.true_or]
  · rw [pmmTestBit_takePage, h.first, Bool.or_true]

theorem Balanced.alloc (h : Balanced s) : Balanced (pmmAlloc s).2 := by
  rcases h.pmmAlloc_cases with ⟨page, hpage, -, heq⟩ | ⟨-, heq⟩
  · rw [heq]
    exact h.takePage hpage
  · rw [heq]
    exact h

theorem pmmFree_cases (s : State) (addr : ℕ) :
    (∃ page, addr = page * pageSize ∧ page < s.maxPages ∧ pmmTestBit s page = true ∧
      pmmFree s addr = ({ s with
        bitmap := clearBit s.bitmap page
        usedPages := (s.usedPages + (2 ^ 32 - 1)) % 2 ^ 32
        freePages := (s.freePages + 1) % 2 ^ 32
        lastFound := if page < s.lastFound then page else s.lastFound }, true)) ∨
    ((addr % pageSize ≠ 0 ∨ s.maxPages ≤ addr / pageSize ∨
      pmmTestBit s (addr / pageSize) = false) ∧ (pmmFree s addr).1 = s) := by
  unfold pmmFree
  dsimp only
  by_cases hunaligned : addr % pageSize ≠ 0
  · exact .inr ⟨.inl hunaligned, by rw [if_pos hunaligned]⟩
  rw [if_neg hunaligned]
  by_cases hrange : s.maxPages ≤ addr / pageSize
  · exact .inr ⟨.inr (.inl hrange), by rw [if_pos hrange]⟩
  rw [if_neg hrange]
  by_cases hclear : pmmTestBit s (addr / pageSize) = false
  · exact .inr ⟨.inr (.inr hclear), by rw [if_pos hclear]⟩
  rw [if_neg hclear]
  refine .inl ⟨addr / pageSize, ?_, by omega, by simpa using hclear, rfl⟩
  unfold pageSize at *
  omega

theorem pmmTestBit_pmmFree (hother : addr ≠ q * pageSize) :
    pmmTestBit (pmmFree s addr).1 q = pmmTestBit s q := by
  rcases pmmFree_cases s addr with ⟨page, haddr, -, -, heq⟩ | ⟨-, heq⟩
  · rw [heq]
    have hne : q ≠ page := fun hq => hother (by rw [haddr, hq])
    refine (testBit_clearBit (by decide) s.bitmap page q).trans ?_
    rw [decide_eq_true hne, Bool.true_and]
    rfl
  · rw [heq]

theorem Balanced.free_call (h : Balanced s) (haddr : addr ≠ 0) : Balanced (pmmFree s addr).1 := by
  have hfst : pmmTestBit (pmmFree s addr).1 0 = true :=
    (pmmTestBit_pmmFree (by simpa using haddr)).trans h.first
  rcases pmmFree_cases s addr with ⟨page, -, hlt, hused, heq⟩ | ⟨-, heq⟩
  · rw [heq] at hfst ⊢
    have hcleared := h.toFreeCounted.clearPage hlt hused
    have hcount : countSet s.bitmap s.maxPages =
        countSet (clearBit s.bitmap page) s.maxPages + 1 := countSet_clearBit (by decide) hlt hused
    have htotal := countSet_add_countClear s.bitmap s.maxPages
    have hsum := h.sum
    have hfew := h.few
    have hfree := h.free
    refine ⟨⟨hcleared.few, hcleared.free⟩, ?_, ?_, ?_, hfst⟩
    · show (s.usedPages + (2 ^ 32 - 1)) % 2 ^ 32 + (s.freePages + 1) % 2 ^ 32 = s.maxPages
      omega
    · show (if page < s.lastFound then page else s.lastFound) ≤ s.maxPages
      split <;> omega
    · intro q hq
      -- the cursor moves back to a page that is freed below it
      have hbound : q < s.lastFound ∧ q ≠ page := by
        have hlow : q < if page < s.lastFound then page else s.lastFound := hq
        split_ifs at hlow <;> omega
      refine (testBit_clearBit (by decide) s.bitmap page q).trans ?_
      rw [decide_eq_true hbound.2, Bool.true_and]
      exact h.below q hbound.1
  · rw [heq]
    exact h

theorem pmmFree_rejected (h : addr % pageSize ≠ 0 ∨ s.maxPages ≤ addr / pageSize ∨
    pmmTestBit s (addr / pageSize) = false) : (pmmFree s addr).1 = s := by
  rcases pmmFree_cases s addr with ⟨page, haddr, hlt, hused, -⟩ | ⟨-, heq⟩
  · have hpage : addr / pageSize = page ∧ addr % pageSize = 0 := by
      unfold pageSize at *
      omega
    rw [hpage.1, hpage.2, hused] at h
    rcases h with hne | hge | hclear
    · exact absurd rfl hne
    · omega
    · cases hclear
  · exact heq

theorem pmmFree_again (s : State) (addr : ℕ) :
    (pmmFree (pmmFree s addr).1 addr).1 = (pmmFree s addr).1 := by
  rcases pmmFree_cases (pmmFree s addr).1 addr with ⟨page, haddr, hlt, hused, -⟩ | ⟨-, heq⟩
  · -- the page would still be in use after it was freed
    rcases pmmFree_cases s addr with ⟨page', haddr', -, -, heq⟩ | ⟨hrejected, heq⟩
    · have hpage : page = page' := by
        unfold pageSize at haddr haddr'
        omega
      have hclear : pmmTestBit (pmmFree s addr).1 page = false := by
        rw [heq, hpage]
        refine (testBit_clearBit (by decide) s.bitmap page' page').trans ?_
        simp
      rw [hclear] at hused
      cases hused
    · rw [heq, heq]
  · exact heq

theorem ne_zero_of_mem_reclaimedAddrs (h : addr ∈ reclaimedAddrs regions) : addr ≠ 0 := by
  obtain ⟨r, -, hr⟩ := List.mem_flatMap.mp h
  split_ifs at hr with hkind
  · have hlow := of_decide_eq_true (List.mem_filter.mp hr).2
    unfold mib at hlow
    omega
  · cases hr

theorem foldl_pmmFree {P : State → Prop} {addrs : List ℕ}
    (hkeep : ∀ s addr, addr ∈ addrs → P s → P (pmmFree s addr).1) (hs : P s) :
    P (addrs.foldl (fun s addr => (pmmFree s addr).1) s) :=
  List.foldlRecOn addrs _ hs fun s h addr haddr => hkeep s addr haddr h

theorem Balanced.reclaim (h : Balanced s) (regions : List MemRegion) :
    Balanced (pmmReclaimBootloader s regions) :=
  foldl_pmmFree (fun _ _ haddr hs => hs.free_call (ne_zero_of_mem_reclaimedAddrs haddr)) h

theorem Balanced.step (h : Balanced s) {call : Call} (hstep : CallStep s call s') :
    Balanced s' := by
  obtain ⟨hfst, rfl⟩ := hstep
  cases call with
  | alloc => exact h.alloc
  | free addr => exact h.free_call hfst
  | reclaim regions => exact h.reclaim regions

theorem Balanced.run (h : Balanced s) (hrun : Run CallStep s calls t) : Balanced t :=
  Run.invariant (fun _ _ _ hs hstep => hs.step hstep) hrun h

theorem Balanced.used_step (h : Balanced s) {call : Call} (hused : pmmTestBit s q = true)
    (hkeeps : ¬ call.GivesBack (q * pageSize)) : pmmTestBit (call.run s) q = true := by
  cases call with
  | alloc =>
    rcases h.pmmAlloc_cases with ⟨page, -, -, heq⟩ | ⟨-, heq⟩
    · rw [Call.run, heq, pmmTestBit_takePage, hused, Bool.or_true]
    · rw [Call.run, heq, hused]
  | free addr => exact (pmmTestBit_pmmFree hkeeps).trans hused
  | reclaim regions =>
    refine foldl_pmmFree (P := fun s => pmmTestBit s q = true) (fun s addr haddr hs => ?_) hused
    have hother : addr ≠ q * pageSize := fun heq => hkeeps (heq ▸ haddr)
    exact (pmmTestBit_pmmFree hother).trans hs

theorem Balanced.used_run (h : Balanced s) (hrun : Run CallStep s calls t)
    (hused : pmmTestBit s q = true) (hkeeps : ∀ call ∈ calls, ¬ call.GivesBack (q * pageSize)) :
    pmmTestBit t q = true := by
  induction hrun with
  | nil => exact hused
  | cons hstep _ ih =>
    have hnext := h.used_step hused (hkeeps _ List.mem_cons_self)
    rw [hstep.2] at hnext
    exact ih (h.step hstep) hnext fun call hcall => hkeeps call (List.mem_cons_of_mem _ hcall)

theorem Balanced.pmmAlloc_ne (h : Balanced s) (hsome : (pmmAlloc s).1 ≠ 0)
    (hrun : Run CallStep (pmmAlloc s).2 calls t)
    (hkeeps : ∀ call ∈ calls, ¬ call.GivesBack (pmmAlloc s).1) :
    (pmmAlloc t).1 ≠ (pmmAlloc s).1 := by
  have hnext := h.alloc
  rcases h.pmmAlloc_cases with ⟨page, -, hpos, heq⟩ | ⟨-, heq⟩
  · rw [heq] at hrun hkeeps hnext ⊢
    have hused : pmmTestBit t page = true := by
      refine hnext.used_run hrun ?_ hkeeps
      rw [pmmTestBit_takePage, decide_eq_true rfl, Bool.true_or]
    rcases (hnext.run hrun).pmmAlloc_cases with ⟨q, ⟨-, hfree, -⟩, -, heq'⟩ | ⟨-, heq'⟩
    · intro hsame
      have hq : q = page := by
        rw [heq'] at hsame
        unfold pageSize at hsame
        omega
      rw [hq, hused] at hfree
      cases hfree
    · rw [heq']
      unfold pageSize
      omega
  · rw [heq] at hsome
    exact absurd rfl hsome

/-- In every state after `pmm_init` the counters are those of the bitmap. An allocation gives the
lowest free page, or zero exactly when there is none. Frees that are rejected or repeated change
nothing. -/
theorem allocator_invariant {memory : ℕ → BitVec 64} {start : State} (hwf : WellFormed regions)
    (hinit : pmmInit memory regions = some start) (hrun : Run CallStep start calls s) :
    s.freePages = countClear s.bitmap s.maxPages ∧
      s.usedPages + s.freePages = s.maxPages ∧
      (∀ page < s.lastFound, pmmTestBit s page = true) ∧
      (∀ page, LowestFree s page → (pmmAlloc s).1 = page * pageSize) ∧
      ((pmmAlloc s).1 = 0 ↔ ∀ page < s.maxPages, pmmTestBit s page = true) ∧
      (∀ later t, (pmmAlloc s).1 ≠ 0 → Run CallStep (pmmAlloc s).2 later t →
        (∀ call ∈ later, ¬ call.GivesBack (pmmAlloc s).1) → (pmmAlloc t).1 ≠ (pmmAlloc s).1) ∧
      (∀ addr, addr % pageSize ≠ 0 ∨ s.maxPages ≤ addr / pageSize ∨
        pmmTestBit s (addr / pageSize) = false → (pmmFree s addr).1 = s) ∧
      ∀ addr, (pmmFree (pmmFree s addr).1 addr).1 = (pmmFree s addr).1 := by
  have h := (balanced_pmmInit hwf hinit).run hrun
  exact ⟨h.free, h.sum, h.below, fun _ => h.pmmAlloc_eq, h.pmmAlloc_eq_zero_iff,
    fun _ _ => h.pmmAlloc_ne, fun _ => pmmFree_rejected, pmmFree_again s⟩

/-- A memory map with two pages above the first MiB. -/
def smallRegions : List MemRegion := [{ base := 0x100000, length := 0x2000, type := .usable }]

theorem wellFormed_smallRegions : WellFormed smallRegions := ⟨by decide, by decide, by decide⟩

/-- The bitmap takes one of the pages, and an allocation the other. -/
theorem allocator_invariant_small : ∃ start,
    pmmInit (fun _ => 0) smallRegions = some start ∧
      Run CallStep start [.alloc] (pmmAlloc start).2 ∧
      (pmmAlloc start).2.usedPages + (pmmAlloc start).2.freePages =
        (pmmAlloc start).2.maxPages := by
  have hsome : (pmmInit (fun _ => 0) smallRegions).isSome = true := by decide +kernel
  obtain ⟨start, hinit⟩ := Option.isSome_iff_exists.mp hsome
  have hrun : Run CallStep start [.alloc] (pmmAlloc start).2 := .cons ⟨trivial, rfl⟩ (.nil _)
  exact ⟨start, hinit, hrun, (allocator_invariant wellFormed_smallRegions hinit hrun).2.1⟩

end Taavi.X64.Pmm
