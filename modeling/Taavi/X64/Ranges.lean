import Taavi.X64.Refinement
import Taavi.X64.Region
import Taavi.X64.Teardown

/-!
# Freeing a range of pages on the x86_64

`paging_get_phys` gives 0 for a page that is not mapped, which is not what `vmm_free` tests for: it
gives back page 0.
-/

namespace Taavi.X64

open Lib X64.Pmm List
open Paging (Machine)

def frameAt (s : Machine Pmm.State) (dir virt : ℕ) : Option ℕ :=
  (leafOf s.mem dir virt).map fun leaf => frameOf leaf.1

/-- Whole pages with canonical addresses, mapped by entries of 4 KiB or not at all, while page 0 is
reserved. -/
structure FreeableRange (roots : ℕ → Prop) (s : Machine Pmm.State) (dir virt size : ℕ) : Prop where
  tables : Tables roots s
  isRoot : roots dir
  nonzero : dir ≠ 0
  aligned : virt % pageSize = 0
  inside : virt < 2 ^ 64 ∧ virt + size ≤ 2 ^ 64
  canonical : ∀ x < size, isCanonical (virt + x) = true
  small : ∀ x < size, ∀ leaf, leafOf s.mem dir (virt + x) = some leaf → leaf.2 = false
  first : 0 < s.pmm.maxPages ∧ pmmTestBit s.pmm 0 = true

/-- Every translation outside a range is as before. All directories share the kernel half. -/
def KeepsOthers (roots : ℕ → Prop) (s t : Machine Pmm.State) (dir virt pages : ℕ) : Prop :=
  ∀ dir' virt', roots dir' → virt' < 2 ^ 64 → isCanonical virt' = true →
    dir' ≠ dir ∧ ¬KernelIndex (pml4Index virt') ∨ virt' < virt ∨ virt + pages * pageSize ≤ virt' →
    leafOf t.mem dir' virt' = leafOf s.mem dir' virt'

/-- The pages are unmapped, nothing else is, and exactly their frames are given back. -/
structure FreesExactly (roots : ℕ → Prop) (s t : Machine Pmm.State) (dir virt pages : ℕ) :
    Prop where
  unmapped : ∀ k < pages, ∀ x < pageSize, leafOf t.mem dir (virt + k * pageSize + x) = none
  kept : KeepsOthers roots s t dir virt pages
  frames : ∀ q < s.pmm.maxPages, pmmTestBit t.pmm q = true ↔
    pmmTestBit s.pmm q = true ∧ ∀ k < pages, frameAt s dir (virt + k * pageSize) ≠ some q
  first : pmmTestBit t.pmm 0 = true

variable {roots : ℕ → Prop} {s t : Machine Pmm.State} {dir virt : ℕ}

theorem tableIndex_of_page {virt' : ℕ} (shift : ℕ) (hpage : virt' / pageSize = virt / pageSize) :
    tableIndex (12 + shift) virt' = tableIndex (12 + shift) virt := by
  unfold tableIndex
  rw [Nat.pow_add, ← Nat.div_div_eq_div_mul, ← Nat.div_div_eq_div_mul]
  exact congrArg (· / 2 ^ shift % entriesPerTable) hpage

theorem leafOf_of_page {virt' : ℕ} (mem : ℕ → ℕ → ℕ) (hpage : virt' / pageSize = virt / pageSize) :
    leafOf mem dir virt' = leafOf mem dir virt := by
  have h₁ : pml4Index virt' = pml4Index virt := tableIndex_of_page 27 hpage
  have h₂ : pdpIndex virt' = pdpIndex virt := tableIndex_of_page 18 hpage
  have h₃ : pdIndex virt' = pdIndex virt := tableIndex_of_page 9 hpage
  have h₄ : ptIndex virt' = ptIndex virt := tableIndex_of_page 0 hpage
  simp only [leafOf, h₁, h₂, h₃, h₄]

theorem pmm_pagingUnmap (s : Machine Pmm.State) (dir virt : ℕ) :
    (pagingUnmap pmmAlloc s dir virt).1.pmm = s.pmm := by
  unfold pagingUnmap
  rw [descend_false]
  split
  · rfl
  · cases walk tableOf s.mem dir [pml4Index virt, pdpIndex virt, pdIndex virt] with
    | none => rfl
    | some table =>
      dsimp only
      split <;> rfl

theorem Tables.unmapPage (h : Tables roots s) (hdir : roots dir) (hvirt : virt < 2 ^ 64)
    (hcanon : isCanonical virt = true) (halign : virt % pageSize = 0)
    (hsmall : ∀ leaf, leafOf s.mem dir virt = some leaf → leaf.2 = false) :
    Tables roots (X64.pagingUnmap pmmAlloc s dir virt).1 ∧
      (∀ virt', virt' / pageSize = virt / pageSize → virt' < 2 ^ 64 → isCanonical virt' = true →
        leafOf (X64.pagingUnmap pmmAlloc s dir virt).1.mem dir virt' = none) ∧
      ∀ dir' virt', roots dir' → virt' < 2 ^ 64 → isCanonical virt' = true →
        dir' ≠ dir ∧ ¬KernelIndex (pml4Index virt') ∨ virt' / pageSize ≠ virt / pageSize →
        leafOf (X64.pagingUnmap pmmAlloc s dir virt).1.mem dir' virt' =
          leafOf s.mem dir' virt' := by
  rcases hresult : X64.pagingUnmap pmmAlloc s dir virt with ⟨t, ok⟩
  have hdoes := h.pagingUnmap hdir hvirt hcanon pmmAlloc
  rw [hresult] at hdoes
  rcases hdoes with ⟨u, heq, hkept⟩ | ⟨u, heq, hreplaced⟩
  · cases heq
    have hnone : leafOf s.mem dir virt = none := by
      rcases hleaf : leafOf s.mem dir virt with _ | ⟨entry, huge⟩
      · rfl
      · obtain rfl : huge = false := hsmall _ hleaf
        obtain ⟨table, -, hunmap⟩ := pagingUnmap_eq halign hleaf
        cases hresult.symm.trans (hunmap s.pmm)
    refine ⟨hkept.tables, fun virt' hpage _ _ => ?_, fun dir' virt' hdir' _ _ _ => ?_⟩
    · rw [hkept.leaves.leafOf_eq hdir, leafOf_of_page _ hpage, hnone]
    · exact hkept.leaves.leafOf_eq hdir' virt'
  · cases heq
    refine ⟨hreplaced.tables, fun virt' hpage hlt hcanon' => ?_,
      fun dir' virt' hdir' hlt hcanon' hother => ?_⟩
    · rw [hreplaced.leaves dir virt' hdir hlt hcanon', if_pos ⟨.inl rfl, hpage⟩]
    · rw [hreplaced.leaves dir' virt' hdir' hlt hcanon', if_neg]
      rintro ⟨hsame, hpage⟩
      have hindex : pml4Index virt' = pml4Index virt := tableIndex_of_page 27 hpage
      rcases hother with ⟨hne, hlower⟩ | hne
      · rw [hindex] at hlower
        exact hsame.elim hne hlower
      · exact hne hpage

theorem Tables.pagingGetPhys_page (h : Tables roots s) (hdir : roots dir)
    (halign : virt % pageSize = 0)
    (hsmall : ∀ leaf, leafOf s.mem dir virt = some leaf → leaf.2 = false) :
    pagingGetPhys s dir virt = (frameAt s dir virt).getD 0 * pageSize := by
  rw [(h.walkEnds hdir virt).pagingGetPhys_eq, frameAt]
  rcases hleaf : leafOf s.mem dir virt with _ | ⟨entry, huge⟩
  · simp
  · obtain rfl : huge = false := hsmall _ hleaf
    simp only [Option.map_some, Option.getD_some, frameOf_mul_pageSize]
    rw [sizeOf, if_neg Bool.false_ne_true, halign, add_zero]

theorem isCanonical_add {x : ℕ} (hvirt : virt < 2 ^ 64) (hcanon : isCanonical virt = true)
    (halign : virt % pageSize = 0) (hx : x < pageSize) :
    virt + x < 2 ^ 64 ∧ isCanonical (virt + x) = true := by
  have hhalf := (isCanonical_iff hvirt).mp hcanon
  have hlt : virt + x < 2 ^ 64 := by
    unfold pageSize at *
    omega
  refine ⟨hlt, (isCanonical_iff hlt).mpr ?_⟩
  unfold pageSize at *
  omega

theorem Tables.vmmFreeLoop {pages : ℕ} (h : Tables roots s) (hdir : roots dir)
    (halign : virt % pageSize = 0)
    (hpages : ∀ k < pages, virt + k * pageSize < 2 ^ 64 ∧
      isCanonical (virt + k * pageSize) = true ∧
      ∀ leaf, leafOf s.mem dir (virt + k * pageSize) = some leaf → leaf.2 = false)
    (ht : X64.vmmFreeLoop pmmAlloc pmmFree dir pages s (virt % 2 ^ 64) = t) :
    (∀ k < pages, ∀ x < pageSize, leafOf t.mem dir (virt + k * pageSize + x) = none) ∧
      KeepsOthers roots s t dir virt pages ∧
      t.pmm = freeFrames s.pmm
        ((List.range pages).map fun k => (frameAt s dir (virt + k * pageSize)).getD 0) := by
  induction pages generalizing s virt with
  | zero =>
    subst ht
    exact ⟨fun k hk => absurd hk (Nat.not_lt_zero k), fun _ _ _ _ _ _ => rfl, rfl⟩
  | succ pages ih =>
    obtain ⟨hvirt, hcanon, hsmall⟩ := hpages 0 (Nat.succ_pos pages)
    rw [zero_mul, add_zero] at hvirt hcanon hsmall
    obtain ⟨htables, hnone, hkept⟩ := h.unmapPage hdir hvirt hcanon halign hsmall
    rw [Nat.mod_eq_of_lt hvirt, X64.vmmFreeLoop] at ht
    dsimp only at ht
    rw [h.pagingGetPhys_page hdir halign hsmall, if_pos (mul_pageSize_ne_invalid _),
      pmm_pagingUnmap] at ht
    have hnext : (virt + pageSize) % pageSize = 0 := by rw [Nat.add_mod_right, halign]
    have haddr (k : ℕ) : virt + pageSize + k * pageSize = virt + (k + 1) * pageSize := by
      rw [add_mul, one_mul]
      omega
    have hlater (k : ℕ) (hk : k < pages) :
        leafOf (X64.pagingUnmap pmmAlloc s dir virt).1.mem dir (virt + (k + 1) * pageSize) =
          leafOf s.mem dir (virt + (k + 1) * pageSize) := by
      obtain ⟨hlt, hcanon', -⟩ := hpages (k + 1) (by omega)
      refine hkept dir _ hdir hlt hcanon' (.inr ?_)
      unfold pageSize
      omega
    obtain ⟨hunmapped, hothers, hpmm⟩ := ih (htables.with_pmm _) hnext (fun k hk => by
      rw [haddr]
      obtain ⟨hlt, hcanon', hsmall'⟩ := hpages (k + 1) (by omega)
      exact ⟨hlt, hcanon', by rwa [hlater k hk]⟩) ht
    refine ⟨fun k hk x hx => ?_, fun dir' virt' hdir' hlt hcanon' hout => ?_, ?_⟩
    · cases k with
      | zero =>
        rw [zero_mul, add_zero]
        obtain ⟨hlt, hcanon'⟩ := isCanonical_add hvirt hcanon halign hx
        rw [hothers dir _ hdir hlt hcanon' (.inr (.inl (by omega)))]
        refine hnone _ ?_ hlt hcanon'
        unfold pageSize at *
        omega
      | succ k =>
        rw [← haddr]
        exact hunmapped k (by omega) x hx
    · rw [hothers dir' virt' hdir' hlt hcanon' (hout.imp_right fun hrange => ?_)]
      · refine hkept dir' virt' hdir' hlt hcanon' (hout.imp_right fun hrange => ?_)
        unfold pageSize at *
        omega
      · unfold pageSize at *
        omega
    · rw [hpmm, range_succ_eq_map, map_cons, map_map, zero_mul, add_zero]
      refine congrArg (freeFrames (pmmFree s.pmm _).1) (map_congr_left fun k hk => ?_)
      rw [haddr, frameAt, hlater k (mem_range.mp hk)]
      rfl

theorem pmmTestBit_freeFrames_of_lt {p : Pmm.State} {q : ℕ} (hq : q < p.maxPages) (l : List ℕ) :
    pmmTestBit (freeFrames p l) q = (decide (q ∉ l) && pmmTestBit p q) := by
  induction l generalizing p with
  | nil => simp [freeFrames]
  | cons frame l ih =>
    refine (ih ((maxPages_pmmFree p (frame * pageSize)).symm ▸ hq)).trans ?_
    by_cases hframe : q = frame
    · subst hframe
      rw [pmmTestBit_giveBack hq]
      simp
    · have hother : frame * pageSize ≠ q * pageSize :=
        fun heq => hframe (Nat.eq_of_mul_eq_mul_right (by decide) heq).symm
      rw [pmmTestBit_pmmFree hother]
      simp [hframe]

/-- Exact if and only if the range has no hole and does not have the first page of the memory. -/
theorem vmmFree_exact_iff {size : ℕ} (h : FreeableRange roots s dir virt size) :
    FreesExactly roots s (vmmFree pmmAlloc pmmFree s dir virt size).1 dir virt (pagesOf size) ↔
      ∀ k < pagesOf size, ∃ f, frameAt s dir (virt + k * pageSize) = some f ∧ f ≠ 0 := by
  obtain ⟨hvirt, hsize⟩ := h.inside
  have hbelow (k : ℕ) (hk : k < pagesOf size) : k * pageSize < size := by
    unfold pagesOf pageSize at *
    omega
  have hcall : X64.vmmFreeLoop pmmAlloc pmmFree dir (pagesOf size) s (virt % 2 ^ 64) =
      (vmmFree pmmAlloc pmmFree s dir virt size).1 := by
    rw [vmmFree, if_neg h.nonzero, Nat.mod_eq_of_lt hvirt]
  obtain ⟨hunmapped, hkept, hpmm⟩ := h.tables.vmmFreeLoop h.isRoot h.aligned
    (fun k hk => ⟨by have := hbelow k hk; omega, h.canonical _ (hbelow k hk),
      h.small _ (hbelow k hk)⟩) hcall
  generalize (vmmFree pmmAlloc pmmFree s dir virt size).1 = t at *
  have hbits (q : ℕ) (hq : q < s.pmm.maxPages) : pmmTestBit t.pmm q = true ↔
      pmmTestBit s.pmm q = true ∧
        ∀ k < pagesOf size, (frameAt s dir (virt + k * pageSize)).getD 0 ≠ q := by
    rw [hpmm, pmmTestBit_freeFrames_of_lt hq, Bool.and_eq_true, decide_eq_true_iff, and_comm]
    simp only [mem_map, mem_range, not_exists, not_and, ne_eq]
  constructor
  · intro hexact k hk
    have hne := ((hbits 0 h.first.1).mp hexact.first).2 k hk
    rcases hframe : frameAt s dir (virt + k * pageSize) with _ | f
    · rw [hframe] at hne
      exact absurd rfl hne
    · rw [hframe] at hne
      exact ⟨f, rfl, hne⟩
  · intro hmapped
    refine ⟨hunmapped, hkept, fun q hq => (hbits q hq).trans (and_congr_right fun _ => ?_), ?_⟩
    · refine forall₂_congr fun k hk => not_congr ?_
      obtain ⟨f, hf, -⟩ := hmapped k hk
      rw [hf, Option.getD_some, Option.some.injEq]
    · refine (hbits 0 h.first.1).mpr ⟨h.first.2, fun k hk => ?_⟩
      obtain ⟨f, hf, hne⟩ := hmapped k hk
      rwa [hf]

/-- A machine whose 64 pages are all in use. -/
def fullMachine (m : Machine ℕ) : Machine Pmm.State where
  mem := m.mem
  kernelPageDir := m.kernelPageDir
  pmm :=
    { bitmap := fun _ => BitVec.allOnes 64
      maxPages := 64
      usedPages := 64
      freePages := 0
      lastFound := 0 }

theorem freeable_fullMachine {m : Machine ℕ} (h : Tables roots m) (hdir : roots 1000)
    (hsmall : ∀ leaf, leafOf m.mem 1000 0x400000 = some leaf → leaf.2 = false) :
    FreeableRange roots (fullMachine m) 1000 0x400000 pageSize := by
  refine ⟨{ h with }, hdir, by decide,
    by decide, by decide, fun x hx => ?_, fun x hx leaf hleaf => hsmall leaf ?_, Nat.succ_pos 63,
    (by decide : testBit (fun _ => BitVec.allOnes 64) 0 = true)⟩
  · exact (isCanonical_add (by decide) (by decide) (by decide) hx).2
  · rw [← hleaf]
    refine (leafOf_of_page _ ?_).symm
    unfold pageSize at *
    omega

theorem tables_exampleStart : Tables (booted exampleStart).roots exampleStart ∧
    (booted exampleStart).roots 1000 ∧ leafOf exampleStart.mem 1000 0x400000 = none := by
  obtain ⟨hfilling, -⟩ := filling_of_initKernelHalf exampleBoot_fresh exampleStart_done
  have hker : exampleStart.kernelPageDir = 1000 := by decide +kernel
  have hroots : (booted exampleStart).roots = KernelOnly exampleStart := by
    funext dir
    exact propext mem_singleton
  rw [hroots]
  exact ⟨hfilling.tables, hker.symm, hker ▸ hfilling.leafOf_eq _⟩

/-- A page of the user is freed, and its frame is given back. -/
theorem one_page_is_freed : FreesExactly (booted exampleStart).roots (fullMachine exampleMapped)
    (vmmFree pmmAlloc pmmFree (fullMachine exampleMapped) 1000 0x400000 pageSize).1 1000 0x400000
      (pagesOf pageSize) := by
  obtain ⟨htables, hdir, -⟩ := tables_exampleStart
  have hlow : Nat.testBit 7 2 = true → 0x400000 < 2 ^ 47 := fun _ => by decide
  have hdoes := htables.pagingMap hdir (by decide) hlow exampleStart_fresh 0x9000
  have hok : (pagingMap Paging.nextFrame exampleStart 1000 0x400000 0x9000 7).2 = true := by
    decide +kernel
  rcases hdoes with ⟨t, heq, -⟩ | ⟨t, heq, hreplaced⟩
  · rw [heq] at hok
    cases hok
  have hmapped : exampleMapped = t := by
    unfold exampleMapped
    rw [heq]
  have hleaf : leafOf t.mem 1000 0x400000 = some (0x9000 ||| 7 ||| Paging.pagePresent, false) := by
    rw [hreplaced.leaves 1000 0x400000 hdir (by decide) (by decide), if_pos ⟨.inl rfl, rfl⟩]
  rw [hmapped]
  refine (vmmFree_exact_iff (freeable_fullMachine hreplaced.tables hdir fun leaf h => ?_)).mpr ?_
  · cases hleaf.symm.trans h
    rfl
  · intro k hk
    obtain rfl : k = 0 := by
      have hone : pagesOf pageSize = 1 := by decide
      omega
    exact ⟨9, by rw [frameAt, fullMachine, zero_mul, add_zero, hleaf]; decide, by decide⟩

/-- In a directory that does not have the page, page 0 is given back instead. -/
theorem hole_frees_first_page :
    FreeableRange (booted exampleStart).roots (fullMachine exampleStart) 1000 0x400000 pageSize ∧
      pmmTestBit
        (vmmFree pmmAlloc pmmFree (fullMachine exampleStart) 1000 0x400000 pageSize).1.pmm 0 =
          false := by
  obtain ⟨htables, hdir, hnone⟩ := tables_exampleStart
  refine ⟨freeable_fullMachine htables hdir fun leaf hleaf => ?_, by decide +kernel⟩
  cases hnone.symm.trans hleaf

end Taavi.X64
