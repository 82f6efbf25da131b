import Taavi.Lib.Runs
import Taavi.Memory.Exec
import Taavi.Memory.Frames
import Taavi.Memory.PageTables

/-!
# The kernel half and programs

`elf_load` and `sys_sbrk` must not change the directories and tables of the kernel half. Calls below
the kernel write only to the user half, its tables and the pages that they map.
-/

namespace Taavi.Paging

open Lib Pmm

/-- The frames of the directories and of the tables of their kernel halves. -/
def KernelFrame (s : Kernel) (dirs : List ℕ) (frame : ℕ) : Prop :=
  frame ∈ dirs ∨ ∃ dir ∈ dirs, ∃ i, kernelPdIndexStart ≤ i ∧ tableOf (s.mem dir i) = some frame

/-- The last page of the address space, which `pmm_free(INVALID_PHYSICAL_PAGE)` frees. -/
def lastPage : ℕ := invalidPhysicalPage / pageSize

/-- The frames of the kernel are in use, and neither the first nor the last page. -/
structure Intact (s : Kernel) (dirs : List ℕ) : Prop where
  kernel : s.kernelPageDir ∈ dirs
  used : ∀ frame, KernelFrame s dirs frame → pmmTestBit s.pmm frame = true
  ne_zero : ∀ frame, KernelFrame s dirs frame → frame ≠ 0
  ne_last : ∀ frame, KernelFrame s dirs frame → frame ≠ lastPage
  cursor : s.pmm.lastFound ≤ maxPages

/-- What calls for the user half of `dir` keep: the kernel's frames, apart from its own. -/
structure Contained (dirs : List ℕ) (dir : ℕ) (before s : Kernel) : Prop where
  cursor : s.pmm.lastFound ≤ maxPages
  used : ∀ frame, KernelFrame before dirs frame → pmmTestBit s.pmm frame = true
  other : ∀ frame, KernelFrame before dirs frame → frame ≠ dir → s.mem frame = before.mem frame
  own : ∀ i, kernelPdIndexStart ≤ i → s.mem dir i = before.mem dir i
  tables : ∀ i table, i < kernelPdIndexStart → tableOf (s.mem dir i) = some table →
    ¬KernelFrame before dirs table
  pages : ∀ i table j, i < kernelPdIndexStart → tableOf (s.mem dir i) = some table →
    ¬KernelFrame before dirs (s.mem table j / pageSize)

/-- The directory is one of the kernel's frames but no table of the kernel half, nor is the first or
last page. -/
structure Setting (dirs : List ℕ) (dir : ℕ) (before : Kernel) : Prop where
  mem : dir ∈ dirs
  ne_zero : ∀ frame, KernelFrame before dirs frame → frame ≠ 0
  ne_last : ∀ frame, KernelFrame before dirs frame → frame ≠ lastPage
  not_table : ∀ d i, d ∈ dirs → kernelPdIndexStart ≤ i → tableOf (before.mem d i) ≠ some dir

section

variable {dirs : List ℕ} {dir virt phys flags addr : ℕ} {before s : Kernel}

theorem Setting.dir_ne_zero (hset : Setting dirs dir before) : dir ≠ 0 :=
  hset.ne_zero dir (.inl hset.mem)

theorem Setting.kernelFrame_dir (hset : Setting dirs dir before) : KernelFrame before dirs dir :=
  Or.inl hset.mem

theorem Setting.not_zero (hset : Setting dirs dir before) : ¬KernelFrame before dirs 0 :=
  fun h => hset.ne_zero 0 h rfl

theorem Setting.not_last (hset : Setting dirs dir before) :
    ¬KernelFrame before dirs (invalidPhysicalPage / pageSize) :=
  fun h => hset.ne_last _ h rfl

theorem pmmAlloc_addr {pmm : Pmm.State} (hcursor : pmm.lastFound ≤ maxPages) :
    ((pmmAlloc pmm).1 = 0 ∨ pageSize ∣ (pmmAlloc pmm).1 ∧
      pmmTestBit pmm ((pmmAlloc pmm).1 / pageSize) = false ∧
      pmmTestBit (pmmAlloc pmm).2 ((pmmAlloc pmm).1 / pageSize) = true) ∧
    (pmmAlloc pmm).2.lastFound ≤ maxPages ∧
    ∀ q, pmmTestBit pmm q = true → pmmTestBit (pmmAlloc pmm).2 q = true := by
  rcases pmmAlloc_cases hcursor with ⟨page, hlt, hclear, halloc, -⟩ | ⟨halloc, -⟩
  · have haddr : (pmmAlloc pmm).1 = page * pageSize := by
      rw [halloc]
      unfold maxPages at hlt
      show page * pageSize % 2 ^ 32 = page * pageSize
      unfold pageSize
      omega
    have hdiv : (pmmAlloc pmm).1 / pageSize = page := by
      rw [haddr, Nat.mul_div_cancel page (by decide)]
    refine ⟨.inr ⟨⟨page, haddr.trans (mul_comm ..)⟩, by rw [hdiv]; exact hclear, ?_⟩, ?_, ?_⟩
    · rw [hdiv, halloc, pmmTestBit_takePage]
      simp
    · rw [halloc]
      exact hlt
    · intro q hq
      rw [halloc, pmmTestBit_takePage, hq, Bool.or_true]
  · rw [halloc]
    exact ⟨.inl rfl, hcursor, fun q hq => hq⟩

theorem Contained.fresh (h : Contained dirs dir before s) (haddr : (pmmAlloc s.pmm).1 ≠ 0) :
    ¬KernelFrame before dirs ((pmmAlloc s.pmm).1 / pageSize) := by
  obtain ⟨-, hclear, -⟩ := (pmmAlloc_addr h.cursor).1.resolve_left haddr
  intro hframe
  rw [h.used _ hframe] at hclear
  cases hclear

theorem Contained.alloc (h : Contained dirs dir before s) :
    Contained dirs dir before { s with pmm := (pmmAlloc s.pmm).2 } := by
  obtain ⟨-, hcursor, hkept⟩ := pmmAlloc_addr h.cursor
  exact { h with cursor := hcursor, used := fun frame hframe => hkept frame (h.used frame hframe) }

theorem Contained.free (h : Contained dirs dir before s)
    (haddr : ¬KernelFrame before dirs (addr / pageSize)) :
    Contained dirs dir before { s with pmm := (pmmFree s.pmm addr).1 } := by
  refine ⟨by rw [lastFound_pmmFree]; exact h.cursor, ?_, h.other, h.own, h.tables, h.pages⟩
  intro frame hframe
  show pmmTestBit (pmmFree s.pmm addr).1 frame = true
  rw [pmmTestBit_pmmFree, h.used frame hframe, Bool.and_true, decide_eq_true_eq]
  rintro rfl
  exact haddr hframe

theorem userIndex_of_lt (hvirt : virt < kernelVirtualBase) : pdIndex virt < kernelPdIndexStart := by
  unfold kernelVirtualBase at hvirt
  unfold pdIndex kernelPdIndexStart
  omega

theorem Contained.congr {t : Kernel} (h : Contained dirs dir before s)
    (hset : Setting dirs dir before) (hpmm : t.pmm = s.pmm)
    (hker : ∀ f, KernelFrame before dirs f → t.mem f = s.mem f)
    (hpages : ∀ i table j, i < kernelPdIndexStart → tableOf (s.mem dir i) = some table →
      ¬KernelFrame before dirs (t.mem table j / pageSize)) : Contained dirs dir before t := by
  have hdir := hker dir hset.kernelFrame_dir
  refine ⟨hpmm ▸ h.cursor, hpmm ▸ h.used, fun f hf hne => (hker f hf).trans (h.other f hf hne),
    ?_, ?_, ?_⟩ <;> rw [hdir]
  · exact h.own
  · exact h.tables
  · exact hpages

section

variable (h : Contained dirs dir before s) (hset : Setting dirs dir before)
  (hvirt : virt < kernelVirtualBase)
include h hset hvirt

theorem Contained.setPage (htable : (s.mem dir (pdIndex virt)).testBit 0 = true) {word : ℕ}
    (hword : ¬KernelFrame before dirs (word / pageSize)) :
    Contained dirs dir before (s.setPage dir virt word) := by
  have htable := tableOf_of_present htable
  have hfree := h.tables _ _ (userIndex_of_lt hvirt) htable
  have hmem := setPage_mem htable word
  refine h.congr hset rfl (fun f hf => ?_) fun i table j hi ht => ?_
  · rw [hmem]
    funext i
    apply storeWord_of_ne
    rintro rfl
    exact hfree hf
  · rw [hmem, storeWord_apply]
    split
    · exact hword
    · exact h.pages i table j hi ht

theorem Contained.getPhys : ¬KernelFrame before dirs (pagingGetPhys s dir virt / pageSize) := by
  have hindex := userIndex_of_lt hvirt
  unfold pagingGetPhys
  rw [if_neg hset.dir_ne_zero]
  split
  · rename_i hpres
    rw [Nat.mul_div_cancel _ (by decide)]
    exact h.pages _ _ _ hindex (tableOf_of_present hpres)
  · exact hset.not_last

theorem Contained.hasTable {u : Kernel} (hu : HasTable pmmAlloc s dir virt flags u) :
    Contained dirs dir before u := by
  cases hu with
  | old => exact h
  | new habs haddr =>
    have hindex := userIndex_of_lt hvirt
    have hfresh := h.fresh haddr
    have hframe : ∀ f, KernelFrame before dirs f → f ≠ (pmmAlloc s.pmm).1 / pageSize := by
      rintro f hf rfl
      exact hfresh hf
    have hdir := hframe dir hset.kernelFrame_dir
    have hall := h.alloc
    refine ⟨hall.cursor, hall.used, ?_, ?_, ?_, ?_⟩
    · intro f hf hne
      funext i
      rw [← h.other f hf hne]
      simp only [install_apply, if_neg (hframe f hf), hne, false_and, if_false]
    · intro i hi
      rw [← h.own i hi]
      have hne : i ≠ pdIndex virt := by omega
      simp only [install_apply, if_neg hdir, hne, and_false, if_false]
    · intro i table hi ht
      simp only [install_apply, if_neg hdir, true_and] at ht
      split at ht
      · rw [tableOf_new] at ht
        rw [← Option.some.inj ht]
        exact hfresh
      · exact h.tables i table hi ht
    · intro i table j hi ht
      simp only [install_apply, if_neg hdir, true_and] at ht ⊢
      split at ht
      · rw [tableOf_new] at ht
        cases ht
        rw [if_neg (fun heq => hdir heq.1.symm), if_pos rfl]
        exact hset.not_zero
      · have hne : table ≠ dir := by
          rintro rfl
          exact h.tables i table hi ht hset.kernelFrame_dir
        rw [if_neg (fun heq => hne heq.1)]
        split
        · exact hset.not_zero
        · exact h.pages i table j hi ht

theorem Contained.pagingMap (hphys : ¬KernelFrame before dirs (phys / pageSize))
    (hflags : flags < pageSize) :
    Contained dirs dir before (pagingMap pmmAlloc s dir virt phys flags).1 := by
  have hcases := @pagingMap_cases _ pmmAlloc s dir hset.dir_ne_zero virt phys flags
  rcases hcases with ⟨u, hu, heq⟩ | ⟨-, -, heq⟩
  · rw [heq]
    have hpres : (u.mem dir (pdIndex virt)).testBit 0 = true := by
      simpa [tableOf_eq_none] using hu.table
    apply (h.hasTable hset hvirt hu).setPage hset hvirt hpres
    rwa [pageWord_div_pageSize _ hflags]
  · rw [heq]
    exact h.alloc

theorem Contained.pagingUnmap : Contained dirs dir before (pagingUnmap s dir virt).1 := by
  unfold Paging.pagingUnmap
  rw [if_neg hset.dir_ne_zero]
  split
  · rename_i hpres
    exact h.setPage hset hvirt hpres hset.not_zero
  · exact h

end

theorem Contained.vmmRollback (hset : Setting dirs dir before) (virtStart : ℕ) {fuel : ℕ}
    (h : Contained dirs dir before s) (hvirt : virt ≤ kernelVirtualBase) :
    Contained dirs dir before (vmmRollback pmmFree dir virtStart fuel s virt) := by
  induction fuel generalizing s virt with
  | zero => exact h
  | succ fuel ih =>
    simp only [Paging.vmmRollback]
    split
    · have hlt : virt - pageSize < kernelVirtualBase := by
        unfold kernelVirtualBase at hvirt ⊢
        unfold pageSize
        omega
      refine ih ?_ hlt.le
      apply Contained.pagingUnmap _ hset hlt
      split
      · exact h.free (h.getPhys hset hlt)
      · exact h
    · exact h

end

def UserTable (s : Kernel) (dir frame : ℕ) : Prop :=
  ∃ i, i < kernelPdIndexStart ∧ tableOf (s.mem dir i) = some frame

theorem userTable_congr {s t : Kernel} {dir frame : ℕ} (hdir : t.mem dir = s.mem dir) :
    UserTable t dir frame ↔ UserTable s dir frame := by
  unfold UserTable
  rw [hdir]

/-- The user's tables are in use, and the pages that they map are in use and no tables. -/
structure Clean (dir : ℕ) (s : Kernel) : Prop where
  used : ∀ table, UserTable s dir table → pmmTestBit s.pmm table = true
  ne_zero : ∀ table, UserTable s dir table → table ≠ 0
  words : ∀ table j, UserTable s dir table → s.mem table j = 0 ∨
    pmmTestBit s.pmm (s.mem table j / pageSize) = true ∧ ¬UserTable s dir (s.mem table j / pageSize)

section

variable {dirs : List ℕ} {dir virt flags : ℕ} {before s : Kernel}

variable {u : Kernel} {table frame left : ℕ}

theorem Contained.userTable (h : Contained dirs dir before s) (htable : UserTable s dir table) :
    ¬KernelFrame before dirs table := by
  obtain ⟨i, hi, ht⟩ := htable
  exact h.tables i table hi ht

theorem Clean.alloc (hclean : Clean dir s) (hcursor : s.pmm.lastFound ≤ maxPages) :
    Clean dir { s with pmm := (pmmAlloc s.pmm).2 } := by
  obtain ⟨-, -, hkept⟩ := pmmAlloc_addr hcursor
  refine ⟨fun table ht => hkept table (hclean.used table ht), hclean.ne_zero, ?_⟩
  intro table j ht
  rcases hclean.words table j ht with hzero | ⟨hused, hpage⟩
  · exact .inl hzero
  · exact .inr ⟨hkept _ hused, hpage⟩

section

variable (h : Contained dirs dir before s) (hset : Setting dirs dir before)
include h hset

theorem userTable_hasTable (hu : HasTable pmmAlloc s dir virt flags u)
    (htable : UserTable u dir table) :
    UserTable s dir table ∨ (pmmAlloc s.pmm).1 ≠ 0 ∧ table = (pmmAlloc s.pmm).1 / pageSize := by
  rcases hu.eq_or_new with rfl | ⟨haddr, -, hmem⟩
  · exact .inl htable
  · obtain ⟨i, hi, ht⟩ := htable
    have hdir : dir ≠ (pmmAlloc s.pmm).1 / pageSize := by
      intro heq
      apply h.fresh haddr
      rw [← heq]
      exact hset.kernelFrame_dir
    rw [hmem, install_apply, if_neg hdir] at ht
    split at ht
    · rw [tableOf_new] at ht
      exact .inr ⟨haddr, (Option.some.inj ht).symm⟩
    · exact .inl ⟨i, hi, ht⟩

theorem not_userTable_hasTable (hu : HasTable pmmAlloc s dir virt flags u)
    (hused : pmmTestBit s.pmm frame = true) (hnot : ¬UserTable s dir frame) :
    pmmTestBit u.pmm frame = true ∧ ¬UserTable u dir frame := by
  obtain ⟨hanswer, -, hkept⟩ := pmmAlloc_addr h.cursor
  refine ⟨?_, fun ht => ?_⟩
  · rcases hu.eq_or_new with rfl | ⟨-, hpmm, -⟩
    · exact hused
    · rw [hpmm]
      exact hkept frame hused
  · rcases userTable_hasTable h hset hu ht with hold | ⟨haddr, rfl⟩
    · exact hnot hold
    · rw [(hanswer.resolve_left haddr).2.1] at hused
      cases hused

theorem Clean.hasTable (hclean : Clean dir s) (hvirt : virt < kernelVirtualBase)
    (hu : HasTable pmmAlloc s dir virt flags u) : Clean dir u := by
  have hcont := h.hasTable hset hvirt hu
  rcases hu.eq_or_new with rfl | ⟨haddr, hpmm, hmem⟩
  · exact hclean
  · obtain ⟨hanswer, -, hkept⟩ := pmmAlloc_addr h.cursor
    obtain ⟨halign, hclear, htaken⟩ := hanswer.resolve_left haddr
    refine ⟨?_, ?_, ?_⟩
    · intro table ht
      rw [hpmm]
      rcases userTable_hasTable h hset hu ht with hold | ⟨-, rfl⟩
      · exact hkept table (hclean.used table hold)
      · exact htaken
    · intro table ht
      rcases userTable_hasTable h hset hu ht with hold | ⟨-, rfl⟩
      · exact hclean.ne_zero table hold
      · obtain ⟨k, hk⟩ := halign
        rw [hk] at haddr ⊢
        rw [Nat.mul_div_cancel_left k (by decide)]
        rintro rfl
        exact haddr rfl
    · intro table j ht
      have hdir : table ≠ dir := by
        rintro rfl
        exact hcont.userTable ht hset.kernelFrame_dir
      rw [hmem, install_apply, if_neg (fun heq => hdir heq.1)]
      split
      · exact .inl rfl
      · rename_i hne
        have hold := (userTable_hasTable h hset hu ht).resolve_right (fun hnew => hne hnew.2)
        rcases hclean.words table j hold with hzero | ⟨hused, hpage⟩
        · exact .inl hzero
        · exact .inr (not_userTable_hasTable h hset hu hused hpage)

theorem Clean.setPage (hclean : Clean dir s) (hvirt : virt < kernelVirtualBase)
    (htable : (s.mem dir (pdIndex virt)).testBit 0 = true) {word : ℕ}
    (hused : pmmTestBit s.pmm (word / pageSize) = true)
    (hpage : ¬UserTable s dir (word / pageSize)) : Clean dir (s.setPage dir virt word) := by
  have htable := tableOf_of_present htable
  have hmem := setPage_mem htable word
  have hnot := h.tables _ _ (userIndex_of_lt hvirt) htable
  have hdir : (s.setPage dir virt word).mem dir = s.mem dir := by
    rw [hmem]
    funext i
    apply storeWord_of_ne
    intro heq
    rw [← heq] at hnot
    exact hnot hset.kernelFrame_dir
  refine ⟨fun table ht => hclean.used table ((userTable_congr hdir).mp ht),
    fun table ht => hclean.ne_zero table ((userTable_congr hdir).mp ht), fun table j ht => ?_⟩
  rw [userTable_congr hdir] at ht ⊢
  rw [hmem, storeWord_apply]
  split
  · exact .inr ⟨hused, hpage⟩
  · exact hclean.words table j ht

theorem Contained.fill (hclean : Clean dir s) (hframe : ¬KernelFrame before dirs frame)
    (hpage : ¬UserTable s dir frame) (content : ℕ → ℕ) :
    Contained dirs dir before { s with mem := assign s.mem frame content } ∧
      Clean dir { s with mem := assign s.mem frame content } := by
  have hker : ∀ f, KernelFrame before dirs f → assign s.mem frame content f = s.mem f := by
    intro f hf
    apply assign_of_ne
    rintro rfl
    exact hframe hf
  have hdir := hker dir hset.kernelFrame_dir
  have htables : ∀ table, UserTable s dir table → assign s.mem frame content table = s.mem table := by
    intro table ht
    apply assign_of_ne
    rintro rfl
    exact hpage ht
  have hsame (table : ℕ) : UserTable { s with mem := assign s.mem frame content } dir table ↔
      UserTable s dir table := userTable_congr hdir
  refine ⟨h.congr hset rfl hker fun i table j hi ht => ?_,
    fun table ht => hclean.used table ((hsame table).mp ht),
    fun table ht => hclean.ne_zero table ((hsame table).mp ht), fun table j ht => ?_⟩
  · dsimp only
    rw [htables table ⟨i, hi, ht⟩]
    exact h.pages i table j hi ht
  · rw [hsame] at ht ⊢
    dsimp only
    rw [htables table ht]
    exact hclean.words table j ht

end

theorem Contained.vmmAllocLoop (hset : Setting dirs dir before) (virtStart : ℕ)
    (hflags : flags < pageSize) {pages : ℕ} (h : Contained dirs dir before s)
    (hend : virt / pageSize + pages ≤ kernelVirtualBase / pageSize) {t : Kernel} {ok : Bool}
    (heq : vmmAllocLoop pmmAlloc pmmFree dir virtStart flags pages s virt = (t, ok)) :
    Contained dirs dir before t ∧ (Clean dir s → ok = true → Clean dir t) := by
  induction pages generalizing s virt with
  | zero =>
    cases heq
    exact ⟨h, fun hclean _ => hclean⟩
  | succ pages ih =>
    have hlt : virt < kernelVirtualBase := by
      unfold kernelVirtualBase pageSize at *
      omega
    have hmod : (virt + pageSize) % 2 ^ 32 = virt + pageSize := by
      apply Nat.mod_eq_of_lt
      unfold kernelVirtualBase at hlt
      unfold pageSize
      omega
    have hnext : (virt + pageSize) / pageSize + pages ≤ kernelVirtualBase / pageSize := by
      rw [Nat.add_div_right virt (by decide)]
      omega
    simp only [Paging.vmmAllocLoop] at heq
    split at heq
    · cases heq
      exact ⟨h.alloc.vmmRollback hset virtStart hlt.le, fun _ hok => Bool.noConfusion hok⟩
    · rename_i haddr
      have hmapped := h.alloc.pagingMap hset hlt (h.fresh haddr) hflags
      have hcases := @pagingMap_cases _ pmmAlloc { s with pmm := (pmmAlloc s.pmm).2 } dir
        hset.dir_ne_zero virt (pmmAlloc s.pmm).1 flags
      rcases hcases with ⟨u, hu, hmap⟩ | ⟨-, -, hmap⟩
      · rw [hmap] at hmapped heq
        rw [hmod] at heq
        obtain ⟨hcont, hrest⟩ := ih hmapped hnext heq
        refine ⟨hcont, fun hclean => hrest ?_⟩
        obtain ⟨hclear, hused⟩ := ((pmmAlloc_addr h.cursor).1.resolve_left haddr).2
        have hnot : ¬UserTable s dir ((pmmAlloc s.pmm).1 / pageSize) := by
          intro ht
          rw [hclean.used _ ht] at hclear
          cases hclear
        have hpres : (u.mem dir (pdIndex virt)).testBit 0 = true := by
          simpa [tableOf_eq_none] using hu.table
        have hclean' := (hclean.alloc h.cursor).hasTable h.alloc hset hlt hu
        obtain ⟨hused', hnot'⟩ := not_userTable_hasTable h.alloc hset hu hused hnot
        apply hclean'.setPage (h.alloc.hasTable hset hlt hu) hset hlt hpres
        all_goals rwa [pageWord_div_pageSize _ hflags]
      · rw [hmap] at hmapped heq
        cases heq
        exact ⟨hmapped.free (hmapped.getPhys hset hlt), fun _ hok => Bool.noConfusion hok⟩

theorem Clean.getPhys (hclean : Clean dir s) (hset : Setting dirs dir before)
    (hvirt : virt < kernelVirtualBase) (hphys : pagingGetPhys s dir virt ≠ invalidPhysicalPage) :
    ¬UserTable s dir (pagingGetPhys s dir virt / pageSize) := by
  unfold pagingGetPhys at hphys ⊢
  rw [if_neg hset.dir_ne_zero] at hphys ⊢
  split at hphys
  · rename_i hpres
    rw [if_pos hpres, Nat.mul_div_cancel _ (by decide)]
    have htable : UserTable s dir (s.mem dir (pdIndex virt) / pageSize) :=
      ⟨pdIndex virt, userIndex_of_lt hvirt, tableOf_of_present hpres⟩
    rcases hclean.words _ (ptIndex virt) htable with hzero | ⟨-, hpage⟩
    · rw [hzero]
      exact fun ht => hclean.ne_zero _ ht (Nat.zero_div _)
    · exact hpage
  · exact absurd rfl hphys

theorem Contained.fillPages (hset : Setting dirs dir before) (data : Memory) {p : Phdr}
    {j : ℕ} (h : Contained dirs dir before s) (hclean : Clean dir s)
    (hend : p.vaddr / pageSize + (j + left) ≤ kernelVirtualBase / pageSize) :
    Contained dirs dir before (fillPages data p dir left j s).1 ∧
      Clean dir (fillPages data p dir left j s).1 := by
  induction left generalizing s j with
  | zero => exact ⟨h, hclean⟩
  | succ left ih =>
    have hvirt : (p.vaddr + j * pageSize) % 2 ^ 32 < kernelVirtualBase := by
      unfold kernelVirtualBase pageSize at *
      omega
    simp only [Paging.fillPages]
    split
    · exact ⟨h, hclean⟩
    · rename_i hphys
      obtain ⟨h', hclean'⟩ := h.fill hset hclean (h.getPhys hset hvirt)
        (hclean.getPhys hset hvirt hphys) (pageContent data (p.offset + j * pageSize) (p.toCopy j))
      exact ih h' hclean' (by omega)

theorem pages_of_size {n : ℕ} (hn : n < maxPages) :
    (n * pageSize + pageSize - 1) % 2 ^ 32 / pageSize = n := by
  unfold maxPages at hn
  unfold pageSize
  omega

theorem Phdr.pages_lt (p : Phdr) : p.pages < maxPages := by
  unfold Phdr.pages maxPages pageSize
  omega

theorem Phdr.pageFlags_lt (p : Phdr) : p.pageFlags < pageSize := by
  unfold Phdr.pageFlags
  split <;> decide

def Phdr.BelowKernel (p : Phdr) : Prop :=
  p.type = ptLoad → p.vaddr / pageSize + p.pages ≤ kernelVirtualBase / pageSize

theorem Contained.loadSegments (hset : Setting dirs dir before) (data : Memory)
    {i headerEnd : ℕ} (h : Contained dirs dir before s) (hclean : Clean dir s)
    (hbelow : ∀ k, i ≤ k → k < i + left → (phdrAt data k).BelowKernel) :
    Contained dirs dir before (loadSegments data dir left i s headerEnd).1 := by
  induction left generalizing s i headerEnd with
  | zero => exact h
  | succ left ih =>
    have hrest : ∀ k, i + 1 ≤ k → k < i + 1 + left → (phdrAt data k).BelowKernel :=
      fun k hk hlt => hbelow k (by omega) (by omega)
    simp only [Paging.loadSegments]
    split
    · exact ih h hclean hrest
    · rename_i htype
      have hend := hbelow i le_rfl (by omega) (not_not.mp htype)
      have hflags := (phdrAt data i).pageFlags_lt
      have heq : vmmAlloc pmmAlloc pmmFree s dir (phdrAt data i).vaddr (phdrAt data i).size
          (phdrAt data i).pageFlags = Paging.vmmAllocLoop pmmAlloc pmmFree dir
            (phdrAt data i).vaddr (phdrAt data i).pageFlags (phdrAt data i).pages s
            (phdrAt data i).vaddr := by
        unfold vmmAlloc
        rw [if_neg hset.dir_ne_zero, Phdr.size, pages_of_size (Phdr.pages_lt _)]
      rw [heq]
      split
      · rename_i hfailed
        exact (h.vmmAllocLoop hset _ hflags hend hfailed).1
      · rename_i hok
        obtain ⟨halloc, hclean'⟩ := h.vmmAllocLoop hset _ hflags hend hok
        obtain ⟨hfill, hcleanFill⟩ := halloc.fillPages hset data (hclean' hclean rfl)
          (show _ + (0 + (phdrAt data i).pages) ≤ _ by rwa [zero_add])
        split
        · rename_i hfailed
          rw [hfailed] at hfill
          exact hfill
        · rename_i hfilled
          rw [hfilled] at hfill hcleanFill
          exact ih hfill hcleanFill hrest

end

/-- The user may use the page of an address. -/
def UserAccessible (s : Kernel) (dir virt : ℕ) : Prop :=
  (s.mem dir (pdIndex virt)).testBit 2 = true ∧
    ∃ entry, pageEntry s dir virt = some entry ∧ entry.testBit 2 = true

def SameKernelHalf (dirs : List ℕ) (s t : Kernel) : Prop :=
  ∀ dir ∈ dirs, ∀ virt, kernelVirtualBase ≤ virt → virt < 2 ^ 32 →
    translate t dir virt = translate s dir virt ∧
      (UserAccessible t dir virt ↔ UserAccessible s dir virt)

def SegmentsBelow (data : Memory) : Prop :=
  ∀ i, i < data.read 44 2 → (phdrAt data i).BelowKernel

/-- One `sys_sbrk`. -/
def SbrkStep (p : Process) (size : ℕ) (p' : Process) : Prop := p' = (sysSbrk p size).1

def SbrkBelow (p : Process) (size : ℕ) : Prop :=
  p.heapEnd / pageSize + alignedSize size / pageSize ≤ kernelVirtualBase / pageSize

section

variable {dirs : List ℕ} {dir : ℕ} {before s : Kernel}

theorem Contained.sameKernelHalf (h : Contained dirs dir before s) (hset : Setting dirs dir before) :
    SameKernelHalf dirs before s := by
  intro d hd virt hvirt _
  have hindex : kernelPdIndexStart ≤ pdIndex virt := by
    unfold kernelVirtualBase at hvirt
    unfold kernelPdIndexStart pdIndex
    omega
  have hentry : s.mem d (pdIndex virt) = before.mem d (pdIndex virt) := by
    by_cases hown : d = dir
    · rw [hown]
      exact h.own _ hindex
    · rw [h.other d (.inl hd) hown]
  have hword : pageWord s d virt = pageWord before d virt := by
    rw [pageWord_eq, pageWord_eq, hentry]
    cases htable : tableOf (before.mem d (pdIndex virt)) with
    | none => rfl
    | some table =>
      have hne : table ≠ dir := by
        rintro rfl
        exact hset.not_table d _ hd hindex htable
      simp only [Option.map_some]
      rw [h.other table (.inr ⟨d, hd, _, hindex, htable⟩) hne]
  refine ⟨?_, ?_⟩
  · unfold translate pageEntry
    rw [hword]
  · unfold UserAccessible pageEntry
    rw [hword, hentry]

theorem setting_of_created {s₀ s₁ : Kernel} (hintact : Intact s₀ dirs)
    (hcreated : pagingCreateDirectory pmmAlloc s₀ = (s₁, dir)) (hdir : dir ≠ 0)
    (hlast : dir ≠ lastPage) :
    Setting (dir :: dirs) dir s₁ ∧ Contained (dir :: dirs) dir s₁ s₁ ∧ Clean dir s₁ := by
  have haddr : (pmmAlloc s₀.pmm).1 ≠ 0 := by
    intro hzero
    simp only [pagingCreateDirectory, if_pos hzero, Prod.mk.injEq] at hcreated
    exact hdir hcreated.2.symm
  simp only [pagingCreateDirectory, if_neg haddr, Prod.mk.injEq] at hcreated
  obtain ⟨hmachine, hframe⟩ := hcreated
  obtain ⟨hanswer, hcursor, hkept⟩ := pmmAlloc_addr hintact.cursor
  obtain ⟨-, hclear, htaken⟩ := hanswer.resolve_left haddr
  rw [hframe] at hclear htaken
  have hmem : s₁.mem = assign s₀.mem dir (directoryContent s₀) := by
    rw [← hmachine, hframe]
  have hpmm : s₁.pmm = (pmmAlloc s₀.pmm).2 := by
    rw [← hmachine]
  have hnew : ¬KernelFrame s₀ dirs dir := by
    intro hker
    rw [hintact.used _ hker] at hclear
    cases hclear
  -- the tables of the kernel halves are those that were there
  have htables : ∀ d i table, d ∈ dir :: dirs → kernelPdIndexStart ≤ i →
      tableOf (s₁.mem d i) = some table → KernelFrame s₀ dirs table := by
    intro d i table hd hi ht
    rw [hmem] at ht
    rcases List.mem_cons.mp hd with hself | hold
    · rw [hself, assign_same, directoryContent, if_pos hi] at ht
      exact .inr ⟨_, hintact.kernel, i, hi, ht⟩
    · have hne : d ≠ dir := by
        intro heq
        exact hnew (.inl (heq ▸ hold))
      rw [assign_of_ne _ _ hne] at ht
      exact .inr ⟨d, hold, i, hi, ht⟩
  have hframes : ∀ f, KernelFrame s₁ (dir :: dirs) f → f = dir ∨ KernelFrame s₀ dirs f := by
    rintro f (hf | ⟨d, hd, i, hi, ht⟩)
    · rcases List.mem_cons.mp hf with hself | hold
      · exact .inl hself
      · exact .inr (.inl hold)
    · exact .inr (htables d i f hd hi ht)
  have hnone : ∀ i table, i < kernelPdIndexStart → tableOf (s₁.mem dir i) ≠ some table := by
    intro i table hi
    rw [hmem, assign_same, directoryContent, if_neg (by omega), tableOf_zero]
    simp
  have hempty : ∀ table, ¬UserTable s₁ dir table := by
    rintro table ⟨i, hi, ht⟩
    exact hnone i table hi ht
  refine ⟨⟨by simp, ?_, ?_, ?_⟩, ⟨by rw [hpmm]; exact hcursor, ?_, fun _ _ _ => rfl, fun _ _ => rfl,
    fun i table hi ht => absurd ht (hnone i table hi),
    fun i table j hi ht => absurd ht (hnone i table hi)⟩,
    ⟨fun table ht => absurd ht (hempty table), fun table ht => absurd ht (hempty table),
      fun table j ht => absurd ht (hempty table)⟩⟩
  · intro f hf
    rcases hframes f hf with rfl | hold
    · exact hdir
    · exact hintact.ne_zero f hold
  · intro f hf
    rcases hframes f hf with rfl | hold
    · exact hlast
    · exact hintact.ne_last f hold
  · intro d i hd hi ht
    exact hnew (htables d i dir hd hi ht)
  · intro f hf
    rw [hpmm]
    rcases hframes f hf with rfl | hold
    · exact htaken
    · exact hkept f (hintact.used f hold)

theorem Contained.sbrk {p p' : Process} {size : ℕ} (hset : Setting dirs p.dir before)
    (h : Contained dirs p.dir before p.machine) (hbelow : SbrkBelow p size)
    (hstep : SbrkStep p size p') :
    p'.dir = p.dir ∧ Contained dirs p.dir before p'.machine := by
  obtain rfl := hstep
  unfold SbrkBelow at hbelow
  have hpages : alignedSize size / pageSize < maxPages := by
    unfold alignedSize maxPages pageSize
    omega
  have hsize : alignedSize size = alignedSize size / pageSize * pageSize := by
    unfold alignedSize
    rw [Nat.mul_div_cancel _ (by decide)]
  have heq : vmmAlloc pmmAlloc pmmFree p.machine p.dir p.heapEnd (alignedSize size) pageUserRw =
      Paging.vmmAllocLoop pmmAlloc pmmFree p.dir p.heapEnd pageUserRw (alignedSize size / pageSize)
        p.machine p.heapEnd := by
    unfold vmmAlloc
    rw [if_neg hset.dir_ne_zero, hsize, pages_of_size hpages, ← hsize]
  unfold sysSbrk
  split
  · exact ⟨rfl, h⟩
  · rw [heq]
    split
    all_goals
      rename_i hresult
      exact ⟨rfl, (h.vmmAllocLoop hset p.heapEnd (by decide) hbelow hresult).1⟩

/-- **Programs do not touch the kernel half.** Where segments and heap stay below the kernel,
`elf_load` and any later `sys_sbrk` leave every translation of the kernel half, and make no page of
it accessible to the user. -/
theorem exec_and_sbrk_keep_kernel_half {s₀ s₁ : Kernel} (hintact : Intact s₀ dirs)
    (hcreated : pagingCreateDirectory pmmAlloc s₀ = (s₁, dir)) (hdir : dir ≠ 0)
    (hlast : dir ≠ lastPage) {data : Memory} (hsegments : SegmentsBelow data) :
    SameKernelHalf (dir :: dirs) s₁ (elfLoad data s₁ dir).1 ∧
    ∀ entry heapStart, (elfLoad data s₁ dir).2 = some (entry, heapStart) →
      ∀ sizes p, Run (Guarded SbrkBelow SbrkStep) ⟨(elfLoad data s₁ dir).1, dir, heapStart⟩ sizes p →
        SameKernelHalf (dir :: dirs) s₁ p.machine := by
  obtain ⟨hset, hcontained, hclean⟩ := setting_of_created hintact hcreated hdir hlast
  have hload : Contained (dir :: dirs) dir s₁ (elfLoad data s₁ dir).1 := by
    unfold elfLoad
    split
    · exact hcontained.loadSegments hset data hclean
        (fun k _ hk => hsegments k (by rwa [zero_add] at hk))
    · exact hcontained
  refine ⟨hload.sameKernelHalf hset, ?_⟩
  intro entry heapStart _ sizes p hrun
  have hkeep : ∀ q size q', q.dir = dir ∧ Contained (dir :: dirs) dir s₁ q.machine →
      Guarded SbrkBelow SbrkStep q size q' →
      q'.dir = dir ∧ Contained (dir :: dirs) dir s₁ q'.machine := by
    rintro q size q' ⟨rfl, hq⟩ ⟨hbelow, hsbrk⟩
    exact hq.sbrk hset hbelow hsbrk
  exact (hrun.invariant hkeep ⟨rfl, hload⟩).2.sameKernelHalf hset

end

/-- All pages below the given one are in use, and no other. -/
def Filled (n : ℕ) (pmm : Pmm.State) : Prop :=
  pmm.lastFound ≤ n ∧ ∀ q, pmmTestBit pmm q = decide (q < n)

theorem Filled.alloc {n : ℕ} {pmm : Pmm.State} (h : Filled n pmm) (hn : n < maxPages) :
    (pmmAlloc pmm).1 = n * pageSize ∧ Filled (n + 1) (pmmAlloc pmm).2 := by
  obtain ⟨hcursor, hbits⟩ := h
  have halloc : pmmAlloc pmm = pmm.takePage n :=
    pmmAlloc_of_first hcursor hn (by simp [hbits]) (fun q _ hq => by simp [hbits, hq])
  rw [halloc]
  refine ⟨?_, le_refl _, ?_⟩
  · unfold maxPages at hn
    show n * pageSize % 2 ^ 32 = n * pageSize
    unfold pageSize
    omega
  · intro q
    rw [pmmTestBit_takePage, hbits, ← Bool.decide_or, decide_eq_decide]
    omega

/-- A memory manager with 512 pages in use. -/
def examplePmm : Pmm.State where
  bitmap := setBits (fun _ => 0) 0 512
  usedPages := 512
  freePages := 0
  lastFound := 255
  totalMemBytes := 0x1000000

theorem examplePmm_filled : Filled 512 examplePmm := by
  refine ⟨show 255 ≤ 512 by decide, fun q => ?_⟩
  unfold pmmTestBit examplePmm
  dsimp only
  rw [testBit_setBits (by decide)]
  simp [testBit]

/-- A machine whose kernel maps one page, at its start. -/
def exampleKernel (pmm : Pmm.State) : Kernel where
  mem := fun frame i =>
    if frame = 300 ∧ i = 768 then 301 * pageSize + 3
    else if frame = 301 ∧ i = 256 then 0x100003 else 0
  kernelPageDir := 300
  pmm := pmm

/-- The machine with a new directory. -/
def exampleCreated (pmm : Pmm.State) : Kernel :=
  { exampleKernel pmm with
    mem := assign (exampleKernel pmm).mem 512 (directoryContent (exampleKernel pmm))
    pmm := (pmmAlloc pmm).2 }

/-- A program with one segment of one byte, with the upper half of its address. -/
def tinyProgram (low high : UInt8) : Memory := fun x =>
  ([0x7F, 0x45, 0x4C, 0x46, 1, 1, 1, 0, 0, 0, 0, 0, 0, 0, 0, 0,
    2, 0, 3, 0, 1, 0, 0, 0, 0, 0, 0, 0, 52, 0, 0, 0,
    0, 0, 0, 0, 0, 0, 0, 0, 52, 0, 32, 0, 1, 0, 0, 0, 0, 0, 0, 0,
    1, 0, 0, 0, 0, 0, 0, 0, 0, 0, low, high, 0, 0, 0, 0,
    0, 0, 0, 0, 1, 0, 0, 0, 6, 0, 0, 0, 0, 0, 0, 0] : List UInt8).getD x 0

variable {pmm : Pmm.State}

theorem exampleKernel_frame {frame : ℕ} (h : KernelFrame (exampleKernel pmm) [300] frame) :
    frame = 300 ∨ frame = 301 := by
  rcases h with hdir | ⟨dir, hdir, i, hi, htable⟩
  · exact .inl (List.mem_singleton.mp hdir)
  · rw [List.mem_singleton.mp hdir] at htable
    right
    simp only [exampleKernel, true_and] at htable
    split at htable
    · have hentry : tableOf (301 * pageSize + 3) = some 301 := by decide
      rw [hentry] at htable
      exact (Option.some.inj htable).symm
    · simp at htable

theorem exampleKernel_intact (hpmm : Filled 512 pmm) : Intact (exampleKernel pmm) [300] := by
  have hcursor : pmm.lastFound ≤ maxPages := le_trans hpmm.1 (by decide)
  refine ⟨List.mem_singleton.mpr rfl, ?_, ?_, ?_, hcursor⟩
  · intro frame hframe
    have hbit := hpmm.2 frame
    have := exampleKernel_frame hframe
    show pmmTestBit pmm frame = true
    rw [hbit, decide_eq_true_eq]
    omega
  · intro frame hframe
    have := exampleKernel_frame hframe
    omega
  · intro frame hframe
    have := exampleKernel_frame hframe
    unfold lastPage invalidPhysicalPage pageSize
    omega

theorem exampleCreated_eq (hpmm : Filled 512 pmm) :
    pagingCreateDirectory pmmAlloc (exampleKernel pmm) = (exampleCreated pmm, 512) :=
  pagingCreateDirectory_eq (hpmm.alloc (by decide)).1 (by decide)

theorem segmentsBelow_tinyProgram : SegmentsBelow (tinyProgram 0x40 0x00) := by
  have hcount : (tinyProgram 0x40 0x00).read 44 2 = 1 := by decide +kernel
  have hphdr : phdrAt (tinyProgram 0x40 0x00) 0 = ⟨1, 0, 0x400000, 0, 1, 6⟩ := by decide +kernel
  intro i hi
  rw [hcount] at hi
  obtain rfl : i = 0 := by omega
  rw [hphdr]
  exact fun _ => by decide

/-- A program at its usual place leaves the kernel half. -/
theorem tiny_program_keeps_kernel_half : ∃ created,
    pagingCreateDirectory pmmAlloc (exampleKernel examplePmm) = (created, 512) ∧
      SameKernelHalf [512, 300] created (elfLoad (tinyProgram 0x40 0x00) created 512).1 :=
  ⟨exampleCreated examplePmm, exampleCreated_eq examplePmm_filled,
    (exec_and_sbrk_keep_kernel_half (exampleKernel_intact examplePmm_filled)
      (exampleCreated_eq examplePmm_filled) (by decide) (by decide) segmentsBelow_tinyProgram).1⟩

theorem exampleCreated_mem {dir : ℕ} (hdir : dir = 300 ∨ dir = 512) :
    (exampleCreated pmm).mem dir 768 = 301 * pageSize + 3 := by
  rcases hdir with rfl | rfl <;>
    simp [exampleCreated, exampleKernel, directoryContent, kernelPdIndexStart, assign]

theorem mem_elfLoad_tinyProgram (hpmm : Filled 512 pmm) :
    (elfLoad (tinyProgram 0x10 0xC0) (exampleCreated pmm) 512).1.mem 300 768 =
        301 * pageSize + 3 ∧
      (elfLoad (tinyProgram 0x10 0xC0) (exampleCreated pmm) 512).1.mem 301 256 =
        (513 * pageSize ||| 7 ||| pagePresent) := by
  have hchecks : (elfCheckFile (tinyProgram 0x10 0xC0) &&
      elfCheckSupported (tinyProgram 0x10 0xC0)) = true := by decide +kernel
  have hcount : (tinyProgram 0x10 0xC0).read 44 2 = 1 := by decide +kernel
  have hphdr : phdrAt (tinyProgram 0x10 0xC0) 0 = ⟨1, 0, 0xC0100000, 0, 1, 6⟩ := by decide +kernel
  have hload : ¬ (1 : ℕ) ≠ ptLoad := by decide
  have hpages : (⟨1, 0, 0xC0100000, 0, 1, 6⟩ : Phdr).pages = 1 := by decide
  have hsize : (⟨1, 0, 0xC0100000, 0, 1, 6⟩ : Phdr).size = pageSize := by decide
  have hflags : (⟨1, 0, 0xC0100000, 0, 1, 6⟩ : Phdr).pageFlags = 7 := by decide
  have haddr : (pmmAlloc (exampleCreated pmm).pmm).1 = 513 * pageSize :=
    ((hpmm.alloc (by decide)).2.alloc (by decide)).1
  have hindex : pdIndex 0xC0100000 = 768 := by decide
  have hpage : ptIndex 0xC0100000 = 256 := by decide
  have hshare : (exampleCreated pmm).mem 512 768 / pageSize = 301 := by
    rw [exampleCreated_mem (.inr rfl)]
    decide
  have hpres : ((exampleCreated pmm).mem 512 (pdIndex 0xC0100000)).testBit 0 = true := by
    rw [hindex, exampleCreated_mem (.inr rfl)]
    decide
  have halloc := vmmAlloc_one_page pmmFree haddr (by decide) (by decide) hpres 7
  generalize hmap : Machine.setPage _ 512 0xC0100000 _ = mapped at halloc
  have hmem : mapped.mem =
      storeWord (exampleCreated pmm).mem 301 256 (513 * pageSize ||| 7 ||| pagePresent) := by
    rw [← hmap]
    simp only [Machine.setPage, hindex, hpage, hshare]
  have hdir {dir : ℕ} (hdir : dir = 300 ∨ dir = 512) : mapped.mem dir 768 = 301 * pageSize + 3 := by
    have hne : dir ≠ 301 := by omega
    rw [hmem, storeWord_of_ne _ _ _ _ hne, exampleCreated_mem hdir]
  have htable : mapped.mem 301 256 = (513 * pageSize ||| 7 ||| pagePresent) := by
    rw [hmem, storeWord_same]
  have hphys : pagingGetPhys mapped 512 0xC0100000 = 513 * pageSize := by
    unfold pagingGetPhys
    rw [hindex, hpage, hdir (.inr rfl)]
    rw [show (301 * pageSize + 3) / pageSize = 301 by decide, htable]
    decide
  have hval : ¬ 513 * pageSize = invalidPhysicalPage := by decide
  have hframe : 513 * pageSize / pageSize = 513 := by decide
  unfold elfLoad
  rw [if_pos hchecks, hcount]
  simp only [loadSegments, hphdr, if_neg hload, hpages, hsize, hflags, halloc, fillPages,
    zero_mul, add_zero, Nat.reduceMod, Nat.reducePow, hphys, if_neg hval, hframe]
  rw [assign_of_ne _ _ (by decide), assign_of_ne _ _ (by decide)]
  exact ⟨hdir (.inl rfl), htable⟩

theorem translate_kernel_page {s : Kernel} (hdir : s.mem 300 768 = 301 * pageSize + 3) :
    translate s 300 0xC0100000 =
      (presentEntry (s.mem 301 256)).map fun entry => entry / pageSize * pageSize := by
  have hindex : pdIndex 0xC0100000 = 768 := by decide
  have hpage : ptIndex 0xC0100000 = 256 := by decide
  have htable : tableOf (301 * pageSize + 3) = some 301 := by decide
  have hoff : 0xC0100000 % pageSize = 0 := by decide
  unfold translate pageEntry pageWord
  rw [hindex, hpage, hoff]
  simp only [lookup, walk, hdir, htable, Option.bind_some, add_zero]

/-- An ELF file may have pages in the kernel half: the kernel's own page becomes the program's. -/
theorem program_replaces_kernel_page : ∃ s created : Kernel,
    Intact s [300] ∧ pagingCreateDirectory pmmAlloc s = (created, 512) ∧
      translate created 300 0xC0100000 = some 0x100000 ∧
      translate (elfLoad (tinyProgram 0x10 0xC0) created 512).1 300 0xC0100000 =
        some (513 * pageSize) := by
  obtain ⟨hdir, htable⟩ := mem_elfLoad_tinyProgram examplePmm_filled
  refine ⟨exampleKernel examplePmm, exampleCreated examplePmm,
    exampleKernel_intact examplePmm_filled, exampleCreated_eq examplePmm_filled, ?_, ?_⟩
  · have hpage : (exampleCreated examplePmm).mem 301 256 = 0x100003 := by
      simp [exampleCreated, exampleKernel, assign]
    rw [translate_kernel_page (exampleCreated_mem (.inl rfl)), hpage]
    decide
  · rw [translate_kernel_page hdir, htable]
    decide

end Taavi.Paging
