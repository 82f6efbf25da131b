import Mathlib.Data.Finset.Card
import Mathlib.Order.Interval.Finset.Nat
import Taavi.Memory.Frames
import Taavi.Memory.PageTables

/-!
# Enough frames for page tables

A missing page table costs one frame. While the frames ahead of the cursor outnumber the absent
directory entries, every `paging_map` and `vmm_alloc` of the kernel succeeds.
-/

namespace Taavi.Paging

open Lib Pmm Finset

def freeAhead (bound : ℕ) (s : Pmm.State) : ℕ :=
  ((Finset.range bound).filter fun page =>
    s.lastFound ≤ page ∧ pmmTestBit s page = false).card

section

variable {bound n : ℕ} {s : Pmm.State}

theorem pmmAlloc_of_freeAhead (hbound : bound ≤ maxPages) (hfree : 0 < freeAhead bound s) :
    ∃ page, page < bound ∧ pmmTestBit s page = false ∧ pmmAlloc s = s.takePage page ∧
      freeAhead bound (s.takePage page).2 + 1 = freeAhead bound s := by
  obtain ⟨q, hq⟩ := card_pos.mp hfree
  simp only [mem_filter, mem_range] at hq
  obtain ⟨hqlt, hqfrom, hqfree⟩ := hq
  rcases pmmAlloc_cases (s := s) (by omega) with ⟨page, hpage, hclear, halloc, hfst⟩ | ⟨-, hnone⟩
  · have hleast : ∀ p, p < bound → s.lastFound ≤ p → pmmTestBit s p = false →
        s.lastFound ≤ page ∧ page ≤ p := fun p hp hfrom hp' => hfst p hfrom (by omega) hp'
    obtain ⟨hfrom, hle⟩ := hleast q hqlt hqfrom hqfree
    refine ⟨page, by omega, hclear, halloc, ?_⟩
    unfold freeAhead
    have hmem : page ∈ (Finset.range bound).filter fun p =>
        s.lastFound ≤ p ∧ pmmTestBit s p = false := by
      simp only [mem_filter, mem_range]
      exact ⟨by omega, hfrom, hclear⟩
    rw [← card_erase_add_one hmem]
    congr 2
    ext p
    have hcursor : (s.takePage page).2.lastFound = page + 1 := rfl
    simp only [mem_filter, mem_range, mem_erase, pmmTestBit_takePage, hcursor,
      Bool.or_eq_false_iff, decide_eq_false_iff_not]
    constructor
    · rintro ⟨hp, hpage', hne, hclear'⟩
      exact ⟨hne, hp, by omega, hclear'⟩
    · rintro ⟨hne, hp, hpfrom, hpclear⟩
      have hp' := (hleast p hp hpfrom hpclear).2
      exact ⟨hp, by omega, hne, hpclear⟩
  · rw [hnone q (by omega)] at hqfree
    cases hqfree

theorem le_freeAhead {first : ℕ} (hfrom : s.lastFound ≤ first) (hlt : first + n ≤ bound)
    (hfree : ∀ page, first ≤ page → page < first + n → pmmTestBit s page = false) :
    n ≤ freeAhead bound s := by
  unfold freeAhead
  calc n = (Finset.Ico first (first + n)).card := by simp
    _ ≤ _ := by
      apply card_le_card
      intro page hpage
      rw [mem_Ico] at hpage
      simp only [mem_filter, mem_range]
      exact ⟨by omega, by omega, hfree page hpage.1 hpage.2⟩

end

def absentTables {α : Type*} (s : Machine α) : ℕ :=
  ((Finset.range entriesPerTable).filter fun i =>
    kernelPdIndexStart ≤ i ∧ tableOf (s.mem s.kernelPageDir i) = none).card

def kernelRoot {α : Type*} (s : Machine α) (dir : ℕ) : Prop := dir = s.kernelPageDir

structure Secure (others : ℕ → Prop) (s : Machine Pmm.State) : Prop where
  tables : Tables (kernelRoot s) s
  taken : ∀ frame, Reached tableOf 1 (kernelRoot s) s.mem frame → pmmTestBit s.pmm frame = true
  held : ∀ frame, others frame → pmmTestBit s.pmm frame = true
  apart : ∀ frame, others frame → ¬Reached tableOf 1 (kernelRoot s) s.mem frame
  low : ∀ page, page < reservedLowPages → pmmTestBit s.pmm page = true

/-- Beyond the page tables that are missing there is room for `n` frames below the bound. -/
structure Managed (others : ℕ → Prop) (bound n : ℕ) (s : Machine Pmm.State) : Prop
    extends Secure others s where
  bound_le : bound ≤ maxPages
  room : absentTables s + n ≤ freeAhead bound s.pmm

namespace Managed

variable {others : ℕ → Prop} {bound n : ℕ} {s : Machine Pmm.State} {virt phys flags : ℕ}

variable {page i : ℕ} {t : Machine Pmm.State}

/-- What `pmm_alloc` gives where there is room: a page that is no table, below the bound. -/
structure Taken (bound : ℕ) (s : Machine Pmm.State) (page : ℕ) : Prop where
  lt : page < bound
  ge : reservedLowPages ≤ page
  clear : pmmTestBit s.pmm page = false
  alloc : pmmAlloc s.pmm = s.pmm.takePage page
  addr : (pmmAlloc s.pmm).1 = page * pageSize
  left : freeAhead bound (pmmAlloc s.pmm).2 + 1 = freeAhead bound s.pmm
  fresh : ¬Reached tableOf 1 (kernelRoot s) s.mem page

theorem exists_taken_of_secure (h : Secure others s) (hbound : bound ≤ maxPages)
    (hfree : 0 < freeAhead bound s.pmm) : ∃ page, Taken bound s page := by
  obtain ⟨page, hlt, hclear, halloc, hleft⟩ := pmmAlloc_of_freeAhead hbound hfree
  have hge : reservedLowPages ≤ page := by
    by_contra hlow
    rw [h.low page (by omega)] at hclear
    cases hclear
  refine ⟨page, hlt, hge, hclear, halloc, ?_, by rw [halloc]; exact hleft, ?_⟩
  · rw [halloc]
    unfold maxPages at hbound
    show page * pageSize % 2 ^ 32 = page * pageSize
    unfold pageSize
    omega
  · intro hreach
    rw [h.taken page hreach] at hclear
    cases hclear

theorem exists_taken (h : Managed others bound n s) (hfree : 0 < freeAhead bound s.pmm) :
    ∃ page, Taken bound s page :=
  exists_taken_of_secure h.toSecure h.bound_le hfree

theorem Taken.addr_ne (h : Taken bound s page) : (pmmAlloc s.pmm).1 ≠ 0 := by
  have hge := h.ge
  rw [h.addr]
  unfold reservedLowPages at hge
  unfold pageSize
  omega

theorem Taken.addr_div (h : Taken bound s page) : (pmmAlloc s.pmm).1 / pageSize = page := by
  rw [h.addr, Nat.mul_div_cancel page (by decide)]

theorem Taken.freshAnswer (h : Taken bound s page) :
    FreshAnswer (kernelRoot s) s.mem (pmmAlloc s.pmm).1 := by
  refine .inr ⟨?_, ?_⟩
  · rw [h.addr]
    exact ⟨page, mul_comm ..⟩
  · rw [h.addr_div]
    exact h.fresh

theorem Taken.pmmTestBit (h : Taken bound s page) (q : ℕ) :
    pmmTestBit (pmmAlloc s.pmm).2 q = (decide (q = page) || pmmTestBit s.pmm q) := by
  rw [h.alloc]
  exact pmmTestBit_takePage

theorem Taken.kept (h : Taken bound s page) (q : ℕ) (hq : Pmm.pmmTestBit s.pmm q = true) :
    Pmm.pmmTestBit (pmmAlloc s.pmm).2 q = true := by
  rw [h.pmmTestBit, hq, Bool.or_true]

theorem take (h : Managed others bound (n + 1) s) :
    (∃ page, Taken bound s page) ∧ Managed others bound n { s with pmm := (pmmAlloc s.pmm).2 } := by
  have hroom := h.room
  obtain ⟨page, htaken⟩ := h.exists_taken (by omega)
  have hleft := htaken.left
  have hkept := htaken.kept
  refine ⟨⟨page, htaken⟩, ⟨⟨h.tables.tree, h.tables.kernel, h.tables.nonzero⟩,
    fun frame hreach => hkept frame (h.taken frame hreach),
    fun frame hothers => hkept frame (h.held frame hothers), h.apart,
    fun q hq => hkept q (h.low q hq)⟩, h.bound_le, ?_⟩
  · show absentTables s + n ≤ freeAhead bound (pmmAlloc s.pmm).2
    omega

theorem absentTables_add_one (hker : t.kernelPageDir = s.kernelPageDir)
    (hi : kernelPdIndexStart ≤ i) (hlt : i < entriesPerTable)
    (habs : tableOf (s.mem s.kernelPageDir i) = none)
    (hpres : tableOf (t.mem s.kernelPageDir i) ≠ none)
    (hother : ∀ j, j ≠ i → t.mem s.kernelPageDir j = s.mem s.kernelPageDir j) :
    absentTables t + 1 = absentTables s := by
  unfold absentTables
  rw [hker]
  have hmem : i ∈ (Finset.range entriesPerTable).filter fun j =>
      kernelPdIndexStart ≤ j ∧ tableOf (s.mem s.kernelPageDir j) = none := by
    simp only [mem_filter, mem_range]
    exact ⟨hlt, hi, habs⟩
  have herase : ((Finset.range entriesPerTable).filter fun j =>
      kernelPdIndexStart ≤ j ∧ tableOf (t.mem s.kernelPageDir j) = none) =
      ((Finset.range entriesPerTable).filter fun j =>
        kernelPdIndexStart ≤ j ∧ tableOf (s.mem s.kernelPageDir j) = none).erase i := by
    ext j
    simp only [mem_filter, mem_range, mem_erase]
    by_cases hj : j = i
    · subst hj
      simp [hpres]
    · simp [hj, hother j hj]
  rw [herase, card_erase_add_one hmem]

theorem absentTables_congr (hker : t.kernelPageDir = s.kernelPageDir)
    (hsame : ∀ j, t.mem s.kernelPageDir j = s.mem s.kernelPageDir j) :
    absentTables t = absentTables s := by
  unfold absentTables
  simp only [hker, hsame]

theorem absentTables_pos (hi : kernelPdIndexStart ≤ i) (hlt : i < entriesPerTable)
    (habs : tableOf (s.mem s.kernelPageDir i) = none) : 0 < absentTables s := by
  apply card_pos.mpr
  refine ⟨i, ?_⟩
  simp only [mem_filter, mem_range]
  exact ⟨hlt, hi, habs⟩

theorem hasTable (h : Managed others bound n s) (hvirt : virt < 2 ^ 32)
    (hker : kernelPdIndexStart ≤ pdIndex virt) {u : Machine Pmm.State}
    (hu : HasTable pmmAlloc s s.kernelPageDir virt flags u) (word : ℕ) :
    Mapped (kernelRoot s) s s.kernelPageDir virt word (u.setPage s.kernelPageDir virt word) ∧
      Managed others bound n u := by
  have hnew := hu
  cases hu with
  | old hpres => exact ⟨h.tables.mapped_of_present rfl hpres word, h⟩
  | new habs haddr =>
    have hindex : pdIndex virt < entriesPerTable := by
      unfold pdIndex entriesPerTable
      omega
    have hnone := tableOf_eq_none.mpr habs
    have hpos := absentTables_pos hker hindex hnone
    have hroom := h.room
    obtain ⟨page, htaken⟩ := h.exists_taken (by omega)
    have hfresh := htaken.freshAnswer
    have hleft := htaken.left
    have hkept := htaken.kept
    refine ⟨h.tables.mapped rfl hfresh hnew word, ⟨h.tables.hasTable rfl hfresh hnew, ?_,
      fun frame hothers => hkept frame (h.held frame hothers), ?_,
      fun q hq => hkept q (h.low q hq)⟩, h.bound_le, ?_⟩
    · intro frame hreach
      rcases h.tables.reached_hasTable rfl hfresh hnew hreach with hold | ⟨-, hpage⟩
      · exact hkept frame (h.taken frame hold)
      · show pmmTestBit (pmmAlloc s.pmm).2 frame = true
        rw [htaken.pmmTestBit, hpage, htaken.addr_div]
        simp
    · intro frame hothers hreach
      rcases h.tables.reached_hasTable rfl hfresh hnew hreach with hold | ⟨-, hpage⟩
      · exact h.apart frame hothers hold
      · have hheld := h.held frame hothers
        rw [hpage, htaken.addr_div, htaken.clear] at hheld
        cases hheld
    · have hother : ∀ j, j ≠ pdIndex virt → _ = s.mem s.kernelPageDir j := fun j hj =>
        hnew.root_entry hfresh (show kernelRoot s s.kernelPageDir from rfl) (.inr (.inl hj))
      have hless := absentTables_add_one hnew.kernelPageDir hker hindex hnone hnew.table hother
      show absentTables _ + n ≤ freeAhead bound (pmmAlloc s.pmm).2
      omega

theorem setPage (h : Managed others bound n s)
    (htable : tableOf (s.mem s.kernelPageDir (pdIndex virt)) ≠ none) (word : ℕ) :
    Managed others bound n (s.setPage s.kernelPageDir virt word) := by
  have hsame := absentTables_congr (t := s.setPage s.kernelPageDir virt word) (s := s) rfl
    (fun j => h.tables.setPage_root rfl htable word rfl j)
  refine ⟨⟨h.tables.setPage rfl htable word, ?_, h.held, ?_, h.low⟩, h.bound_le, ?_⟩
  · intro frame hreach
    exact h.taken frame ((h.tables.reached_setPage rfl htable word frame).mp hreach)
  · intro frame hothers hreach
    exact h.apart frame hothers ((h.tables.reached_setPage rfl htable word frame).mp hreach)
  · rw [hsame]
    exact h.room

theorem map (h : Managed others bound n s) (hvirt : virt < 2 ^ 32)
    (hker : kernelPdIndexStart ≤ pdIndex virt) (phys flags : ℕ) :
    (pagingMap pmmAlloc s s.kernelPageDir virt phys flags).2 = true ∧
      Mapped (kernelRoot s) s s.kernelPageDir virt (phys ||| flags ||| pagePresent)
        (pagingMap pmmAlloc s s.kernelPageDir virt phys flags).1 ∧
      Managed others bound n (pagingMap pmmAlloc s s.kernelPageDir virt phys flags).1 := by
  have hcases := @pagingMap_cases _ pmmAlloc s s.kernelPageDir
    (h.tables.nonzero _ h.tables.kernel) virt phys flags
  rcases hcases with ⟨u, hu, heq⟩ | ⟨habs, haddr, heq⟩
  · rw [heq]
    obtain ⟨hmap, hmanage⟩ := h.hasTable hvirt hker hu (phys ||| flags ||| pagePresent)
    have htable := hu.table
    rw [← hu.kernelPageDir] at htable hmap ⊢
    exact ⟨rfl, hmap, hmanage.setPage htable _⟩
  · have hroom := h.room
    have hindex : pdIndex virt < entriesPerTable := by
      unfold pdIndex entriesPerTable
      omega
    have hpos := absentTables_pos hker hindex (tableOf_eq_none.mpr habs)
    obtain ⟨page, htaken⟩ := h.exists_taken (by omega)
    exact absurd haddr htaken.addr_ne

end Managed

/-- In the kernel's directory a range of pages has new entries, and no other page has. -/
structure PagesMapped (s : Machine Pmm.State) (first count : ℕ) (good : ℕ → ℕ → Prop)
    (t : Machine Pmm.State) : Prop where
  kernelPageDir : t.kernelPageDir = s.kernelPageDir
  inside : ∀ virt, first ≤ virt / pageSize → virt / pageSize < first + count →
    ∃ entry, pageEntry t s.kernelPageDir virt = some entry ∧ good (virt / pageSize) entry
  outside : ∀ virt, virt / pageSize < first ∨ first + count ≤ virt / pageSize →
    pageEntry t s.kernelPageDir virt = pageEntry s s.kernelPageDir virt

namespace PagesMapped

variable {s t u : Machine Pmm.State} {first count : ℕ} {good : ℕ → ℕ → Prop}

theorem none (s : Machine Pmm.State) (first : ℕ) (good : ℕ → ℕ → Prop) :
    PagesMapped s first 0 good s :=
  ⟨rfl, fun virt h h' => absurd h' (by omega), fun virt _ => rfl⟩

theorem cons {roots : ℕ → Prop} {virt word : ℕ} (hfst : Mapped roots s s.kernelPageDir virt word u)
    (hpage : virt / pageSize = first) (hpres : presentEntry word = some word)
    (hgood : good first word) (hrest : PagesMapped u (first + 1) count good t) :
    PagesMapped s first (count + 1) good t := by
  have hdir := hfst.kernelPageDir
  refine ⟨hrest.kernelPageDir.trans hdir, ?_, ?_⟩
  · intro v hge hlt
    by_cases hhere : v / pageSize = first
    · refine ⟨word, ?_, by rw [hhere]; exact hgood⟩
      rw [← hdir, hrest.outside v (by omega), hdir,
        hfst.pageEntry_same (show SamePage virt v from hpage.trans hhere.symm), hpres]
    · rw [← hdir]
      exact hrest.inside v (by omega) (by omega)
  · intro v hother
    rw [← hdir, hrest.outside v (by omega), hdir]
    apply hfst.pageEntry_other
    intro hsame
    unfold SamePage at hsame
    omega

end PagesMapped

theorem presentEntry_pageWord (phys flags : ℕ) : presentEntry (phys ||| flags ||| pagePresent) =
    some (phys ||| flags ||| pagePresent) := by
  unfold presentEntry
  rw [if_pos (testBit_pageWord phys flags)]

theorem kernelIndex_of_le {virt : ℕ} (h : kernelVirtualBase ≤ virt) :
    kernelPdIndexStart ≤ pdIndex virt := by
  unfold kernelVirtualBase at h
  unfold kernelPdIndexStart pdIndex
  omega

namespace Managed

variable {others : ℕ → Prop} {bound n : ℕ} {s : Machine Pmm.State}

variable {virt dir count : ℕ}

theorem mapPages_range (flags : ℕ) {phys i : ℕ} (h : Managed others bound n s)
    (hdir : s.kernelPageDir = dir) (hvirt : kernelVirtualBase ≤ virt)
    (hend : virt + (i + count) * pageSize ≤ 2 ^ 32) :
    let t := (List.range' i count).foldl (fun s i =>
      (pagingMap pmmAlloc s dir ((virt + i * pageSize) % 2 ^ 32)
        ((phys + i * pageSize) % 2 ^ 32) flags).1) s
    Managed others bound n t ∧ PagesMapped s (virt / pageSize + i) count (fun page entry =>
      entry = ((phys + (page - virt / pageSize) * pageSize) % 2 ^ 32 ||| flags ||| pagePresent)) t := by
  induction count generalizing s i with
  | zero => exact ⟨h, PagesMapped.none s _ _⟩
  | succ count ih =>
    subst hdir
    have hlt : virt + i * pageSize < 2 ^ 32 := by
      unfold pageSize at hend ⊢
      omega
    have hmod : (virt + i * pageSize) % 2 ^ 32 = virt + i * pageSize := Nat.mod_eq_of_lt hlt
    have hker : kernelVirtualBase ≤ (virt + i * pageSize) % 2 ^ 32 := by
      rw [hmod]
      omega
    obtain ⟨-, hmap, hmanage⟩ := h.map (Nat.mod_lt _ (by decide)) (kernelIndex_of_le hker)
      ((phys + i * pageSize) % 2 ^ 32) flags
    have hsum : i + (count + 1) = i + 1 + count := by omega
    obtain ⟨hrest, hpages⟩ := ih hmanage hmap.kernelPageDir (hsum ▸ hend)
    rw [List.range'_succ]
    refine ⟨hrest, ?_⟩
    have hpage : (virt + i * pageSize) % 2 ^ 32 / pageSize = virt / pageSize + i := by
      rw [hmod, Nat.add_mul_div_right virt i (by decide)]
    refine PagesMapped.cons hmap hpage (presentEntry_pageWord _ _) ?_ hpages
    rw [Nat.add_sub_cancel_left]

theorem mapPages (phys flags : ℕ) (h : Managed others bound n s)
    (hdir : s.kernelPageDir = dir) (hvirt : kernelVirtualBase ≤ virt)
    (hend : virt + count * pageSize ≤ 2 ^ 32) :
    Managed others bound n (Paging.mapPages pmmAlloc s dir virt phys flags count) ∧
      PagesMapped s (virt / pageSize) count (fun page entry =>
        entry = ((phys + (page - virt / pageSize) * pageSize) % 2 ^ 32 ||| flags ||| pagePresent))
        (Paging.mapPages pmmAlloc s dir virt phys flags count) := by
  unfold Paging.mapPages
  rw [List.range_eq_range']
  exact h.mapPages_range flags hdir hvirt (by rwa [zero_add])

/-- What the pages are mapped to that `vmm_alloc` maps: frames of their own below the bound. -/
def OwnFrame (bound flags : ℕ) (_page entry : ℕ) : Prop :=
  ∃ frame, reservedLowPages ≤ frame ∧ frame < bound ∧
    entry = (frame * pageSize ||| flags ||| pagePresent)

theorem vmmAllocLoop (virtStart flags : ℕ) {pages : ℕ} (h : Managed others bound (n + pages) s)
    (hvirt : kernelVirtualBase ≤ virt) (hend : virt + pages * pageSize < 2 ^ 32) :
    let r := Paging.vmmAllocLoop pmmAlloc pmmFree s.kernelPageDir virtStart flags pages s virt
    r.2 = true ∧ Managed others bound n r.1 ∧
      PagesMapped s (virt / pageSize) pages (OwnFrame bound flags) r.1 := by
  induction pages generalizing s virt with
  | zero => exact ⟨rfl, h, PagesMapped.none s _ _⟩
  | succ pages ih =>
    have hlt : virt + pageSize + pages * pageSize < 2 ^ 32 := by
      have hmul : (pages + 1) * pageSize = pages * pageSize + pageSize := Nat.succ_mul ..
      omega
    obtain ⟨⟨page, htaken⟩, hmanage⟩ := h.take
    obtain ⟨hok, hmap, hmanage'⟩ := hmanage.map (show virt < 2 ^ 32 by omega)
      (kernelIndex_of_le hvirt) (pmmAlloc s.pmm).1 flags
    have hmod : (virt + pageSize) % 2 ^ 32 = virt + pageSize := Nat.mod_eq_of_lt (by omega)
    have hdir := hmap.kernelPageDir
    obtain ⟨hrest, hleft, hpages⟩ := ih hmanage' (show kernelVirtualBase ≤ virt + pageSize by omega)
      hlt
    have hpage : (virt + pageSize) / pageSize = virt / pageSize + 1 :=
      Nat.add_div_right virt (by decide)
    rw [hpage] at hpages
    have hall := PagesMapped.cons hmap rfl (presentEntry_pageWord _ _)
      (show OwnFrame bound flags _ _ from ⟨page, htaken.ge, htaken.lt, by rw [htaken.addr]⟩) hpages
    rw [hdir] at hrest hleft hall
    have hunfold : Paging.vmmAllocLoop pmmAlloc pmmFree s.kernelPageDir virtStart flags (pages + 1) s
        virt = Paging.vmmAllocLoop pmmAlloc pmmFree s.kernelPageDir virtStart flags pages
          (pagingMap pmmAlloc { s with pmm := (pmmAlloc s.pmm).2 } s.kernelPageDir virt
            (pmmAlloc s.pmm).1 flags).1 (virt + pageSize) := by
      simp only [Paging.vmmAllocLoop, if_neg htaken.addr_ne]
      split
      · rename_i heq
        rw [heq, hmod]
      · rename_i heq
        rw [heq] at hok
        cases hok
    rw [hunfold]
    exact ⟨hrest, hleft, hall.kernelPageDir, hall.inside, hall.outside⟩

end Managed

end Taavi.Paging
