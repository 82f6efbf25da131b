import Taavi.Lib.Holdings
import Taavi.Lib.Runs
import Taavi.Memory.Frames
import Taavi.Memory.PageTables

/-!
# The frames of a user address space

The directory and the tables remember the frames that were taken for an address space. As long as no
page is mapped twice, they remember each of them in one place.
-/

namespace Taavi.Paging

open Lib Pmm List Option

/-- A place where the address space of a task remembers a frame. -/
inductive Slot where
  | directory
  | table (i : ℕ)
  | page (i j : ℕ)
  deriving DecidableEq

def heldFrame {α : Type*} (s : Machine α) (dir : ℕ) : Slot → Option ℕ
  | .directory => some dir
  | .table i => if i < kernelPdIndexStart then tableOf (s.mem dir i) else none
  | .page i j =>
    if i < kernelPdIndexStart ∧ j < entriesPerTable then
      (tableOf (s.mem dir i)).bind fun table => tableOf (s.mem table j)
    else none

def vmmCreateDirectory {α : Type*} (alloc : α → ℕ × α) (s : Machine α) : Machine α × ℕ :=
  pagingCreateDirectory alloc s

/-- The directory `dir` remembers the frames taken since `s`, and has only the given pages. -/
structure Space (s : Machine Pmm.State) (dir : ℕ) (pages : ℕ → Prop) (now : ℕ → Bool)
    (t : Machine Pmm.State) : Prop where
  holdings : Holdings (heldFrame t dir) (pmmTestBit s.pmm) now
  memory : ∀ frame, pmmTestBit s.pmm frame = true → t.mem frame = s.mem frame
  nonzero : ∀ slot frame, heldFrame t dir slot = some frame → frame ≠ 0
  mapped : ∀ i j frame, heldFrame t dir (.page i j) = some frame → pages (i * entriesPerTable + j)
  kernelPageDir : t.kernelPageDir = s.kernelPageDir

/-- The directory remembers what the memory manager gave since `s`. -/
structure UserSpace (s : Machine Pmm.State) (dir : ℕ) (pages : ℕ → Prop)
    (t : Machine Pmm.State) : Prop extends Space s dir pages (pmmTestBit t.pmm) t where
  cursor : t.pmm.lastFound ≤ maxPages

variable {s t u : Machine Pmm.State} {dir virt frame table flags : ℕ} {pages : ℕ → Prop} {slot : Slot}

theorem pdIndex_lt (hvirt : virt < kernelVirtualBase) : pdIndex virt < kernelPdIndexStart := by
  unfold kernelVirtualBase at hvirt
  unfold pdIndex kernelPdIndexStart
  omega

theorem ptIndex_lt (virt : ℕ) : ptIndex virt < entriesPerTable := Nat.mod_lt _ (by decide)

theorem page_eq (virt : ℕ) : pdIndex virt * entriesPerTable + ptIndex virt = virt / pageSize := by
  unfold pdIndex ptIndex entriesPerTable pageSize
  omega

/-- No frame is in two slots of a directory. -/
def Apart (s : Machine Pmm.State) (dir : ℕ) : Prop :=
  ∀ ⦃a b frame⦄, heldFrame s dir a = some frame → heldFrame s dir b = some frame → a = b

theorem heldFrame_table {i : ℕ} (hi : i < kernelPdIndexStart) :
    heldFrame s dir (.table i) = tableOf (s.mem dir i) := if_pos hi

theorem heldFrame_page {i j : ℕ} (hi : i < kernelPdIndexStart) (hj : j < entriesPerTable) :
    heldFrame s dir (.page i j) =
      (tableOf (s.mem dir i)).bind fun table => tableOf (s.mem table j) := if_pos ⟨hi, hj⟩

theorem Apart.table_ne (h : Apart s dir) {i : ℕ} (hi : i < kernelPdIndexStart)
    (htable : tableOf (s.mem dir i) = some table) : table ≠ dir := by
  rintro rfl
  have hslot : heldFrame s table (.table i) = some table := (heldFrame_table hi).trans htable
  cases h hslot (show heldFrame s table .directory = some table from rfl)

theorem Apart.heldFrame_setPage (h : Apart s dir) (hi : pdIndex virt < kernelPdIndexStart)
    (htable : tableOf (s.mem dir (pdIndex virt)) = some table) (word : ℕ) (slot : Slot) :
    heldFrame (s.setPage dir virt word) dir slot =
      if slot = .page (pdIndex virt) (ptIndex virt) then tableOf word
      else heldFrame s dir slot := by
  have hne := h.table_ne hi htable
  have hdir : ∀ i, (s.setPage dir virt word).mem dir i = s.mem dir i := fun i => by
    rw [setPage_mem htable, storeWord_of_ne _ _ _ _ hne.symm]
  cases slot with
  | directory => rfl
  | table i =>
    rw [if_neg (by simp)]
    simp only [heldFrame, hdir]
  | page i j =>
    simp only [heldFrame, hdir]
    by_cases hbounds : i < kernelPdIndexStart ∧ j < entriesPerTable
    · rw [if_pos hbounds, if_pos hbounds]
      cases htable' : tableOf (s.mem dir i) with
      | none =>
        have hdiffer : i ≠ pdIndex virt := by
          rintro rfl
          rw [htable] at htable'
          cases htable'
        simp [hdiffer]
      | some table' =>
        rw [bind_some, bind_some, setPage_mem htable, storeWord_apply]
        -- a table is in one slot only
        have hsame : table' = table ↔ i = pdIndex virt := by
          constructor
          · rintro rfl
            have hslot : heldFrame s dir (.table i) = some table' :=
              (heldFrame_table hbounds.1).trans htable'
            have hslot' : heldFrame s dir (.table (pdIndex virt)) = some table' :=
              (heldFrame_table hi).trans htable
            exact Slot.table.inj (h hslot hslot')
          · rintro rfl
            rw [htable] at htable'
            exact (Option.some.inj htable').symm
        simp only [hsame, Slot.page.injEq]
        split_ifs <;> rfl
    · have hdiffer : ¬ (i = pdIndex virt ∧ j = ptIndex virt) := by
        rintro ⟨rfl, rfl⟩
        exact hbounds ⟨hi, ptIndex_lt virt⟩
      simp [hbounds, hdiffer]

theorem Apart.heldFrame_install (h : Apart s dir) {i g entry : ℕ} (hi : i < kernelPdIndexStart)
    (habs : tableOf (s.mem dir i) = none) (hfresh : ∀ slot, heldFrame s dir slot ≠ some g)
    (hentry : tableOf entry = some g) (pmm : Pmm.State) (slot : Slot) :
    heldFrame { s with mem := install s.mem dir i g 0 entry, pmm := pmm } dir slot =
      if slot = .table i then some g else heldFrame s dir slot := by
  have hdir : dir ≠ g := by
    rintro rfl
    exact hfresh .directory rfl
  have hroot : ∀ k, tableOf (install s.mem dir i g 0 entry dir k) =
      if k = i then some g else tableOf (s.mem dir k) := by
    intro k
    rw [install_apply]
    by_cases hk : k = i
    · rw [if_pos ⟨rfl, hk⟩, if_pos hk, hentry]
    · rw [if_neg (fun h => hk h.2), if_neg hdir, if_neg hk]
  cases slot with
  | directory => rfl
  | table k =>
    by_cases hk : k = i
    · subst hk
      simp only [heldFrame, hroot, if_pos hi, if_true]
    · simp only [heldFrame, hroot, hk, Slot.table.injEq, if_false]
  | page k j =>
    rw [if_neg (by simp)]
    simp only [heldFrame, hroot]
    by_cases hbounds : k < kernelPdIndexStart ∧ j < entriesPerTable
    · rw [if_pos hbounds, if_pos hbounds]
      by_cases hk : k = i
      · -- the new table maps nothing
        have hblank : install s.mem dir i g 0 entry g j = 0 := by
          rw [install_apply, if_neg (fun h => hdir h.1.symm), if_pos rfl]
        rw [hk, if_pos rfl, habs, bind_some, hblank, tableOf_zero]
        rfl
      · rw [if_neg hk]
        cases htable : tableOf (s.mem dir k) with
        | none => rfl
        | some table =>
          have hslot : heldFrame s dir (.table k) = some table :=
            (heldFrame_table hbounds.1).trans htable
          have hne : table ≠ g := fun heq => hfresh (.table k) (heq ▸ hslot)
          have hkept : install s.mem dir i g 0 entry table j = s.mem table j := by
            rw [install_apply, if_neg (fun heq => h.table_ne hbounds.1 htable heq.1), if_neg hne]
          rw [bind_some, bind_some, hkept]
    · rw [if_neg hbounds, if_neg hbounds]

section

variable {now now' : ℕ → Bool}

section

variable (h : Space s dir pages now t)

include h

theorem Space.apart : Apart t dir := h.holdings.unique

theorem Space.ne_of_used (hfree : now frame = false) {f : ℕ}
    (hused : pmmTestBit s.pmm f = true) : f ≠ frame := by
  rintro rfl
  rw [h.holdings.kept f hused] at hfree
  cases hfree

theorem Space.ne_of_held (hslot : heldFrame t dir slot = some frame)
    {f : ℕ} (hused : pmmTestBit s.pmm f = true) : f ≠ frame := by
  rintro rfl
  rw [h.holdings.not_before hslot] at hused
  cases hused

theorem Space.install {i entry : ℕ} (hi : i < kernelPdIndexStart)
    (habs : tableOf (t.mem dir i) = none) (hentry : tableOf entry = some frame)
    (hnonzero : frame ≠ 0) (hfree : now frame = false) (hused : now' frame = true)
    (hother : ∀ g, g ≠ frame → now' g = now g) (pmm : Pmm.State) :
    Space s dir pages now' { t with mem := install t.mem dir i frame 0 entry, pmm := pmm } := by
  have hheld := h.apart.heldFrame_install hi habs (h.holdings.ne_of_free hfree) hentry pmm
  have hempty : heldFrame t dir (.table i) = none := (heldFrame_table hi).trans habs
  refine ⟨?_, ?_, ?_, ?_, h.kernelPageDir⟩
  · refine h.holdings.add hfree hempty ?_ ?_ hused hother
    · rw [hheld, if_pos rfl]
    · intro slot hslot
      rw [hheld, if_neg hslot]
  · intro f hf
    have hframe := h.ne_of_used hfree hf
    have hslot : heldFrame t dir .directory = some dir := rfl
    have hdir := h.ne_of_held hslot hf
    rw [← h.memory f hf]
    funext k
    show Lib.install t.mem dir i frame 0 entry f k = t.mem f k
    rw [install_apply, if_neg (fun heq => hdir heq.1), if_neg hframe]
  · intro slot f hslot
    rw [hheld] at hslot
    split_ifs at hslot
    · exact Option.some.inj hslot ▸ hnonzero
    · exact h.nonzero slot f hslot
  · intro k j f hslot
    rw [hheld, if_neg (by simp)] at hslot
    exact h.mapped k j f hslot

theorem Space.setPage {word : ℕ} (hvirt : virt < kernelVirtualBase)
    (htable : tableOf (t.mem dir (pdIndex virt)) ≠ none) (hpage : ¬pages (virt / pageSize))
    (hword : tableOf word = some frame) (hnonzero : frame ≠ 0) (hfree : now frame = false)
    (hused : now' frame = true) (hother : ∀ g, g ≠ frame → now' g = now g) :
    Space s dir (fun page => page = virt / pageSize ∨ pages page) now' (t.setPage dir virt word) := by
  obtain ⟨table, htable⟩ := ne_none_iff_exists'.mp htable
  have hi := pdIndex_lt hvirt
  have hheld := h.apart.heldFrame_setPage hi htable word
  have hempty : heldFrame t dir (.page (pdIndex virt) (ptIndex virt)) = none := by
    refine eq_none_iff_forall_ne_some.mpr fun f hslot => hpage ?_
    rw [← page_eq]
    exact h.mapped _ _ f hslot
  refine ⟨?_, ?_, ?_, ?_, h.kernelPageDir⟩
  · refine h.holdings.add hfree hempty ?_ ?_ hused hother
    · rw [hheld, if_pos rfl, hword]
    · intro slot hslot
      rw [hheld, if_neg hslot]
  · intro f hf
    have hslot : heldFrame t dir (.table (pdIndex virt)) = some table :=
      (heldFrame_table hi).trans htable
    rw [← h.memory f hf]
    funext k
    rw [setPage_mem htable, storeWord_of_ne _ _ _ _ (h.ne_of_held hslot hf)]
  · intro slot f hslot
    rw [hheld] at hslot
    split_ifs at hslot
    · rw [hword] at hslot
      exact Option.some.inj hslot ▸ hnonzero
    · exact h.nonzero slot f hslot
  · intro k j f hslot
    rw [hheld] at hslot
    split_ifs at hslot with hsame
    · obtain ⟨rfl, rfl⟩ := Slot.page.inj hsame
      exact .inl (page_eq virt)
    · exact .inr (h.mapped k j f hslot)

end

end

/-- What `pmm_alloc` gives, if it gives anything: a frame that was free. -/
structure Given (pmm : Pmm.State) (frame : ℕ) : Prop where
  addr : (pmmAlloc pmm).1 = frame * pageSize
  nonzero : frame ≠ 0
  free : pmmTestBit pmm frame = false
  used : pmmTestBit (pmmAlloc pmm).2 frame = true
  other : ∀ g, g ≠ frame → pmmTestBit (pmmAlloc pmm).2 g = pmmTestBit pmm g
  cursor : (pmmAlloc pmm).2.lastFound ≤ maxPages

theorem exists_given {pmm : Pmm.State} (hcursor : pmm.lastFound ≤ maxPages)
    (haddr : (pmmAlloc pmm).1 ≠ 0) : ∃ frame, Given pmm frame := by
  rcases Pmm.pmmAlloc_cases hcursor with ⟨frame, hlt, hfree, heq, -⟩ | ⟨heq, -⟩
  · have haddr' : (pmm.takePage frame).1 = frame * pageSize := by
      show frame * pageSize % 2 ^ 32 = frame * pageSize
      unfold maxPages at hlt
      unfold pageSize
      omega
    refine ⟨frame, by rw [heq, haddr'], ?_, hfree, ?_, ?_, ?_⟩
    · rintro rfl
      rw [heq, haddr', zero_mul] at haddr
      exact haddr rfl
    · rw [heq, pmmTestBit_takePage, decide_eq_true rfl, Bool.true_or]
    · intro g hg
      rw [heq, pmmTestBit_takePage, decide_eq_false hg, Bool.false_or]
    · rw [heq]
      exact hlt
  · rw [heq] at haddr
    exact absurd rfl haddr

theorem Given.div {pmm : Pmm.State} (h : Given pmm frame) : (pmmAlloc pmm).1 / pageSize = frame := by
  rw [h.addr, Nat.mul_div_cancel frame (by decide)]

theorem userSpace_create (hcursor : s.pmm.lastFound ≤ maxPages)
    (hcreate : vmmCreateDirectory pmmAlloc s = (t, dir)) (hdir : dir ≠ 0) :
    UserSpace s dir (fun _ => False) t := by
  have haddr : (pmmAlloc s.pmm).1 ≠ 0 := by
    intro hzero
    unfold vmmCreateDirectory pagingCreateDirectory at hcreate
    dsimp only at hcreate
    rw [if_pos hzero] at hcreate
    exact hdir (Prod.mk.inj hcreate).2.symm
  obtain ⟨frame, hgiven⟩ := exists_given hcursor haddr
  have heq := hcreate.symm.trans (pagingCreateDirectory_eq hgiven.addr hgiven.nonzero)
  cases heq
  have hheld : ∀ slot, slot ≠ .directory → heldFrame { s with
      mem := assign s.mem dir (directoryContent s), pmm := (pmmAlloc s.pmm).2 } dir slot = none := by
    intro slot hslot
    have hempty : ∀ i < kernelPdIndexStart, directoryContent s i = 0 := fun i hi =>
      if_neg (by omega)
    cases slot with
    | directory => exact absurd rfl hslot
    | table i =>
      by_cases hi : i < kernelPdIndexStart
      · simp [heldFrame, hempty i hi]
      · simp [heldFrame, hi]
    | page i j =>
      by_cases hi : i < kernelPdIndexStart
      · simp [heldFrame, hempty i hi]
      · simp [heldFrame, hi]
  refine ⟨⟨?_, ?_, ?_, ?_, rfl⟩, hgiven.cursor⟩
  · have hnone : Holdings (fun _ : Slot => none) (pmmTestBit s.pmm) (pmmTestBit s.pmm) :=
      .empty fun _ => rfl
    exact hnone.add hgiven.free rfl rfl hheld hgiven.used hgiven.other
  · intro frame hused
    have hne : frame ≠ dir := by
      rintro rfl
      rw [hgiven.free] at hused
      cases hused
    exact assign_of_ne s.mem _ hne
  · intro slot frame hslot
    by_cases hdirectory : slot = .directory
    · subst hdirectory
      cases hslot
      exact hdir
    · rw [hheld slot hdirectory] at hslot
      cases hslot
  · intro i j frame hslot
    rw [hheld (.page i j) (by simp)] at hslot
    cases hslot

theorem tableOf_pageWord (frame : ℕ) (hflags : flags < pageSize) :
    tableOf (frame * pageSize ||| flags ||| pagePresent) = some frame := by
  rw [tableOf_of_present (testBit_pageWord _ _), pageWord_div_pageSize _ hflags,
    Nat.mul_div_cancel frame (by decide)]

theorem UserSpace.mapPage (h : UserSpace s dir pages t) (hgiven : Given t.pmm frame)
    (hvirt : virt < kernelVirtualBase) (hpage : ¬pages (virt / pageSize)) (hflags : flags < pageSize)
    (hmap : pagingMap pmmAlloc { t with pmm := (pmmAlloc t.pmm).2 } dir virt (frame * pageSize) flags =
      (u, true)) :
    UserSpace s dir (fun page => page = virt / pageSize ∨ pages page) u := by
  have hi := pdIndex_lt hvirt
  have hdir : dir ≠ 0 := h.nonzero .directory dir rfl
  have hword := tableOf_pageWord frame hflags
  obtain ⟨v, hv, heq⟩ : ∃ v, HasTable pmmAlloc { t with pmm := (pmmAlloc t.pmm).2 } dir virt flags v ∧
      u = v.setPage dir virt (frame * pageSize ||| flags ||| pagePresent) := by
    rcases pagingMap_cases hdir virt (frame * pageSize) flags with ⟨v, hv, heq⟩ | ⟨-, -, heq⟩
    · exact ⟨v, hv, (Prod.mk.inj (hmap.symm.trans heq)).1⟩
    · cases (Prod.mk.inj (hmap.symm.trans heq)).2
  have htable := hv.table
  subst heq
  cases hv with
  | old hpres =>
    have hsame : Space s dir pages (pmmTestBit t.pmm) { t with pmm := (pmmAlloc t.pmm).2 } :=
      { h with }
    exact ⟨hsame.setPage hvirt htable hpage hword hgiven.nonzero hgiven.free hgiven.used hgiven.other,
      hgiven.cursor⟩
  | new habs haddr =>
    obtain ⟨g, hg⟩ := exists_given hgiven.cursor haddr
    -- the table is taken after the frame of the page, and entered before it
    have hne : g ≠ frame := by
      rintro rfl
      have hfree : pmmTestBit (pmmAlloc t.pmm).2 g = false := hg.free
      rw [hgiven.used] at hfree
      cases hfree
    have hgfree : pmmTestBit t.pmm g = false := (hgiven.other g hne).symm.trans hg.free
    have hentry : tableOf ((pmmAlloc (pmmAlloc t.pmm).2).1 ||| pdFlags flags) = some g := by
      rw [tableOf_new, hg.div]
    have hinstalled : Space s dir pages (fun q => decide (q = g) || pmmTestBit t.pmm q)
        { t with
          mem := install t.mem dir (pdIndex virt) g 0
            ((pmmAlloc (pmmAlloc t.pmm).2).1 ||| pdFlags flags)
          pmm := (pmmAlloc (pmmAlloc t.pmm).2).2 } :=
      h.toSpace.install hi (tableOf_eq_none.mpr habs) hentry hg.nonzero hgfree (by simp)
        (fun q hq => by simp [hq]) _
    dsimp only at htable ⊢
    rw [hg.div] at htable ⊢
    refine ⟨hinstalled.setPage hvirt htable hpage hword hgiven.nonzero ?_ ?_ ?_, hg.cursor⟩
    · simp [hne.symm, hgiven.free]
    · exact (hg.other frame hne.symm).trans hgiven.used
    · intro q hq
      show pmmTestBit (pmmAlloc (pmmAlloc t.pmm).2).2 q = (decide (q = g) || pmmTestBit t.pmm q)
      by_cases hqg : q = g
      · rw [hqg, hg.used, decide_eq_true rfl, Bool.true_or]
      · rw [hg.other q hqg, hgiven.other q hq, decide_eq_false hqg, Bool.false_or]

theorem UserSpace.mono (h : UserSpace s dir pages t) {pages' : ℕ → Prop}
    (hpages : ∀ page, pages page → pages' page) : UserSpace s dir pages' t :=
  ⟨{ h with mapped := fun i j f hslot => hpages _ (h.mapped i j f hslot) }, h.cursor⟩

theorem UserSpace.vmmAllocLoop (virtStart : ℕ) {count : ℕ} (h : UserSpace s dir pages t)
    (hend : virt + count * pageSize ≤ kernelVirtualBase)
    (hpages : ∀ page, virt / pageSize ≤ page → page < virt / pageSize + count → ¬pages page)
    (hflags : flags < pageSize)
    (hok : Paging.vmmAllocLoop pmmAlloc pmmFree dir virtStart flags count t virt = (u, true)) :
    UserSpace s dir
      (fun page => virt / pageSize ≤ page ∧ page < virt / pageSize + count ∨ pages page) u := by
  induction count generalizing t virt pages with
  | zero =>
    obtain ⟨rfl, -⟩ := Prod.mk.inj hok
    exact h.mono fun page => .inr
  | succ count ih =>
    unfold Paging.vmmAllocLoop at hok
    dsimp only at hok
    split_ifs at hok with haddr
    · cases (Prod.mk.inj hok).2
    obtain ⟨frame, hgiven⟩ := exists_given h.cursor haddr
    have hvirt : virt < kernelVirtualBase := by
      unfold pageSize at hend
      omega
    have hnext : (virt + pageSize) % 2 ^ 32 = virt + pageSize := by
      unfold kernelVirtualBase at hvirt
      unfold pageSize
      omega
    have hdiv : (virt + pageSize) / pageSize = virt / pageSize + 1 :=
      Nat.add_div_right virt (by decide)
    split at hok
    · rename_i v hmap
      rw [hgiven.addr] at hmap
      rw [hnext] at hok
      have hfst := h.mapPage hgiven hvirt (hpages _ le_rfl (by omega)) hflags hmap
      refine (ih hfst (by unfold pageSize at *; omega) ?_ hok).mono ?_
      · rintro page hge hlt (rfl | hpage)
        · omega
        · exact hpages page (by omega) (by omega) hpage
      · rintro page (hpage | rfl | hpage)
        · exact .inl (by omega)
        · exact .inl (by omega)
        · exact .inr hpage
    · cases (Prod.mk.inj hok).2

/-- A call of `vmm_alloc`. -/
structure VmmRequest where
  virt : ℕ
  size : ℕ
  flags : ℕ

/-- The range of a call is below the kernel, it starts at a page, and the flags are flags. -/
structure VmmRequest.Proper (r : VmmRequest) : Prop where
  aligned : pageSize ∣ r.virt
  below : r.virt + r.size ≤ kernelVirtualBase
  flags_lt : r.flags < pageSize

/-- Two ranges have no address in common. -/
def VmmRequest.Disjoint (r r' : VmmRequest) : Prop :=
  r.virt + r.size ≤ r'.virt ∨ r'.virt + r'.size ≤ r.virt

def VmmRequest.HasPage (r : VmmRequest) (page : ℕ) : Prop :=
  r.virt ≤ page * pageSize ∧ page * pageSize < r.virt + r.size

def AllocStep (dir : ℕ) (s : Machine Pmm.State) (r : VmmRequest) (t : Machine Pmm.State) : Prop :=
  vmmAlloc pmmAlloc pmmFree s dir r.virt r.size r.flags = (t, true)

theorem UserSpace.vmmAlloc (h : UserSpace s dir pages t) {r : VmmRequest} (hr : r.Proper)
    (hpages : ∀ page, r.HasPage page → ¬pages page) (hstep : AllocStep dir t r u) :
    UserSpace s dir (fun page => r.HasPage page ∨ pages page) u := by
  obtain ⟨k, hk⟩ := hr.aligned
  have hbelow := hr.below
  have hpage : ∀ page, r.virt / pageSize ≤ page ∧
      page < r.virt / pageSize + (r.size + pageSize - 1) % 2 ^ 32 / pageSize ↔ r.HasPage page := by
    intro page
    unfold VmmRequest.HasPage
    unfold kernelVirtualBase at hbelow
    unfold pageSize at *
    omega
  unfold AllocStep Paging.vmmAlloc at hstep
  rw [if_neg (h.nonzero .directory dir rfl)] at hstep
  refine (h.vmmAllocLoop r.virt ?_ ?_ hr.flags_lt hstep).mono ?_
  · unfold kernelVirtualBase at *
    unfold pageSize at *
    omega
  · intro page hge hlt
    exact hpages page ((hpage page).mp ⟨hge, hlt⟩)
  · rintro page (hin | hold)
    · exact .inl ((hpage page).mp hin)
    · exact .inr hold

theorem UserSpace.vmmAllocs {rs : List VmmRequest} (h : UserSpace s dir pages t)
    (hrun : Run (AllocStep dir) t rs u) (hproper : ∀ r ∈ rs, r.Proper)
    (hdisj : rs.Pairwise VmmRequest.Disjoint) (hpages : ∀ r ∈ rs, ∀ page, r.HasPage page → ¬pages page) :
    ∃ pages', UserSpace s dir pages' u := by
  induction hrun generalizing pages with
  | nil => exact ⟨pages, h⟩
  | cons hstep _ ih =>
    obtain ⟨hfst, hrest⟩ := pairwise_cons.mp hdisj
    have hnext := h.vmmAlloc (hproper _ mem_cons_self) (hpages _ mem_cons_self) hstep
    refine ih hnext (fun r hr => hproper r (mem_cons_of_mem _ hr)) hrest ?_
    rintro r hr page hpage (hin | hold)
    · obtain ⟨hlow, hhigh⟩ := hpage
      obtain ⟨hlow', hhigh'⟩ := hin
      rcases hfst r hr with hle | hle
      · omega
      · omega
    · exact hpages r (mem_cons_of_mem _ hr) page hpage hold

end Taavi.Paging
