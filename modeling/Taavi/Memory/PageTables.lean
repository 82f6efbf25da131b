import Mathlib.Tactic.Tauto
import Taavi.Memory.Paging

/-!
# What the paging functions do to the page tables

The directories are a tree of tables of depth one that may share the kernel half. One lemma for each
function says what it does to the entry of each page.
-/

namespace Taavi.Paging

open Lib

variable {α : Type*} {alloc : α → ℕ × α} {roots : ℕ → Prop} {s : Machine α}
  {dir dir' virt phys flags entry : ℕ}

def presentEntry (entry : ℕ) : Option ℕ := if entry.testBit 0 then some entry else none

def KernelIndex (i : ℕ) : Prop := kernelPdIndexStart ≤ i

/-- The word for the page of an address in its page table, if there is a table. -/
def pageWord (s : Machine α) (dir virt : ℕ) : Option ℕ :=
  lookup tableOf some s.mem dir [pdIndex virt] (ptIndex virt)

def pageEntry (s : Machine α) (dir virt : ℕ) : Option ℕ :=
  (pageWord s dir virt).bind presentEntry

/-- The translation of an address by the two steps of the processor. -/
def translate (s : Machine α) (dir virt : ℕ) : Option ℕ :=
  (pageEntry s dir virt).map fun entry => entry / pageSize * pageSize + virt % pageSize

def SamePage (virt virt' : ℕ) : Prop := virt / pageSize = virt' / pageSize

structure Tables (roots : ℕ → Prop) (s : Machine α) : Prop where
  tree : TableTree tableOf 1 roots KernelIndex s.mem
  kernel : roots s.kernelPageDir
  nonzero : ∀ dir, roots dir → dir ≠ 0

/-- What the memory manager may give: `0`, or a frame that is no directory and no table. -/
def FreshAnswer (roots : ℕ → Prop) (mem : ℕ → ℕ → ℕ) (addr : ℕ) : Prop :=
  addr = 0 ∨ pageSize ∣ addr ∧ ¬Reached tableOf 1 roots mem (addr / pageSize)

theorem samePage_iff {virt' : ℕ} :
    SamePage virt virt' ↔ pdIndex virt = pdIndex virt' ∧ ptIndex virt = ptIndex virt' := by
  unfold SamePage pdIndex ptIndex pageSize entriesPerTable
  omega

theorem tableOf_eq_none : tableOf entry = none ↔ entry.testBit 0 = false := by
  unfold tableOf
  split <;> simp_all

theorem tableOf_of_present (h : entry.testBit 0 = true) :
    tableOf entry = some (entry / pageSize) := by
  simp [tableOf, h]

@[simp] theorem tableOf_zero : tableOf 0 = none := by simp [tableOf]

theorem testBit_pageWord (phys flags : ℕ) : (phys ||| flags ||| pagePresent).testBit 0 = true := by
  rw [Nat.testBit_or]
  simp [pagePresent]

theorem or_div_pageSize (phys : ℕ) (hflags : flags < pageSize) :
    (phys ||| flags) / pageSize = phys / pageSize := by
  have hdiv : (phys ||| flags) / 2 ^ 12 = phys / 2 ^ 12 ||| flags / 2 ^ 12 := Nat.or_div_two_pow
  rw [show (2 : ℕ) ^ 12 = pageSize from rfl] at hdiv
  rw [hdiv, Nat.div_eq_of_lt hflags, Nat.or_zero]

theorem pageWord_div_pageSize (phys : ℕ) (hflags : flags < pageSize) :
    (phys ||| flags ||| pagePresent) / pageSize = phys / pageSize := by
  rw [or_div_pageSize _ (show pagePresent < pageSize by decide), or_div_pageSize phys hflags]

theorem pdFlags_cases (flags : ℕ) : pdFlags flags = 3 ∨ pdFlags flags = 7 := by
  unfold pdFlags
  split
  · exact .inr rfl
  · exact .inl rfl

theorem tableOf_new (phys flags : ℕ) : tableOf (phys ||| pdFlags flags) = some (phys / pageSize) := by
  rcases pdFlags_cases flags with h | h <;> rw [h, tableOf_of_present]
  · rw [or_div_pageSize phys (by decide)]
  · simp
  · rw [or_div_pageSize phys (by decide)]
  · simp

theorem walk_singleton (mem : ℕ → ℕ → ℕ) (dir i : ℕ) :
    walk tableOf mem dir [i] = tableOf (mem dir i) := by
  simp [walk_cons]

theorem pageWord_eq (s : Machine α) (dir virt : ℕ) : pageWord s dir virt =
    (tableOf (s.mem dir (pdIndex virt))).map fun table => s.mem table (ptIndex virt) := by
  unfold pageWord lookup
  rw [walk_singleton]
  cases tableOf (s.mem dir (pdIndex virt)) <;> rfl

theorem pageWord_eq_none : pageWord s dir virt = none ↔
    tableOf (s.mem dir (pdIndex virt)) = none := by
  rw [pageWord_eq, Option.map_eq_none_iff]

theorem pageWord_congr {virt' : ℕ} (hpage : SamePage virt virt') (s : Machine α) (dir : ℕ) :
    pageWord s dir virt = pageWord s dir virt' := by
  obtain ⟨hpd, hpt⟩ := samePage_iff.mp hpage
  unfold pageWord
  rw [hpd, hpt]

theorem pagingGetPhys_eq (hdir : dir ≠ 0) (s : Machine α) (virt : ℕ) :
    pagingGetPhys s dir virt =
      ((pageWord s dir virt).map fun word => word / pageSize * pageSize).getD
        invalidPhysicalPage := by
  rw [pageWord_eq]
  unfold pagingGetPhys tableOf
  rw [if_neg hdir]
  split <;> rfl

theorem pageWord_of_agree {t : Machine α} {frame : ℕ}
    (hframe : ¬Reached tableOf 1 roots s.mem frame)
    (hagree : ∀ g, g ≠ frame → t.mem g = s.mem g) (hdir : roots dir) (virt : ℕ) :
    pageWord t dir virt = pageWord s dir virt :=
  lookup_of_agree hframe hagree hdir (show [pdIndex virt].length ≤ 1 by simp) _

section

/-- The directories have the same page table of an address, at the same index. -/
def SameTable (s : Machine α) (dir dir' virt : ℕ) : Prop :=
  tableOf (s.mem dir' (pdIndex virt)) = tableOf (s.mem dir (pdIndex virt))

theorem Tables.not_sameTable (htables : Tables roots s) (hdir : roots dir)
    (hdir' : roots dir') (hne : dir' ≠ dir) (huser : pdIndex virt < kernelPdIndexStart)
    (htable : tableOf (s.mem dir (pdIndex virt)) ≠ none) : ¬SameTable s dir dir' virt := by
  intro hsame
  obtain ⟨table, htable⟩ := Option.ne_none_iff_exists'.mp htable
  unfold SameTable at hsame
  rw [htable, ← walk_singleton] at hsame
  rw [← walk_singleton] at htable
  obtain ⟨-, heq | ⟨i, rest, hpath, hi⟩⟩ := htables.tree hdir' hdir (by simp) (by simp) hsame htable
  · exact hne heq
  · simp only [List.cons.injEq] at hpath
    rw [← hpath.1] at hi
    exact absurd hi (by simpa [KernelIndex] using huser)

theorem Tables.table_ne_root (htables : Tables roots s) {dir' i table : ℕ} (hdir : roots dir)
    (hdir' : roots dir') (htable : tableOf (s.mem dir i) = some table) : dir' ≠ table := by
  rintro rfl
  rw [← walk_singleton] at htable
  obtain ⟨hpath, -⟩ := htables.tree hdir hdir' (by simp) (by simp) htable (walk_nil dir')
  cases hpath

theorem setPage_mem (hpres : tableOf (s.mem dir (pdIndex virt)) = some entry) (word : ℕ) :
    (s.setPage dir virt word).mem = storeWord s.mem entry (ptIndex virt) word := by
  unfold tableOf at hpres
  split at hpres
  · rw [← Option.some.inj hpres]
    rfl
  · cases hpres

variable (htables : Tables roots s) (hdir : roots dir)
  (htable : tableOf (s.mem dir (pdIndex virt)) ≠ none)
include htables hdir htable

theorem Tables.setPage_root (word : ℕ) (hdir' : roots dir') (i : ℕ) :
    (s.setPage dir virt word).mem dir' i = s.mem dir' i := by
  obtain ⟨table, htable⟩ := Option.ne_none_iff_exists'.mp htable
  rw [setPage_mem htable, storeWord_of_ne]
  exact htables.table_ne_root hdir hdir' htable

theorem Tables.setPage (word : ℕ) : Tables roots (s.setPage dir virt word) := by
  obtain ⟨table, htable⟩ := Option.ne_none_iff_exists'.mp htable
  refine ⟨?_, htables.kernel, htables.nonzero⟩
  rw [setPage_mem htable]
  rw [← walk_singleton] at htable
  exact htables.tree.storeWord hdir (by simp) htable (.inr (by simp))

theorem Tables.reached_setPage (word frame : ℕ) :
    Reached tableOf 1 roots (s.setPage dir virt word).mem frame ↔
      Reached tableOf 1 roots s.mem frame := by
  obtain ⟨table, htable⟩ := Option.ne_none_iff_exists'.mp htable
  rw [setPage_mem htable]
  rw [← walk_singleton] at htable
  exact reached_congr fun root path hroot hlen =>
    walk_storeWord htables.tree hdir (by simp) htable (.inr (by simp)) hroot hlen

theorem Tables.pageWord_setPage (word : ℕ) (hdir' : roots dir') (virt' : ℕ)
    [Decidable (SamePage virt virt' ∧ SameTable s dir dir' virt)] :
    pageWord (s.setPage dir virt word) dir' virt' =
      if SamePage virt virt' ∧ SameTable s dir dir' virt then some word
      else pageWord s dir' virt' := by
  obtain ⟨table, htable⟩ := Option.ne_none_iff_exists'.mp htable
  have hwalk := htable
  rw [← walk_singleton] at hwalk
  unfold pageWord
  rw [setPage_mem htable, lookup_storeWord htables.tree hdir (by simp) hwalk (.inr (by simp))
    hdir' (by simp)]
  by_cases hmet : walk tableOf s.mem dir' [pdIndex virt'] = some table
  · have hindex : pdIndex virt' = pdIndex virt := by
      have hpath := htables.tree.walk_eq_some hdir hdir' (by simp) (by simp) hwalk hmet
      simpa using hpath
    have hsame : SameTable s dir dir' virt := by
      unfold SameTable
      rw [htable, ← walk_singleton, ← hindex, hmet]
    by_cases hpt : ptIndex virt' = ptIndex virt
    · rw [if_pos ⟨hmet, hpt⟩, if_pos ⟨samePage_iff.mpr ⟨hindex.symm, hpt.symm⟩, hsame⟩]
    · rw [if_neg (fun h => hpt h.2), if_neg (fun h => hpt (samePage_iff.mp h.1).2.symm)]
  · rw [if_neg (fun h => hmet h.1), if_neg]
    rintro ⟨hpage, hsame⟩
    apply hmet
    rw [walk_singleton, ← (samePage_iff.mp hpage).1]
    exact hsame.trans htable

end

section

/-- The directory entry is present: from before, or with a frame from `pmm_alloc`. -/
inductive HasTable (alloc : α → ℕ × α) (s : Machine α) (dir virt flags : ℕ) : Machine α → Prop
  | old (hpresent : (s.mem dir (pdIndex virt)).testBit 0 = true) : HasTable alloc s dir virt flags s
  | new (habsent : (s.mem dir (pdIndex virt)).testBit 0 = false) (haddr : (alloc s.pmm).1 ≠ 0) :
      HasTable alloc s dir virt flags
        { s with
          mem := install s.mem dir (pdIndex virt) ((alloc s.pmm).1 / pageSize) 0
            ((alloc s.pmm).1 ||| pdFlags flags)
          pmm := (alloc s.pmm).2 }

theorem pagingMap_cases (hdir : dir ≠ 0) (virt phys flags : ℕ) :
    (∃ u, HasTable alloc s dir virt flags u ∧ pagingMap alloc s dir virt phys flags =
      (u.setPage dir virt (phys ||| flags ||| pagePresent), true)) ∨
    (s.mem dir (pdIndex virt)).testBit 0 = false ∧ (alloc s.pmm).1 = 0 ∧
      pagingMap alloc s dir virt phys flags = ({ s with pmm := (alloc s.pmm).2 }, false) := by
  by_cases hpres : (s.mem dir (pdIndex virt)).testBit 0 = true
  · refine .inl ⟨s, .old hpres, ?_⟩
    simp only [pagingMap, if_neg hdir, if_pos hpres]
  · have habs : (s.mem dir (pdIndex virt)).testBit 0 = false := by simpa using hpres
    by_cases haddr : (alloc s.pmm).1 = 0
    · refine .inr ⟨habs, haddr, ?_⟩
      simp only [pagingMap, if_neg hdir, if_neg hpres, if_pos haddr]
    · refine .inl ⟨_, .new habs haddr, ?_⟩
      simp only [pagingMap, if_neg hdir, if_neg hpres, if_neg haddr]

variable {u : Machine α}

theorem HasTable.eq_or_new (h : HasTable alloc s dir virt flags u) :
    u = s ∨ (alloc s.pmm).1 ≠ 0 ∧ u.pmm = (alloc s.pmm).2 ∧
      u.mem = install s.mem dir (pdIndex virt) ((alloc s.pmm).1 / pageSize) 0
        ((alloc s.pmm).1 ||| pdFlags flags) := by
  cases h with
  | old => exact .inl rfl
  | new habs haddr => exact .inr ⟨haddr, rfl, rfl⟩

theorem HasTable.kernelPageDir (h : HasTable alloc s dir virt flags u) :
    u.kernelPageDir = s.kernelPageDir := by
  cases h <;> rfl

theorem HasTable.table (h : HasTable alloc s dir virt flags u) :
    tableOf (u.mem dir (pdIndex virt)) ≠ none := by
  cases h with
  | old hpres => simp [tableOf_of_present hpres]
  | new habs haddr =>
    simp only [install_apply, and_self, if_true, tableOf_new]
    simp

private theorem fresh_of_answer (hfresh : FreshAnswer roots s.mem (alloc s.pmm).1)
    (haddr : (alloc s.pmm).1 ≠ 0) : ¬Reached tableOf 1 roots s.mem ((alloc s.pmm).1 / pageSize) :=
  (hfresh.resolve_left haddr).2

theorem HasTable.root_entry (h : HasTable alloc s dir virt flags u)
    (hfresh : FreshAnswer roots s.mem (alloc s.pmm).1) (hdir' : roots dir') {i : ℕ}
    (hother : dir' ≠ dir ∨ i ≠ pdIndex virt ∨ tableOf (s.mem dir' i) ≠ none) :
    u.mem dir' i = s.mem dir' i := by
  cases h with
  | old => rfl
  | new habs haddr =>
    have hne : dir' ≠ (alloc s.pmm).1 / pageSize := by
      rintro rfl
      exact fresh_of_answer hfresh haddr ⟨_, [], hdir', by simp, walk_nil _⟩
    simp only [install_apply, if_neg hne]
    rw [if_neg]
    rintro ⟨rfl, rfl⟩
    rw [tableOf_eq_none.mpr habs] at hother
    simp at hother

variable (htables : Tables roots s) (hdir : roots dir)
  (hfresh : FreshAnswer roots s.mem (alloc s.pmm).1) (h : HasTable alloc s dir virt flags u)
include htables hdir hfresh h

theorem Tables.hasTable : Tables roots u := by
  cases h with
  | old => exact htables
  | new habs haddr =>
    refine ⟨?_, htables.kernel, htables.nonzero⟩
    exact htables.tree.install hdir (by simp) (walk_nil dir) (fresh_of_answer hfresh haddr)
      tableOf_zero (tableOf_eq_none.mpr habs) (tableOf_new _ _)

theorem Tables.pageWord_hasTable (hdir' : roots dir') (virt' : ℕ) :
    pageWord u dir' virt' =
      if dir' = dir ∧ pdIndex virt' = pdIndex virt then some ((pageWord s dir' virt').getD 0)
      else pageWord s dir' virt' := by
  cases h with
  | old hpres =>
    split
    · rename_i hhere
      obtain ⟨rfl, hindex⟩ := hhere
      rw [pageWord_eq, hindex, tableOf_of_present hpres]
      rfl
    · rfl
  | new habs haddr =>
    have hunreach := fresh_of_answer hfresh haddr
    have hframe : (alloc s.pmm).1 / pageSize ≠ dir := by
      intro heq
      exact hunreach ⟨dir, [], hdir, by simp, by rw [walk_nil, heq]⟩
    have hroot : dir' ≠ (alloc s.pmm).1 / pageSize := by
      rintro rfl
      exact hunreach ⟨_, [], hdir', by simp, walk_nil _⟩
    simp only [pageWord_eq, install_apply, if_neg hroot]
    split
    · rename_i hhere
      rw [hhere.1, hhere.2, tableOf_new, tableOf_eq_none.mpr habs]
      simp [hframe]
    · cases hg : tableOf (s.mem dir' (pdIndex virt')) with
      | none => rfl
      | some g =>
        have hne : g ≠ (alloc s.pmm).1 / pageSize := by
          rintro rfl
          exact hunreach ⟨dir', [pdIndex virt'], hdir', by simp, by rw [walk_singleton, hg]⟩
        have hdirg : g ≠ dir := (htables.table_ne_root hdir' hdir hg).symm
        simp [hne, hdirg]

theorem Tables.reached_hasTable {frame : ℕ} (hreach : Reached tableOf 1 roots u.mem frame) :
    Reached tableOf 1 roots s.mem frame ∨
      (s.mem dir (pdIndex virt)).testBit 0 = false ∧ frame = (alloc s.pmm).1 / pageSize := by
  cases h with
  | old => exact .inl hreach
  | new habs haddr =>
    rcases reached_install htables.tree hdir (by simp) (walk_nil dir) (fresh_of_answer hfresh haddr)
      tableOf_zero (tableOf_eq_none.mpr habs) (tableOf_new _ _) hreach with hnew | hold
    · exact .inr ⟨habs, hnew⟩
    · exact .inl hold

end

section

variable {word virt' : ℕ}

/-- What a successful `paging_map` leaves: a table for the address, and a new word for one page in
every directory that shares it. -/
structure Mapped (roots : ℕ → Prop) (s : Machine α) (dir virt word : ℕ) (t : Machine α) :
    Prop where
  tables : Tables roots t
  kernelPageDir : t.kernelPageDir = s.kernelPageDir
  table : tableOf (t.mem dir (pdIndex virt)) ≠ none
  same : ∀ virt', SamePage virt virt' → pageWord t dir virt' = some word
  other : ∀ virt', ¬SamePage virt virt' → pageWord t dir virt' =
    if pdIndex virt' = pdIndex virt then some ((pageWord s dir virt').getD 0)
    else pageWord s dir virt'
  apart : ∀ dir' virt', roots dir' → dir' ≠ dir → ¬(SamePage virt virt' ∧
    SameTable t dir dir' virt) → pageWord t dir' virt' = pageWord s dir' virt'
  root_entry : ∀ dir' i, roots dir' → dir' ≠ dir ∨ i ≠ pdIndex virt ∨
    tableOf (s.mem dir' i) ≠ none → t.mem dir' i = s.mem dir' i

theorem Mapped.pageEntry_same {t : Machine α} (h : Mapped roots s dir virt word t)
    (hpage : SamePage virt virt') : pageEntry t dir virt' = presentEntry word := by
  unfold pageEntry
  rw [h.same virt' hpage]
  rfl

theorem Mapped.pageEntry_other {t : Machine α} (h : Mapped roots s dir virt word t)
    (hpage : ¬SamePage virt virt') : pageEntry t dir virt' = pageEntry s dir virt' := by
  unfold pageEntry
  rw [h.other virt' hpage]
  split
  · cases pageWord s dir virt' <;> rfl
  · rfl

section

variable (htables : Tables roots s) (hdir : roots dir)

include htables hdir

theorem Tables.mapped
    (hfresh : FreshAnswer roots s.mem (alloc s.pmm).1) {u : Machine α}
    (h : HasTable alloc s dir virt flags u) (word : ℕ) :
    Mapped roots s dir virt word (u.setPage dir virt word) := by
  classical
  have hu := htables.hasTable hdir hfresh h
  have hroot : ∀ dir' i, roots dir' → (u.setPage dir virt word).mem dir' i = u.mem dir' i :=
    fun dir' i hdir' => hu.setPage_root hdir h.table word hdir' i
  refine ⟨hu.setPage hdir h.table word, h.kernelPageDir, ?_, ?_, ?_, ?_, ?_⟩
  · rw [hroot dir _ hdir]
    exact h.table
  · intro virt' hpage
    rw [hu.pageWord_setPage hdir h.table word hdir, if_pos ⟨hpage, rfl⟩]
  · intro virt' hpage
    rw [hu.pageWord_setPage hdir h.table word hdir, if_neg (fun h => hpage h.1),
      htables.pageWord_hasTable hdir hfresh h hdir]
    simp
  · intro dir' virt' hdir' hne hother
    have hsame : SameTable (u.setPage dir virt word) dir dir' virt ↔ SameTable u dir dir' virt := by
      unfold SameTable
      rw [hroot dir _ hdir, hroot dir' _ hdir']
    rw [hsame] at hother
    rw [hu.pageWord_setPage hdir h.table word hdir', if_neg hother,
      htables.pageWord_hasTable hdir hfresh h hdir', if_neg (fun h => hne h.1)]
  · intro dir' i hdir' hother
    rw [hroot dir' i hdir', h.root_entry hfresh hdir' hother]

theorem Tables.mapped_of_present
    (hpres : (s.mem dir (pdIndex virt)).testBit 0 = true) (word : ℕ) :
    Mapped roots s dir virt word (s.setPage dir virt word) := by
  -- no frame is asked for, so any answer will do
  have hold : HasTable (fun a => (0, a)) s dir virt 0 s := .old hpres
  exact htables.mapped hdir (.inl rfl) hold word

theorem Tables.pagingMap
    (hfresh : FreshAnswer roots s.mem (alloc s.pmm).1) (virt phys flags : ℕ) :
    (pagingMap alloc s dir virt phys flags).2 = true ∧
      Mapped roots s dir virt (phys ||| flags ||| pagePresent)
        (pagingMap alloc s dir virt phys flags).1 ∨
    pagingMap alloc s dir virt phys flags = ({ s with pmm := (alloc s.pmm).2 }, false) := by
  rcases pagingMap_cases (htables.nonzero dir hdir) virt phys flags with ⟨u, hu, heq⟩ | ⟨-, -, heq⟩
  · left
    rw [heq]
    exact ⟨rfl, htables.mapped hdir hfresh hu _⟩
  · exact .inr heq

theorem Tables.pagingUnmap (virt : ℕ) :
    (pagingUnmap s dir virt).2 = true ∧
      Mapped roots s dir virt 0 (pagingUnmap s dir virt).1 ∧ tableOf (s.mem dir (pdIndex virt)) ≠ none ∨
    Paging.pagingUnmap s dir virt = (s, false) ∧ tableOf (s.mem dir (pdIndex virt)) = none := by
  by_cases hpres : (s.mem dir (pdIndex virt)).testBit 0 = true
  · left
    have heq : Paging.pagingUnmap s dir virt = (s.setPage dir virt 0, true) := by
      simp only [Paging.pagingUnmap, if_neg (htables.nonzero dir hdir), if_pos hpres]
    rw [heq]
    exact ⟨rfl, htables.mapped_of_present hdir hpres 0, by simp [tableOf_of_present hpres]⟩
  · right
    have habs : (s.mem dir (pdIndex virt)).testBit 0 = false := by simpa using hpres
    refine ⟨?_, tableOf_eq_none.mpr habs⟩
    simp only [Paging.pagingUnmap, if_neg (htables.nonzero dir hdir), if_neg hpres]

end

theorem vmmAlloc_one_page (free : α → ℕ → α × Bool) {frame : ℕ}
    (haddr : (alloc s.pmm).1 = frame * pageSize) (hframe : frame ≠ 0) (hdir : dir ≠ 0)
    (hpres : (s.mem dir (pdIndex virt)).testBit 0 = true) (flags : ℕ) :
    vmmAlloc alloc free s dir virt pageSize flags =
      (({ s with pmm := (alloc s.pmm).2 }).setPage dir virt
        (frame * pageSize ||| flags ||| pagePresent), true) := by
  have hne : (alloc s.pmm).1 ≠ 0 := by
    rw [haddr]
    unfold pageSize
    omega
  have hpages : (pageSize + pageSize - 1) % 2 ^ 32 / pageSize = 1 := by decide
  unfold vmmAlloc
  rw [if_neg hdir, hpages]
  simp only [vmmAllocLoop, if_neg hne, Paging.pagingMap, if_neg hdir, if_pos hpres]
  rw [haddr]

end

theorem pagingCreateDirectory_eq {frame : ℕ} (haddr : (alloc s.pmm).1 = frame * pageSize)
    (hframe : frame ≠ 0) : pagingCreateDirectory alloc s =
      ({ s with mem := assign s.mem frame (directoryContent s), pmm := (alloc s.pmm).2 }, frame) := by
  have hne : (alloc s.pmm).1 ≠ 0 := by
    rw [haddr]
    unfold pageSize
    omega
  simp only [pagingCreateDirectory, if_neg hne]
  rw [haddr, Nat.mul_div_cancel frame (by decide)]

/-- A directory that has the kernel half of the kernel's and nothing else. -/
structure Created (roots : ℕ → Prop) (s : Machine α) (dir : ℕ) (t : Machine α) : Prop where
  tables : Tables (fun d => d = dir ∨ roots d) t
  kernelPageDir : t.kernelPageDir = s.kernelPageDir
  fresh : ¬Reached tableOf 1 roots s.mem dir
  frame : ∀ f, f ≠ dir → t.mem f = s.mem f
  old : ∀ dir' virt, roots dir' → pageWord t dir' virt = pageWord s dir' virt
  kernel : ∀ virt, kernelPdIndexStart ≤ pdIndex virt →
    pageWord t dir virt = pageWord s s.kernelPageDir virt
  user : ∀ virt, pdIndex virt < kernelPdIndexStart → pageWord t dir virt = none

theorem Tables.pagingCreateDirectory (htables : Tables roots s)
    (hfresh : FreshAnswer roots s.mem (alloc s.pmm).1) :
    (pagingCreateDirectory alloc s).2 ≠ 0 ∧ Created roots s (pagingCreateDirectory alloc s).2
      (pagingCreateDirectory alloc s).1 ∨
    Paging.pagingCreateDirectory alloc s = ({ s with pmm := (alloc s.pmm).2 }, 0) := by
  by_cases haddr : (alloc s.pmm).1 = 0
  · right
    simp only [Paging.pagingCreateDirectory, if_pos haddr]
  · left
    obtain ⟨halign, hunreach⟩ := hfresh.resolve_left haddr
    have hnull : (alloc s.pmm).1 / pageSize ≠ 0 := by
      obtain ⟨k, hk⟩ := halign
      rw [hk] at haddr ⊢
      rw [Nat.mul_div_cancel_left k (by decide)]
      rintro rfl
      exact haddr rfl
    have hker := htables.kernel
    simp only [Paging.pagingCreateDirectory, if_neg haddr]
    refine ⟨hnull, ?_⟩
    refine ⟨⟨?_, .inr hker, ?_⟩, rfl, hunreach, fun f hf => assign_of_ne _ _ hf, ?_, ?_, ?_⟩
    · apply htables.tree.newRoot hker hunreach
      · intro i hi
        exact if_pos hi
      · intro i hi
        rw [directoryContent, if_neg (show ¬kernelPdIndexStart ≤ i from hi), tableOf_zero]
    · rintro d (rfl | hd)
      · exact hnull
      · exact htables.nonzero d hd
    · intro dir' virt hdir'
      exact lookup_of_agree hunreach (fun g hg => assign_of_ne _ _ hg) hdir' (by simp) _
    · intro virt hvirt
      have hshare : directoryContent s (pdIndex virt) = s.mem s.kernelPageDir (pdIndex virt) :=
        if_pos hvirt
      exact lookup_newRoot_shared hker hunreach hshare
        (show ([] : List ℕ).length < 1 by simp) _
    · intro virt hvirt
      have hprivate : tableOf (directoryContent s (pdIndex virt)) = none := by
        rw [directoryContent, if_neg (by omega), tableOf_zero]
      exact lookup_newRoot_private hprivate _ _

end Taavi.Paging
