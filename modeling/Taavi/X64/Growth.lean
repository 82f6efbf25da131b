import Taavi.X64.Frames
import Taavi.X64.Lookups
import Taavi.X64.Vmm

/-!
# Tables and the memory manager on the x86_64

Every new table is a frame that was free. If all tables are in use before a call, they are after it,
and no frame in use for something else becomes a table.
-/

namespace Taavi.X64

open Lib X64.Pmm
open Paging (Machine pagePresent pageRw pageUser)

/-- Tables are made of free frames only, and no frame is given back. -/
structure Grown (roots : ℕ → Prop) (s t : Machine Pmm.State) : Prop where
  reached : ∀ f, Reached tableOf 3 roots t.mem f → Reached tableOf 3 roots s.mem f ∨
    pmmTestBit s.pmm f = false ∧ pmmTestBit t.pmm f = true
  used : ∀ f, pmmTestBit s.pmm f = true → pmmTestBit t.pmm f = true
  steady : Steady t.pmm
  maxPages : t.pmm.maxPages = s.pmm.maxPages

def TablesUsed (roots : ℕ → Prop) (s : Machine Pmm.State) : Prop :=
  ∀ f, Reached tableOf 3 roots s.mem f → pmmTestBit s.pmm f = true

variable {roots : ℕ → Prop} {s t u : Machine Pmm.State} {dir table i flags virt frame : ℕ}
  {path : List ℕ} {create : Bool}

theorem Grown.refl (h : Steady s.pmm) : Grown roots s s := ⟨fun _ => .inl, fun _ => id, h, rfl⟩

theorem Grown.trans (h : Grown roots s t) (h' : Grown roots t u) : Grown roots s u := by
  refine ⟨fun f hf => ?_, fun f hf => h'.used f (h.used f hf), h'.steady,
    h'.maxPages.trans h.maxPages⟩
  rcases h'.reached f hf with hf | ⟨hfree, hused⟩
  · rcases h.reached f hf with hf | ⟨hfree, hused⟩
    · exact .inl hf
    · exact .inr ⟨hfree, h'.used f hused⟩
  · refine .inr ⟨?_, hused⟩
    by_contra hno
    rw [h.used f (by simpa using hno)] at hfree
    cases hfree

theorem Grown.tablesUsed (h : Grown roots s t) (hused : TablesUsed roots s) :
    TablesUsed roots t := by
  intro f hf
  rcases h.reached f hf with hf | ⟨-, hf⟩
  · exact h.used f (hused f hf)
  · exact hf

theorem Grown.not_reached (h : Grown roots s t) (hused : pmmTestBit s.pmm frame = true)
    (hnot : ¬Reached tableOf 3 roots s.mem frame) : ¬Reached tableOf 3 roots t.mem frame := by
  intro hreach
  rcases h.reached frame hreach with hreach | ⟨hfree, -⟩
  · exact hnot hreach
  · rw [hused] at hfree
    cases hfree

theorem Grown.of_walk (h : Steady s.pmm) (hpmm : t.pmm = s.pmm)
    (hwalk : ∀ root path, roots root → path.length ≤ 3 →
      walk tableOf t.mem root path = walk tableOf s.mem root path) : Grown roots s t := by
  refine ⟨fun f hf => .inl ((reached_congr hwalk).mp hf), ?_, hpmm ▸ h, by rw [hpmm]⟩
  rw [hpmm]
  exact fun _ => id

theorem freshAnswers_pmmAlloc {n : ℕ} {pmm : Pmm.State} {used : ℕ → Prop} (h : Steady pmm)
    (hused : ∀ f, used f → pmmTestBit pmm f = true) : FreshAnswers pmmAlloc n pmm used := by
  induction n generalizing pmm used with
  | zero => trivial
  | succ n ih =>
    by_cases hzero : (pmmAlloc pmm).1 = 0
    · exact .inl hzero
    · obtain ⟨frame, hgiven⟩ := h.exists_given hzero
      refine .inr ⟨⟨?_, ?_, ?_⟩, ih h.alloc ?_⟩
      · rw [hgiven.addr]
        exact Nat.dvd_mul_left _ _
      · rw [hgiven.addr]
        exact hgiven.addr_lt h
      · rw [hgiven.div]
        intro hframe
        have hset := hused frame hframe
        rw [hgiven.free] at hset
        cases hset
      · rw [hgiven.div]
        rintro f (rfl | hf)
        · exact hgiven.used
        · exact h.used_alloc (hused f hf)

section

variable (h : Tables roots s) (hstead : Steady s.pmm) (hused : TablesUsed roots s)

include h hstead hused

theorem Tables.search_grown (hdir : roots dir) (hlen : path.length ≤ 2)
    (hwalk : walk tableOf s.mem dir path = some table) (create : Bool) :
    Grown roots s (searchOrCreateTable pmmAlloc s table i create flags).1 := by
  unfold searchOrCreateTable
  dsimp only
  split
  · split
    · exact .refl hstead
    · split
      · refine .of_walk hstead rfl fun root path' hroot hlen' => ?_
        exact walk_storeWord h.tree hdir (by omega) hwalk (.inl (tableOf_or_pageUser _)) hroot hlen'
      · exact .refl hstead
  · rename_i hpres
    have hvac : tableOf (s.mem table i) = none := tableOf_of_absent (by simpa using hpres)
    split
    · exact .refl hstead
    · split
      · exact ⟨fun _ => .inl, fun _ => hstead.used_alloc, hstead.alloc, hstead.maxPages_alloc⟩
      · rename_i hzero
        obtain ⟨frame, hgiven⟩ := hstead.exists_given hzero
        have hfresh : ¬Reached tableOf 3 roots s.mem frame := by
          intro hreach
          have hset := hused frame hreach
          rw [hgiven.free] at hset
          cases hset
        have hbits := entryFlags_cases flags
        generalize (if flags.testBit 2 then pageUserRw else pagePresent ||| pageRw) = bits at hbits ⊢
        obtain ⟨hentry, -, -⟩ := newEntry_bits (Nat.dvd_mul_left pageSize frame)
          (hgiven.addr_lt hstead) (hbits.imp And.left And.left)
        rw [Nat.mul_div_cancel frame (by decide)] at hentry
        rw [hgiven.div, hgiven.addr]
        refine ⟨fun f hf => ?_, fun _ => hstead.used_alloc, hstead.alloc, hstead.maxPages_alloc⟩
        rcases reached_install h.tree hdir (by omega) hwalk hfresh tableOf_zero hvac hentry hf
          with rfl | hf
        · exact .inr ⟨hgiven.free, hgiven.used⟩
        · exact .inl hf

theorem Tables.descend_grown (hdir : roots dir) {rest : List ℕ}
    (hlen : path.length + rest.length ≤ 3) (hrest : ∀ i ∈ rest, i < entriesPerTable)
    (hlower : LowerIfUser flags (path ++ rest))
    (hfound : Found pmmAlloc roots s dir path create flags rest.length table) :
    Grown roots s (X64.descend pmmAlloc create flags s table rest).1 := by
  induction rest generalizing s path table with
  | nil => exact .refl hstead
  | cons i rest ih =>
    rw [List.length_cons] at hlen hfound
    obtain ⟨hkept, hnew⟩ := h.search hdir (by omega) (hrest i (by simp)) hlower.init hfound
    have hgrown : Grown roots s (searchOrCreateTable pmmAlloc s table i create flags).1 :=
      h.search_grown hstead hused hdir (by omega) hfound.walk create
    unfold X64.descend
    split
    · rename_i t heq
      rwa [heq] at hgrown
    · rename_i t next heq
      rw [heq] at hkept hnew hgrown
      refine hgrown.trans (ih hkept.tables hgrown.steady (hgrown.tablesUsed hused) (by simp; omega)
        (fun j hj => hrest j (by simp [hj])) (by simpa using hlower) (hnew next rfl))

theorem Tables.pagingMap_grown (hdir : roots dir) (hvirt : virt < 2 ^ 64)
    (huser : flags.testBit 2 = true → virt < 2 ^ 47) (phys : ℕ) :
    Grown roots s (X64.pagingMap pmmAlloc s dir virt phys flags).1 := by
  unfold X64.pagingMap
  split_ifs with _ _ hcheck
  iterate 3 exact .refl hstead
  have hcanon : isCanonical virt = true := by simpa using hcheck
  have hlower := lowerIfUser_of hvirt hcanon huser [pdpIndex virt, pdIndex virt]
  have hfresh : true = true → FreshAnswers pmmAlloc 3 s.pmm (Reached tableOf 3 roots s.mem) :=
    fun _ => freshAnswers_pmmAlloc hstead hused
  have hindices : ∀ i ∈ [pml4Index virt, pdpIndex virt, pdIndex virt], i < entriesPerTable := by
    simp [pml4Index, pdpIndex, pdIndex, tableIndex_lt]
  obtain ⟨hkept, hfound⟩ := h.descend_dir hdir (le_refl 3) hindices hlower hfresh
  have hgrown := h.descend_grown hstead hused hdir (by simp) hindices hlower (found_dir hfresh)
  split
  · rename_i t heq
    rwa [heq] at hgrown
  · rename_i t table heq
    rw [heq] at hkept hfound hgrown
    split
    · exact hgrown
    · refine hgrown.trans (.of_walk hgrown.steady rfl fun root path hroot hlen => ?_)
      exact walk_storeWord hkept.tables.tree hdir (le_refl 3) (hfound table rfl).walk
        (.inr (le_refl 3)) hroot hlen

end

theorem descend_false (alloc : Pmm.State → ℕ × Pmm.State) (s : Machine Pmm.State) (table : ℕ)
    (path : List ℕ) : descend alloc false 0 s table path = (s, walk tableOf s.mem table path) := by
  induction path generalizing table with
  | nil => rfl
  | cons i path ih =>
    have hsearch : searchOrCreateTable alloc s table i false 0 = (s, tableOf (s.mem table i)) := by
      unfold searchOrCreateTable tableOf
      dsimp only
      cases (s.mem table i).testBit 0 <;> cases (s.mem table i).testBit 7 <;> rfl
    rw [descend, hsearch, walk_cons]
    cases tableOf (s.mem table i) with
    | none => rfl
    | some next => exact ih next

theorem pagingUnmap_eq {entry : ℕ} (halign : virt % pageSize = 0)
    (hleaf : leafOf s.mem dir virt = some (entry, false)) : ∃ table,
      walk tableOf s.mem dir [pml4Index virt, pdpIndex virt, pdIndex virt] = some table ∧
      ∀ pmm, pagingUnmap pmmAlloc { s with pmm } dir virt =
        ({ s with mem := storeWord s.mem table (ptIndex virt) 0, pmm }, true) := by
  have hlookup : lookup tableOf pageLeaf s.mem dir [pml4Index virt, pdpIndex virt, pdIndex virt]
      (ptIndex virt) = some entry := by
    unfold leafOf at hleaf
    cases hhuge : lookup tableOf hugeLeaf s.mem dir [pml4Index virt, pdpIndex virt] (pdIndex virt) with
    | some e => simp [hhuge] at hleaf
    | none => simpa [hhuge] using hleaf
  obtain ⟨table, hwalk, hpage⟩ := Option.bind_eq_some_iff.mp hlookup
  have hpres : (s.mem table (ptIndex virt)).testBit 0 = true := by
    unfold pageLeaf at hpage
    split_ifs at hpage with hpres
    exact hpres
  refine ⟨table, hwalk, fun pmm => ?_⟩
  unfold pagingUnmap
  rw [descend_false, isAddressViable, halign]
  simp only [hwalk, hpres]
  rfl

theorem Tables.clearFrame (h : Tables roots s) (hnot : ¬Reached tableOf 3 roots s.mem frame)
    (pmm : Pmm.State) : Tables roots (X64.clearFrame { s with pmm } frame) := by
  have hagree : ∀ g, g ≠ frame → assign s.mem frame (fun _ => 0) g = s.mem g :=
    fun g hg => assign_of_ne s.mem _ hg
  refine h.of_sound (h.tree.of_agree hnot hagree) h.kernel (fun root hroot i hi => ?_) ?_
  · have hne := (reached_root hroot).ne hnot
    exact (congrFun (hagree root hne) i).trans (h.upper root hroot i hi)
  · intro depth hdepth g i hreach
    have hold : Reached tableOf depth roots s.mem g := (reached_congr fun root path hroot hlen =>
        walk_of_agree hnot hagree hroot (by omega)).mp hreach
    have hne : g ≠ frame := (hold.mono (by omega)).ne hnot
    show Sound (assign s.mem frame fun _ => 0) depth (assign s.mem frame (fun _ => 0) g i)
    rw [hagree g hne]
    exact h.sound_assign hnot _ hdepth hold

theorem leafOf_assign (hnot : ¬Reached tableOf 3 roots s.mem frame) (hdir : roots dir)
    (content : ℕ → ℕ) (virt : ℕ) :
    leafOf (assign s.mem frame content) dir virt = leafOf s.mem dir virt := by
  have hagree : ∀ g, g ≠ frame → assign s.mem frame content g = s.mem g :=
    fun g hg => assign_of_ne s.mem _ hg
  unfold leafOf
  rw [lookup_of_agree hnot hagree hdir (by simp), lookup_of_agree hnot hagree hdir (by simp)]

end Taavi.X64
