import Taavi.X64.Descent

/-!
# What the paging functions do to the pages

A call that succeeds changes the leaf of one page, in its own directory or, in the kernel half,
in every directory. A call that fails changes no leaf.
-/

namespace Taavi.X64

open Lib
open Paging (Machine pagePresent pageRw pageUser)

variable {α : Type*} {alloc : α → ℕ × α} {roots : ℕ → Prop} {s t : Machine α}
  {dir table i entry flags virt phys : ℕ}

/-- The leaf of one page is replaced, in one directory or in the half that all share. -/
structure Replaced (roots : ℕ → Prop) (s t : Machine α) (dir virt size : ℕ)
    (leaf : Option (ℕ × Bool)) : Prop where
  tables : Tables roots t
  kernel : t.kernelPageDir = s.kernelPageDir
  leaves : ∀ dir' virt', roots dir' → virt' < 2 ^ 64 → isCanonical virt' = true →
    leafOf t.mem dir' virt' =
      if (dir' = dir ∨ KernelIndex (pml4Index virt)) ∧ virt' / size = virt / size then leaf
      else leafOf s.mem dir' virt'

section

variable (h : Tables roots s) (hdir : roots dir)

include h hdir

theorem Tables.walk_iff {rest : List ℕ}
    (hlen : (i :: rest).length ≤ 3) (hwalk : walk tableOf s.mem dir (i :: rest) = some table)
    {dir' : ℕ} (hdir' : roots dir') (path' : List ℕ) (hlen' : path'.length ≤ 3) :
    walk tableOf s.mem dir' path' = some table ↔
      (dir' = dir ∨ KernelIndex i) ∧ path' = i :: rest := by
  constructor
  · intro hwalk'
    obtain ⟨hpath, hroots⟩ := h.tree hdir hdir' hlen hlen' hwalk hwalk'
    refine ⟨?_, hpath.symm⟩
    rcases hroots with rfl | ⟨k, tail, hk, hshare⟩
    · exact .inl rfl
    · obtain ⟨rfl, -⟩ := List.cons.inj hk
      exact .inr hshare
  · rintro ⟨rfl | hi, rfl⟩
    · exact hwalk
    · rw [walk_cons, h.upper dir' hdir' i hi, ← h.upper dir hdir i hi, ← walk_cons, hwalk]

theorem Tables.lookup_store {rest : List ℕ} {j : ℕ}
    (hlen : (i :: rest).length ≤ 3) (hwalk : walk tableOf s.mem dir (i :: rest) = some table)
    (hfits : Fits (i :: rest).length j (s.mem table j) entry) {dir' : ℕ} (hdir' : roots dir')
    {path' : List ℕ} (hlen' : path'.length ≤ 3) (leaf : ℕ → Option ℕ) (j' : ℕ) :
    lookup tableOf leaf (storeWord s.mem table j entry) dir' path' j' =
      if (dir' = dir ∨ KernelIndex i) ∧ path' = i :: rest ∧ j' = j then leaf entry
      else lookup tableOf leaf s.mem dir' path' j' := by
  rw [lookup_storeWord h.tree hdir hlen hwalk hfits.same hdir' hlen']
  simp only [h.walk_iff hdir hlen hwalk hdir' path' hlen', and_assoc]

theorem Tables.storePage (hvirt : virt < 2 ^ 64)
    (hcanon : isCanonical virt = true)
    (hwalk : walk tableOf s.mem dir [pml4Index virt, pdpIndex virt, pdIndex virt] = some table)
    (huser : entry.testBit 2 = true →
      UserPath s.mem dir [pml4Index virt, pdpIndex virt, pdIndex virt]) :
    Replaced roots s { s with mem := storeWord s.mem table (ptIndex virt) entry } dir virt pageSize
      ((pageLeaf entry).map (·, false)) := by
  have hfits : Fits 3 (ptIndex virt) (s.mem table (ptIndex virt)) entry :=
    ⟨.inr (le_refl 3), by omega, by omega, by omega, by omega⟩
  refine ⟨h.store hdir (le_refl 3) hwalk hfits huser, rfl, ?_⟩
  intro dir' virt' hdir' hvirt' hcanon'
  have hpage := samePage_iff hvirt hcanon hvirt' hcanon'
  unfold leafOf
  -- the huge pages are not touched
  rw [h.lookup_store hdir (le_refl 3) hwalk hfits hdir' (by simp), if_neg (by simp),
    h.lookup_store hdir (le_refl 3) hwalk hfits hdir' (le_refl 3)]
  simp only [List.cons.injEq, and_true, hpage]
  by_cases hhere : (dir' = dir ∨ KernelIndex (pml4Index virt)) ∧ virt' / pageSize = virt / pageSize
  · obtain ⟨⟨hpml4, hpdp, hpd⟩, -⟩ := hpage.mpr hhere.2
    have hwalk' := (h.walk_iff hdir (le_refl 3) hwalk hdir'
      ([pml4Index virt', pdpIndex virt'] ++ [pdIndex virt']) (le_refl 3)).mpr
        ⟨hhere.1, by rw [hpml4, hpdp, hpd]; rfl⟩
    have hnone : lookup tableOf hugeLeaf s.mem dir' [pml4Index virt', pdpIndex virt']
        (pdIndex virt') = none := by
      rw [walk_concat] at hwalk'
      obtain ⟨pd, hpd', hentry⟩ := Option.bind_eq_some_iff.mp hwalk'
      rw [lookup, hpd', Option.bind_some, hugeLeaf_of_tableOf hentry]
    rw [if_pos hhere, if_pos hhere, hnone]
    rfl
  · rw [if_neg hhere, if_neg hhere]

theorem Tables.storeHuge (hvirt : virt < 2 ^ 64)
    (hcanon : isCanonical virt = true)
    (hwalk : walk tableOf s.mem dir [pml4Index virt, pdpIndex virt] = some table)
    (hvac : (s.mem table (pdIndex virt)).testBit 0 = false)
    (hpres : entry.testBit 0 = true) (hhuge : entry.testBit 7 = true)
    (huser : entry.testBit 2 = true → UserPath s.mem dir [pml4Index virt, pdpIndex virt]) :
    Replaced roots s { s with mem := storeWord s.mem table (pdIndex virt) entry } dir virt
      hugePageSize (some (entry, true)) := by
  have hnone := tableOf_of_huge hhuge
  have hfits : Fits 2 (pdIndex virt) (s.mem table (pdIndex virt)) entry := by
    refine ⟨.inl ?_, by omega, fun _ hne => absurd hnone hne, fun _ hne => absurd hnone hne,
      by omega⟩
    rw [hnone, tableOf_of_absent hvac]
  refine ⟨h.store hdir (by simp) hwalk hfits huser, rfl, ?_⟩
  intro dir' virt' hdir' hvirt' hcanon'
  have hreg := sameRegion_iff hvirt hcanon hvirt' hcanon'
  unfold leafOf
  -- the pages of 4 KiB are not touched
  rw [h.lookup_store hdir (by simp) hwalk hfits hdir' (by simp) pageLeaf, if_neg (by simp),
    h.lookup_store hdir (by simp) hwalk hfits hdir' (by simp)]
  simp only [List.cons.injEq, and_true, and_assoc, hreg]
  by_cases hhere : (dir' = dir ∨ KernelIndex (pml4Index virt)) ∧
      virt' / hugePageSize = virt / hugePageSize
  · rw [if_pos hhere, if_pos hhere]
    simp [hugeLeaf, hpres, hhuge]
  · rw [if_neg hhere, if_neg hhere]

end

theorem found_dir {create : Bool} {n : ℕ}
    (hfresh : create = true → FreshAnswers alloc n s.pmm (Reached tableOf 3 roots s.mem)) :
    Found alloc roots s dir [] create flags n dir := by
  refine ⟨rfl, fun _ => ⟨fun i tail hpath => (List.cons_ne_nil i tail hpath.symm).elim, ?_⟩, hfresh⟩
  intro init i table hpath
  simpa using congrArg List.length hpath

theorem Tables.descend_dir (h : Tables roots s) (hdir : roots dir) {rest : List ℕ}
    (hlen : rest.length ≤ 3) (hrest : ∀ i ∈ rest, i < entriesPerTable)
    (hlower : LowerIfUser flags rest) {create : Bool}
    (hfresh : create = true → FreshAnswers alloc rest.length s.pmm (Reached tableOf 3 roots s.mem)) :
    Kept roots s (X64.descend alloc create flags s dir rest).1 ∧
      ∀ next, (X64.descend alloc create flags s dir rest).2 = some next →
        Found alloc roots (X64.descend alloc create flags s dir rest).1 dir rest create flags 0
          next :=
  h.descend hdir (by simpa using hlen) hrest hlower (found_dir hfresh)

theorem testBit_pageEntry (halign : pageSize ∣ phys) {bit : ℕ} (hbit : bit < 12) (bits : ℕ) :
    (phys ||| flags ||| bits).testBit bit = (flags.testBit bit || bits.testBit bit) := by
  rw [Nat.testBit_or, Nat.testBit_or, testBit_aligned halign hbit, Bool.false_or]

theorem aligned_of_viable {addr : ℕ} (h : isAddressViable addr = true) : pageSize ∣ addr :=
  Nat.dvd_of_mod_eq_zero (by simpa [isAddressViable] using h)

theorem lowerIfUser_of (hvirt : virt < 2 ^ 64) (hcanon : isCanonical virt = true)
    (huser : flags.testBit 2 = true → virt < 2 ^ 47) (rest : List ℕ) :
    LowerIfUser flags (pml4Index virt :: rest) := by
  intro hset i tail hpath hi
  obtain ⟨rfl, -⟩ := List.cons.inj hpath
  exact (kernelPdIndexStart_le_iff hvirt hcanon).mp hi (huser hset)

theorem Replaced.after {u : Machine α} {size : ℕ} {leaf : Option (ℕ × Bool)}
    (h : Replaced roots t u dir virt size leaf) (hkept : Kept roots s t) :
    Replaced roots s u dir virt size leaf := by
  refine ⟨h.tables, h.kernel.trans hkept.kernel, ?_⟩
  intro dir' virt' hdir' hvirt' hcanon'
  rw [h.leaves dir' virt' hdir' hvirt' hcanon', hkept.leaves.leafOf_eq hdir']

/-- A call fails and keeps the leaves, or it replaces one leaf. -/
def Does (roots : ℕ → Prop) (s : Machine α) (dir virt size : ℕ) (leaf : Option (ℕ × Bool))
    (result : Machine α × Bool) : Prop :=
  (∃ t, result = (t, false) ∧ Kept roots s t) ∨
    ∃ t, result = (t, true) ∧ Replaced roots s t dir virt size leaf

theorem Does.failed {size : ℕ} {leaf : Option (ℕ × Bool)} (h : Kept roots s t) :
    Does roots s dir virt size leaf (t, false) :=
  Or.inl ⟨t, rfl, h⟩

section

variable (h : Tables roots s) (hdir : roots dir) (hvirt : virt < 2 ^ 64)

include h hdir hvirt

theorem Tables.pagingMap
    (huser : flags.testBit 2 = true → virt < 2 ^ 47)
    (hfresh : FreshAnswers alloc 3 s.pmm (Reached tableOf 3 roots s.mem)) (phys : ℕ) :
    Does roots s dir virt pageSize (some (phys ||| flags ||| pagePresent, false))
      (X64.pagingMap alloc s dir virt phys flags) := by
  unfold X64.pagingMap
  split_ifs with _ hphys hcheck
  iterate 3 exact Does.failed (Kept.refl h)
  have halign := aligned_of_viable (by simpa using hphys)
  have hcanon : isCanonical virt = true := by simpa using hcheck
  have hlower := lowerIfUser_of hvirt hcanon huser [pdpIndex virt, pdIndex virt]
  obtain ⟨hkept, hfound⟩ := h.descend_dir hdir (le_refl 3)
    (by simp [pml4Index, pdpIndex, pdIndex, tableIndex_lt]) hlower (fun _ => hfresh)
  split
  · rename_i t heq
    rw [heq] at hkept
    exact Does.failed hkept
  · rename_i t table heq
    rw [heq] at hkept hfound
    have htable := hfound table rfl
    split
    · exact Does.failed hkept
    · have hbit : (phys ||| flags ||| pagePresent).testBit 2 = flags.testBit 2 := by
        rw [testBit_pageEntry halign (by omega), show pagePresent.testBit 2 = false by decide,
          Bool.or_false]
      have hpres : (phys ||| flags ||| pagePresent).testBit 0 = true := by
        rw [testBit_pageEntry halign (by omega), show pagePresent.testBit 0 = true by decide,
          Bool.or_true]
      have hstore := hkept.tables.storePage hdir hvirt hcanon htable.walk
        (fun hset => htable.user (hbit.symm.trans hset))
      rw [pageLeaf, if_pos hpres] at hstore
      exact .inr ⟨_, rfl, hstore.after hkept⟩

theorem Tables.pagingMapHuge
    (huser : flags.testBit 2 = true → virt < 2 ^ 47)
    (hfresh : FreshAnswers alloc 2 s.pmm (Reached tableOf 3 roots s.mem)) (phys : ℕ) :
    Does roots s dir virt hugePageSize
      (some (phys ||| flags ||| pagePresent ||| pageHuge, true))
      (X64.pagingMapHuge alloc s dir virt phys flags) := by
  unfold X64.pagingMapHuge
  split_ifs with _ hphys hcheck
  iterate 3 exact Does.failed (Kept.refl h)
  have halign := aligned_of_viable (by simpa using hphys)
  have hcanon : isCanonical virt = true := by simpa using hcheck
  have hlower := lowerIfUser_of hvirt hcanon huser [pdpIndex virt]
  obtain ⟨hkept, hfound⟩ := h.descend_dir hdir (by simp)
    (by simp [pml4Index, pdpIndex, tableIndex_lt]) hlower (fun _ => hfresh)
  split
  · rename_i t heq
    rw [heq] at hkept
    exact Does.failed hkept
  · rename_i t table heq
    rw [heq] at hkept hfound
    have htable := hfound table rfl
    split
    · exact Does.failed hkept
    · rename_i hvac
      have hor : phys ||| flags ||| pagePresent ||| pageHuge =
          phys ||| flags ||| (pagePresent ||| pageHuge) := Nat.or_assoc ..
      have hbits : ∀ bit, bit < 12 → (phys ||| flags ||| pagePresent ||| pageHuge).testBit bit =
          (flags.testBit bit || (pagePresent ||| pageHuge).testBit bit) := by
        intro bit hbit
        rw [hor, testBit_pageEntry halign hbit]
      have hbit := hbits 2 (by omega)
      rw [show (pagePresent ||| pageHuge).testBit 2 = false by decide, Bool.or_false] at hbit
      have hstore := hkept.tables.storeHuge hdir hvirt hcanon htable.walk
        (by simpa using hvac)
        (by rw [hbits 0 (by omega), show (pagePresent ||| pageHuge).testBit 0 = true by decide,
          Bool.or_true])
        (by rw [hbits 7 (by omega), show (pagePresent ||| pageHuge).testBit 7 = true by decide,
          Bool.or_true])
        (fun hset => htable.user (hbit.symm.trans hset))
      exact .inr ⟨_, rfl, hstore.after hkept⟩

theorem Tables.pagingUnmap
    (hcanon : isCanonical virt = true) (alloc : α → ℕ × α) :
    Does roots s dir virt pageSize none (X64.pagingUnmap alloc s dir virt) := by
  unfold X64.pagingUnmap
  split
  · exact Does.failed (Kept.refl h)
  have hlower : LowerIfUser 0 [pml4Index virt, pdpIndex virt, pdIndex virt] := by
    intro hset
    simp at hset
  obtain ⟨hkept, hfound⟩ := h.descend_dir hdir (le_refl 3)
    (by simp [pml4Index, pdpIndex, pdIndex, tableIndex_lt]) hlower
    (fun hcreate : false = true => Bool.noConfusion hcreate)
  split
  · rename_i t heq
    rw [heq] at hkept
    exact Does.failed hkept
  · rename_i t table heq
    rw [heq] at hkept hfound
    have htable := hfound table rfl
    split
    · have huser : Nat.testBit 0 2 = true →
          UserPath t.mem dir [pml4Index virt, pdpIndex virt, pdIndex virt] := by simp
      have hstore := hkept.tables.storePage hdir hvirt hcanon htable.walk huser
      exact .inr ⟨_, rfl, hstore.after hkept⟩
    · exact Does.failed hkept

end

end Taavi.X64
