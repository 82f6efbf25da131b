import Taavi.X64.Leaves

/-!
# Lookups and accesses on the x86_64

What `paging_get_phys` gives for an address and what the walk of the processor grants are both
read off its leaf.
-/

namespace Taavi.X64

open Lib Option
open Paging (Machine pagePresent pageRw pageUser)

variable {α : Type*} {roots : ℕ → Prop} {s : Machine α} {dir : ℕ}

def sizeOf (huge : Bool) : ℕ := if huge then hugePageSize else pageSize

/-- The walk ends at the leaf, and the entries above it grant what it grants. -/
inductive WalkEnds (s : Machine α) (dir virt : ℕ) : Option (ℕ × Bool) → Prop
  | fault (hphys : pagingGetPhys s dir virt = 0) (hwalk : walkOf s dir virt = none) :
      WalkEnds s dir virt none
  | leaf {entry : ℕ} {huge : Bool} {above : List ℕ}
      (hphys : pagingGetPhys s dir virt = (entry &&& pageFrameMask) + virt % sizeOf huge)
      (hwalk : walkOf s dir virt = some (above ++ [entry]))
      (hwritable : ∀ e ∈ above, e.testBit 1 = true)
      (huser : entry.testBit 2 = true → ∀ e ∈ above, e.testBit 2 = true) :
      WalkEnds s dir virt (some (entry, huge))

theorem and_hugePageSize (virt : ℕ) : virt &&& (hugePageSize - 1) = virt % sizeOf true :=
  Nat.and_two_pow_sub_one_eq_mod virt 21

theorem and_pageSize (virt : ℕ) : virt &&& 0xFFF = virt % sizeOf false :=
  Nat.and_two_pow_sub_one_eq_mod virt 12

structure AtPageDirectory (s : Machine α) (dir virt pml4Entry pdpEntry : ℕ) : Prop where
  pml4 : s.mem dir (pml4Index virt) = pml4Entry
  pdp : s.mem (frameOf pml4Entry) (pdpIndex virt) = pdpEntry
  pml4Table : tableOf pml4Entry = some (frameOf pml4Entry)
  pdpTable : tableOf pdpEntry = some (frameOf pdpEntry)
  writable : pml4Entry.testBit 1 = true ∧ pdpEntry.testBit 1 = true
  user : (s.mem (frameOf pdpEntry) (pdIndex virt)).testBit 2 = true →
    pml4Entry.testBit 2 = true ∧ pdpEntry.testBit 2 = true

namespace AtPageDirectory

variable {virt pml4Entry pdpEntry : ℕ}

theorem walk_eq (h : AtPageDirectory s dir virt pml4Entry pdpEntry) :
    walk tableOf s.mem dir [pml4Index virt, pdpIndex virt] = some (frameOf pdpEntry) := by
  simp [walk_cons, h.pml4, h.pml4Table, h.pdp, h.pdpTable]

variable (h : AtPageDirectory s dir virt pml4Entry pdpEntry) {pdEntry : ℕ}
  (hpd : s.mem (frameOf pdpEntry) (pdIndex virt) = pdEntry)
include h hpd

theorem leafOf_eq :
    leafOf s.mem dir virt = ((hugeLeaf pdEntry).map (·, true)).or
      ((tableOf pdEntry).bind fun table =>
        (pageLeaf (s.mem table (ptIndex virt))).map (·, false)) := by
  have hpt : [pml4Index virt, pdpIndex virt, pdIndex virt] =
      [pml4Index virt, pdpIndex virt] ++ [pdIndex virt] := rfl
  unfold leafOf lookup
  rw [hpt, walk_concat, h.walk_eq, bind_some, bind_some, hpd]
  cases tableOf pdEntry <;> rfl

theorem pagingGetPhys_eq :
    pagingGetPhys s dir virt =
      if !pdEntry.testBit 0 then 0
      else if pdEntry.testBit 7 then (pdEntry &&& pageFrameMask) + virt % sizeOf true
      else if !(s.mem (frameOf pdEntry) (ptIndex virt)).testBit 0 then 0
      else (s.mem (frameOf pdEntry) (ptIndex virt) &&& pageFrameMask) + virt % sizeOf false := by
  obtain ⟨hpml4, -, -⟩ := tableOf_eq_some.mp h.pml4Table
  obtain ⟨hpdp, -, -⟩ := tableOf_eq_some.mp h.pdpTable
  unfold pagingGetPhys
  simp only [h.pml4, h.pdp, hpd, hpml4, hpdp, and_hugePageSize, and_pageSize]
  rfl

theorem walkOf_eq :
    walkOf s dir virt =
      if !pdEntry.testBit 0 then none
      else if pdEntry.testBit 7 then some [pml4Entry, pdpEntry, pdEntry]
      else if !(s.mem (frameOf pdEntry) (ptIndex virt)).testBit 0 then none
      else some [pml4Entry, pdpEntry, pdEntry, s.mem (frameOf pdEntry) (ptIndex virt)] := by
  obtain ⟨hpml4, hpml4Huge, -⟩ := tableOf_eq_some.mp h.pml4Table
  obtain ⟨hpdp, hpdpHuge, -⟩ := tableOf_eq_some.mp h.pdpTable
  simp only [walkOf, pageWalk, h.pml4, h.pdp, hpd, hpml4, hpml4Huge, hpdp, hpdpHuge]
  cases pdEntry.testBit 0 <;> cases pdEntry.testBit 7 <;>
    cases (s.mem (frameOf pdEntry) (ptIndex virt)).testBit 0 <;> simp

end AtPageDirectory

theorem Tables.walkEnds_of_pageDirectory (h : Tables roots s) (hdir : roots dir)
    {virt pml4Entry pdpEntry : ℕ} (hat : AtPageDirectory s dir virt pml4Entry pdpEntry) :
    WalkEnds s dir virt (leafOf s.mem dir virt) := by
  have huser := hat.user
  generalize hpdEntry : s.mem (frameOf pdpEntry) (pdIndex virt) = pdEntry at huser
  have hleaf := hat.leafOf_eq hpdEntry
  have hphys := hat.pagingGetPhys_eq hpdEntry
  have hwalk := hat.walkOf_eq hpdEntry
  cases hpd : pdEntry.testBit 0 with
  | false =>
    rw [hugeLeaf_of_absent hpd, tableOf_of_absent hpd] at hleaf
    rw [hleaf]
    exact .fault (by rw [hphys, hpd]; rfl) (by rw [hwalk, hpd]; rfl)
  | true =>
    rw [hpd] at hphys hwalk
    cases hhuge : pdEntry.testBit 7 with
    | true =>
      rw [hugeLeaf_of_huge hpd hhuge] at hleaf
      rw [hhuge] at hphys hwalk
      rw [hleaf]
      refine .leaf hphys (hwalk.trans (show _ = some ([_, _] ++ [pdEntry]) from rfl)) ?_ ?_
      · simp [hat.writable]
      · intro hset
        simp [huser hset]
    | false =>
      have htable : tableOf pdEntry = some (frameOf pdEntry) :=
        tableOf_eq_some.mpr ⟨hpd, hhuge, rfl⟩
      have hreach : Reached tableOf 2 roots s.mem (frameOf pdpEntry) :=
        ⟨dir, _, hdir, by simp, hat.walk_eq⟩
      have hpdRw := h.writable _ (pdIndex virt) _ hreach (by rw [hpdEntry, htable])
      have hpdUser := h.user _ (pdIndex virt) _ (ptIndex virt) hreach (by rw [hpdEntry, htable])
      rw [hpdEntry] at hpdRw hpdUser
      rw [hugeLeaf_of_tableOf htable, htable, bind_some] at hleaf
      rw [hhuge] at hphys hwalk
      generalize s.mem (frameOf pdEntry) (ptIndex virt) = ptEntry at *
      cases hpt : ptEntry.testBit 0 with
      | false =>
        rw [pageLeaf_of_absent hpt] at hleaf
        rw [hpt] at hphys hwalk
        rw [hleaf]
        exact .fault hphys hwalk
      | true =>
        rw [pageLeaf_of_present hpt] at hleaf
        rw [hpt] at hphys hwalk
        rw [hleaf]
        refine .leaf hphys (hwalk.trans (show _ = some ([_, _, _] ++ [ptEntry]) from rfl)) ?_ ?_
        · simp [hat.writable, hpdRw]
        · intro hset
          simp [hpdUser hset, huser (hpdUser hset)]

theorem Tables.walkEnds (h : Tables roots s) (hdir : roots dir) (virt : ℕ) :
    WalkEnds s dir virt (leafOf s.mem dir virt) := by
  have hroot : ∀ depth, Reached tableOf depth roots s.mem dir := fun _ => reached_root hdir
  cases hpml4 : (s.mem dir (pml4Index virt)).testBit 0 with
  | false =>
    have hleaf : leafOf s.mem dir virt = none := by
      simp [leafOf, lookup, walk_cons, tableOf_of_absent hpml4]
    rw [hleaf]
    exact .fault (by simp [pagingGetPhys, hpml4]) (by simp [walkOf, pageWalk, hpml4])
  | true =>
    have hpml4Huge := h.inner dir _ (hroot 1) hpml4
    have hpml4Table : tableOf (s.mem dir (pml4Index virt)) = some _ :=
      tableOf_eq_some.mpr ⟨hpml4, hpml4Huge, rfl⟩
    have hpdpReached : ∀ depth, 1 ≤ depth →
        Reached tableOf depth roots s.mem (frameOf (s.mem dir (pml4Index virt))) :=
      fun depth hdepth => ⟨dir, [pml4Index virt], hdir, hdepth, by simp [walk_cons, hpml4Table]⟩
    cases hpdp : (s.mem (frameOf (s.mem dir (pml4Index virt))) (pdpIndex virt)).testBit 0 with
    | false =>
      have hleaf : leafOf s.mem dir virt = none := by
        simp [leafOf, lookup, walk_cons, hpml4Table, tableOf_of_absent hpdp]
      rw [hleaf]
      exact .fault (by simp [pagingGetPhys, hpml4, hpdp])
        (by simp [walkOf, pageWalk, hpml4, hpml4Huge, hpdp])
    | true =>
      have hpdpTable := tableOf_eq_some.mpr ⟨hpdp, h.inner _ _ (hpdpReached 1 (le_refl 1)) hpdp, rfl⟩
      refine h.walkEnds_of_pageDirectory hdir ⟨rfl, rfl, hpml4Table, hpdpTable, ⟨?_, ?_⟩, ?_⟩
      · exact h.writable _ _ _ (hroot 2) hpml4Table
      · exact h.writable _ _ _ (hpdpReached 2 (by omega)) hpdpTable
      · intro hset
        have hpdpSet := h.user _ _ _ _ (hpdpReached 2 (by omega)) hpdpTable hset
        exact ⟨h.user _ _ _ _ (hroot 2) hpml4Table hpdpSet, hpdpSet⟩

variable {virt : ℕ} {leaf : Option (ℕ × Bool)}

theorem WalkEnds.pagingGetPhys_eq
    (h : WalkEnds s dir virt leaf) : pagingGetPhys s dir virt =
      (leaf.map fun p => (p.1 &&& pageFrameMask) + virt % sizeOf p.2).getD 0 := by
  cases h with
  | fault hphys _ => exact hphys
  | leaf hphys _ _ _ => exact hphys

theorem WalkEnds.writeAccess_eq
    (h : WalkEnds s dir virt leaf) : writeAccess s dir virt = leaf.any fun p => p.1.testBit 1 := by
  unfold writeAccess grants
  cases h with
  | fault _ hwalk => rw [hwalk]; rfl
  | leaf _ hwalk hwritable _ =>
    rw [hwalk, any_some, List.all_append, List.all_eq_true.mpr hwritable]
    simp

theorem WalkEnds.userAccess_eq
    (h : WalkEnds s dir virt leaf) : userAccess s dir virt = leaf.any fun p => p.1.testBit 2 := by
  unfold userAccess grants
  cases h with
  | fault _ hwalk => rw [hwalk]; rfl
  | @leaf entry _ _ _ hwalk _ huser =>
    rw [hwalk, any_some, List.all_append, any_some]
    cases hset : entry.testBit 2 with
    | false => simp [hset]
    | true => simp [hset, List.all_eq_true.mpr (huser hset)]

end Taavi.X64
