import Mathlib.Data.List.Perm.Subperm
import Taavi.Lib.Scan

/-!
# Blocks of a table

A table whose entries are in blocks of a heap is backed if these are allocated and shared only if
allocated twice. An entry can be freed, and taken out the table is backed again.
-/

namespace Lib

variable {φ : Type*} {slots : List ℕ} {held : ℕ → Option φ} {live live' : List φ} {a : ℕ} {b : φ}

/-- The blocks in the slots are allocated. -/
def Backed (slots : List ℕ) (held : ℕ → Option φ) (live : List φ) : Prop :=
  (slots.filterMap held).Subperm live

namespace Backed

theorem empty (hheld : ∀ a, held a = none) : Backed slots held live := by
  have hnone : slots.filterMap held = [] := by simp [hheld]
  rw [Backed, hnone]
  exact List.nil_subperm

theorem mem (h : Backed slots held live) (ha : a ∈ slots) (hb : held a = some b) : b ∈ live :=
  h.subset (List.mem_filterMap.mpr ⟨a, ha, hb⟩)

theorem mono (h : Backed slots held live) (hlive : live.Subperm live') :
    Backed slots held live' := h.trans hlive

theorem perm_held (held : ℕ → Option φ) (ha : a ∈ slots) :
    (slots.filterMap held).Perm ((held a).toList ++ (slots.erase a).filterMap held) := by
  refine ((List.perm_cons_erase ha).filterMap held).trans ?_
  cases hb : held a with
  | none => rw [List.filterMap_cons_none hb]; rfl
  | some b => rw [List.filterMap_cons_some hb]; rfl

theorem filterMap_erase_assign (held : ℕ → Option φ) (hslots : slots.Nodup) (x : Option φ) :
    (slots.erase a).filterMap (assign held a x) = (slots.erase a).filterMap held := by
  refine List.filterMap_congr fun c hc => assign_of_ne _ _ ?_
  rintro rfl
  exact hslots.not_mem_erase hc

theorem release [DecidableEq φ] (h : Backed slots held live) (hslots : slots.Nodup)
    (ha : a ∈ slots) (hb : held a = some b) :
    Backed slots (assign held a none) (live.erase b) := by
  have hold := perm_held held ha
  have hnew := perm_held (assign held a none) ha
  rw [hb] at hold
  rw [assign_same, filterMap_erase_assign held hslots] at hnew
  have hrest := (hold.symm.subperm.trans h).erase b
  rw [Option.toList_some, List.singleton_append, List.erase_cons_head] at hrest
  exact hnew.subperm.trans hrest

theorem add (h : Backed slots held live) (hslots : slots.Nodup) (ha : a ∈ slots)
    (hempty : held a = none) : Backed slots (assign held a (some b)) (b :: live) := by
  have hold := perm_held held ha
  have hnew := perm_held (assign held a (some b)) ha
  rw [hempty] at hold
  rw [assign_same, filterMap_erase_assign held hslots] at hnew
  have hrest : ((slots.erase a).filterMap held).Subperm live := hold.symm.subperm.trans h
  exact hnew.subperm.trans ((List.subperm_cons b).mpr hrest)

end Backed

end Lib
