import Mathlib.Data.Nat.Bitwise
import Taavi.X64.Paging

/-!
# Entries and addresses on the x86_64

The bits of the entries that the paging functions write, and the indices of canonical
addresses.
-/

namespace Taavi.X64

open Lib
open Paging (Machine pagePresent pageRw pageUser)

/-- The table that an entry names. A huge entry names none. -/
def tableOf (entry : ℕ) : Option ℕ :=
  if entry.testBit 0 && !entry.testBit 7 then some (frameOf entry) else none

def hugeLeaf (entry : ℕ) : Option ℕ :=
  if entry.testBit 0 && entry.testBit 7 then some entry else none

def pageLeaf (entry : ℕ) : Option ℕ := if entry.testBit 0 then some entry else none

section

variable {phys flags entry bit : ℕ}

theorem testBit_pageFrameMask (bit : ℕ) :
    pageFrameMask.testBit bit = decide (12 ≤ bit ∧ bit < 52) := by
  have hmask : pageFrameMask = (2 ^ 40 - 1) <<< 12 := by decide
  rw [hmask, Nat.testBit_shiftLeft, Nat.testBit_two_pow_sub_one, ← Bool.decide_and,
    decide_eq_decide]
  omega

theorem testBit_aligned (hphys : pageSize ∣ phys) (hbit : bit < 12) : phys.testBit bit = false := by
  obtain ⟨q, rfl⟩ := hphys
  rw [show pageSize * q = q <<< 12 by rw [Nat.shiftLeft_eq, mul_comm]; rfl,
    Nat.testBit_shiftLeft]
  simp [show ¬12 ≤ bit by omega]

theorem and_pageFrameMask_of_aligned (hphys : pageSize ∣ phys) (hlt : phys < 2 ^ 52) :
    phys &&& pageFrameMask = phys := by
  apply Nat.eq_of_testBit_eq
  intro bit
  rw [Nat.testBit_and, testBit_pageFrameMask]
  by_cases hlow : bit < 12
  · rw [testBit_aligned hphys hlow, Bool.false_and]
  · by_cases hhigh : bit < 52
    · simp [hhigh, show 12 ≤ bit by omega]
    · have hzero : phys.testBit bit = false :=
        Nat.testBit_eq_false_of_lt (lt_of_lt_of_le hlt (Nat.pow_le_pow_right (by decide) (by omega)))
      rw [hzero, Bool.false_and]

theorem or_and_pageFrameMask (hphys : pageSize ∣ phys) (hlt : phys < 2 ^ 52)
    (hflags : flags &&& pageFrameMask = 0) : (phys ||| flags) &&& pageFrameMask = phys := by
  rw [Nat.and_or_distrib_right, and_pageFrameMask_of_aligned hphys hlt, hflags, Nat.or_zero]

theorem frameOf_or (hphys : pageSize ∣ phys) (hlt : phys < 2 ^ 52)
    (hflags : flags &&& pageFrameMask = 0) : frameOf (phys ||| flags) = phys / pageSize := by
  unfold frameOf
  rw [or_and_pageFrameMask hphys hlt hflags]

theorem tableOf_eq_some {next : ℕ} : tableOf entry = some next ↔
    entry.testBit 0 = true ∧ entry.testBit 7 = false ∧ frameOf entry = next := by
  unfold tableOf
  split
  · rename_i h
    simp only [Bool.and_eq_true, Bool.not_eq_true'] at h
    simp [h]
  · rename_i h
    simp only [Bool.and_eq_true, Bool.not_eq_true', not_and, Bool.not_eq_false] at h
    constructor
    · intro hnone
      cases hnone
    · rintro ⟨hpres, hhuge, -⟩
      rw [h hpres] at hhuge
      cases hhuge

theorem tableOf_of_absent (h : entry.testBit 0 = false) : tableOf entry = none := by
  simp [tableOf, h]

theorem tableOf_of_huge (h : entry.testBit 7 = true) : tableOf entry = none := by
  simp [tableOf, h]

@[simp] theorem tableOf_zero : tableOf 0 = none := by simp [tableOf]

@[simp] theorem hugeLeaf_zero : hugeLeaf 0 = none := by simp [hugeLeaf]

@[simp] theorem pageLeaf_zero : pageLeaf 0 = none := by simp [pageLeaf]

theorem hugeLeaf_of_tableOf {next : ℕ} (h : tableOf entry = some next) : hugeLeaf entry = none := by
  obtain ⟨-, hhuge, -⟩ := tableOf_eq_some.mp h
  simp [hugeLeaf, hhuge]

theorem hugeLeaf_of_absent (h : entry.testBit 0 = false) : hugeLeaf entry = none := by
  simp [hugeLeaf, h]

theorem hugeLeaf_of_huge (hpres : entry.testBit 0 = true) (hhuge : entry.testBit 7 = true) :
    hugeLeaf entry = some entry := by
  rw [hugeLeaf, hpres, hhuge]
  rfl

theorem pageLeaf_of_present (h : entry.testBit 0 = true) : pageLeaf entry = some entry := if_pos h

theorem pageLeaf_of_absent (h : entry.testBit 0 = false) : pageLeaf entry = none := by
  rw [pageLeaf, h]
  rfl

theorem frameOf_or_pageUser (entry : ℕ) : frameOf (entry ||| pageUser) = frameOf entry := by
  have hmask : pageUser &&& pageFrameMask = 0 := by decide
  unfold frameOf
  rw [Nat.and_or_distrib_right, hmask, Nat.or_zero]

theorem testBit_or_pageUser (entry bit : ℕ) :
    (entry ||| pageUser).testBit bit = (entry.testBit bit || decide (bit = 2)) := by
  have huser : pageUser = 2 ^ 2 := by decide
  rw [Nat.testBit_or, huser, Nat.testBit_two_pow]
  congr 1
  exact decide_eq_decide.mpr eq_comm

theorem tableOf_or_pageUser (entry : ℕ) : tableOf (entry ||| pageUser) = tableOf entry := by
  unfold tableOf
  rw [frameOf_or_pageUser, testBit_or_pageUser, testBit_or_pageUser]
  simp

end

variable {virt virt' : ℕ}

theorem isCanonical_iff (hvirt : virt < 2 ^ 64) :
    isCanonical virt = true ↔ virt < 2 ^ 47 ∨ 2 ^ 64 - 2 ^ 47 ≤ virt := by
  have hbmod : ∀ x : ℤ, Int.bmod x (2 ^ 64) =
      if x % 18446744073709551616 < 9223372036854775808 then x % 18446744073709551616
      else x % 18446744073709551616 - 18446744073709551616 := fun _ => rfl
  unfold isCanonical
  rw [beq_iff_eq, hbmod, hbmod]
  split <;> split <;> omega

theorem kernelPdIndexStart_le_iff (hvirt : virt < 2 ^ 64) (hcanon : isCanonical virt = true) :
    kernelPdIndexStart ≤ pml4Index virt ↔ ¬virt < 2 ^ 47 := by
  have hhalf := (isCanonical_iff hvirt).mp hcanon
  unfold kernelPdIndexStart pml4Index tableIndex entriesPerTable
  omega

theorem tableIndex_lt (shift virt : ℕ) : tableIndex shift virt < entriesPerTable :=
  Nat.mod_lt _ (by decide)

theorem sameRegion_iff (hvirt : virt < 2 ^ 64) (hcanon : isCanonical virt = true)
    (hvirt' : virt' < 2 ^ 64) (hcanon' : isCanonical virt' = true) :
    pml4Index virt' = pml4Index virt ∧ pdpIndex virt' = pdpIndex virt ∧
      pdIndex virt' = pdIndex virt ↔ virt' / hugePageSize = virt / hugePageSize := by
  have hhalf := (isCanonical_iff hvirt).mp hcanon
  have hhalf' := (isCanonical_iff hvirt').mp hcanon'
  unfold pml4Index pdpIndex pdIndex tableIndex entriesPerTable hugePageSize
  omega

theorem samePage_iff (hvirt : virt < 2 ^ 64) (hcanon : isCanonical virt = true)
    (hvirt' : virt' < 2 ^ 64) (hcanon' : isCanonical virt' = true) :
    (pml4Index virt' = pml4Index virt ∧ pdpIndex virt' = pdpIndex virt ∧
      pdIndex virt' = pdIndex virt) ∧ ptIndex virt' = ptIndex virt ↔
      virt' / pageSize = virt / pageSize := by
  rw [sameRegion_iff hvirt hcanon hvirt' hcanon']
  unfold ptIndex tableIndex entriesPerTable hugePageSize pageSize
  omega

end Taavi.X64
