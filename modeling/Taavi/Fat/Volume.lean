import Mathlib.Data.Finset.Card
import Mathlib.Data.Finset.Range
import Taavi.Fat.Disk
import Taavi.Lib.Chain

/-!
# Volumes

What a mounted disk stands for: the cell of each cluster in the first table, its bytes, and the
hint. Every function is described by what it does to the volume.
-/

namespace Taavi.Fat

open Lib Function Finset

/-- The geometry of a FAT32 volume with two tables: sectors of 512 bytes, an entry for each cluster,
marks that are no clusters, and 32-bit addresses. -/
structure Sane (g : Geometry) : Prop where
  bytes : g.bytesPerSector = sectorSize
  fats : g.fatCount = 2
  sectors : 0 < g.sectorsPerCluster
  start : 0 < g.fatStart
  data : g.dataStart = g.fatStart + 2 * g.sectorsPerFat
  table : g.maximumClusterSize ≤ entriesPerSector * g.sectorsPerFat
  marks : g.maximumClusterSize ≤ 0x0FFFFFF7
  disk : g.dataStart + (g.maximumClusterSize - 2) * g.sectorsPerCluster ≤ 2 ^ 32

/-- The number of a cluster of the volume. -/
def InRange (g : Geometry) (c : ℕ) : Prop := 2 ≤ c ∧ c < g.maximumClusterSize

instance (g : Geometry) : DecidablePred (InRange g) := fun _ => instDecidableAnd

/-- The entry of a cluster in the first table, without its upper four bits. -/
def fatEntry (g : Geometry) (s : State) (c : ℕ) : ℕ :=
  (s.disk (g.fatStart + c / entriesPerSector)).read (c % entriesPerSector * 4) 4 &&& clusterMask

def cellOf (g : Geometry) (e : ℕ) : Cell ℕ :=
  if e = clusterFree then .free
  else if clusterEocMin ≤ e then .last
  else if InRange g e then .next e
  else .broken

def sectorOf (g : Geometry) (c : ℕ) : ℕ := g.dataStart + (c - 2) * g.sectorsPerCluster

/-- What a mounted disk stands for. -/
@[ext] structure Volume where
  /-- The cell of each cluster. Numbers that are not of clusters have broken cells. -/
  cells : ℕ → Cell ℕ
  data : ℕ → Memory
  hint : ℕ

def volume (g : Geometry) (s : State) : Volume where
  cells c := if InRange g c then cellOf g (fatEntry g s c) else .broken
  data c x :=
    if InRange g c ∧ x < clusterSize g then s.disk (sectorOf g c + x / sectorSize) (x % sectorSize)
    else 0
  hint := s.lastAllocatedCluster

/-- A buffer as a cluster holds it. -/
def clip (g : Geometry) (buf : Memory) : Memory := fun x => if x < clusterSize g then buf x else 0

def Volume.setCell (v : Volume) (c : ℕ) (cell : Cell ℕ) : Volume :=
  { v with cells := update v.cells c cell }

def Volume.setData (v : Volume) (c : ℕ) (buf : Memory) : Volume :=
  { v with data := update v.data c buf }

def Volume.take (v : Volume) (c : ℕ) : Volume :=
  { v with cells := update v.cells c .last, hint := c }

/-- The volume after the allocation of a cluster that is linked to another one. -/
def Volume.append (v : Volume) (c f : ℕ) : Volume := (v.take f).setCell c (.next f)

/-- The first free cluster at or after the hint. -/
def nextFree (g : Geometry) (v : Volume) : Option ℕ :=
  firstFrom v.hint g.maximumClusterSize fun c => v.cells c = .free

/-- The number of free clusters at or after the hint. -/
def room (g : Geometry) (v : Volume) : ℕ :=
  ((Finset.range g.maximumClusterSize).filter fun c => v.hint ≤ c ∧ v.cells c = .free).card

/-- The sector is in one of the two tables or belongs to a cluster. -/
def Inside (g : Geometry) (sector : ℕ) : Prop :=
  (g.fatStart ≤ sector ∧ sector < g.fatStart + 2 * g.sectorsPerFat) ∨
    ∃ c, InRange g c ∧ sectorOf g c ≤ sector ∧ sector < sectorOf g c + g.sectorsPerCluster

section

variable (v : Volume) (c : ℕ) (cell : Cell ℕ) (buf : Memory)

@[simp] theorem Volume.setCell_cells :
    (v.setCell c cell).cells = update v.cells c cell := rfl

@[simp] theorem Volume.setData_cells : (v.setData c buf).cells = v.cells := rfl

@[simp] theorem Volume.setData_data : (v.setData c buf).data = update v.data c buf := rfl

@[simp] theorem Volume.take_cells : (v.take c).cells = update v.cells c .last := rfl

@[simp] theorem Volume.take_data : (v.take c).data = v.data := rfl

@[simp] theorem Volume.take_hint : (v.take c).hint = c := rfl

end

section

variable {g : Geometry} {v v' : Volume} {c : ℕ}

theorem nextFree_eq_some : nextFree g v = some c ↔
    v.hint ≤ c ∧ c < g.maximumClusterSize ∧ v.cells c = .free ∧
      ∀ d, v.hint ≤ d → d < c → v.cells d ≠ .free := by
  simp only [nextFree, firstFrom_eq_some, decide_eq_true_eq, decide_eq_false_iff_not, ne_eq]

theorem free_of_nextFree (h : nextFree g v = some c) : v.cells c = .free :=
  (nextFree_eq_some.mp h).2.2.1

theorem exists_nextFree (h : 0 < room g v) : ∃ c, nextFree g v = some c := by
  cases hnext : nextFree g v with
  | some c => exact ⟨c, rfl⟩
  | none =>
    obtain ⟨c, hc⟩ := card_pos.mp h
    obtain ⟨hrange, hhint, hfree⟩ := mem_filter.mp hc
    have hnot := firstFrom_eq_none.mp hnext c hhint (mem_range.mp hrange)
    simp [hfree] at hnot

theorem room_take (h : nextFree g v = some c) : room g (v.take c) + 1 = room g v := by
  obtain ⟨hhint, hlt, hfree, hfst⟩ := nextFree_eq_some.mp h
  have hmem : c ∈ (Finset.range g.maximumClusterSize).filter
      fun d => v.hint ≤ d ∧ v.cells d = .free :=
    mem_filter.mpr ⟨mem_range.mpr hlt, hhint, hfree⟩
  have herase : ((Finset.range g.maximumClusterSize).filter
      fun d => (v.take c).hint ≤ d ∧ (v.take c).cells d = .free) =
        ((Finset.range g.maximumClusterSize).filter
          fun d => v.hint ≤ d ∧ v.cells d = .free).erase c := by
    ext d
    simp only [mem_filter, mem_erase]
    simp only [Volume.take_cells, Volume.take_hint]
    by_cases hdc : d = c
    · simp [hdc]
    · rw [update_of_ne hdc]
      constructor
      · rintro ⟨hrange, hle, hd⟩
        exact ⟨hdc, hrange, hhint.trans hle, hd⟩
      · rintro ⟨-, hrange, hle, hd⟩
        exact ⟨hrange, Nat.le_of_not_lt fun hlt => hfst d hle hlt hd, hd⟩
  rw [room, herase, card_erase_add_one hmem, room]

theorem room_congr (hhint : v'.hint = v.hint)
    (hfree : ∀ c, v'.cells c = .free ↔ v.cells c = .free) : room g v' = room g v := by
  simp only [room, hhint, hfree]

end

variable {g : Geometry} {c c' : ℕ}

theorem sectorOf_disjoint (hc : InRange g c) (hc' : InRange g c') (hne : c ≠ c') :
    sectorOf g c + g.sectorsPerCluster ≤ sectorOf g c' ∨
      sectorOf g c' + g.sectorsPerCluster ≤ sectorOf g c := by
  have hstep : ∀ a b, 2 ≤ a → a < b → sectorOf g a + g.sectorsPerCluster ≤ sectorOf g b := by
    intro a b ha hab
    have hmul : (a - 2 + 1) * g.sectorsPerCluster ≤ (b - 2) * g.sectorsPerCluster :=
      Nat.mul_le_mul_right _ (by omega)
    rw [Nat.succ_mul] at hmul
    unfold sectorOf
    omega
  rcases Nat.lt_or_gt_of_ne hne with hlt | hgt
  · exact .inl (hstep c c' hc.1 hlt)
  · exact .inr (hstep c' c hc'.1 hgt)

theorem InRange.ne_invalid (hc : InRange g c) : c ≠ invalidCluster := fun h =>
  absurd hc.1 (by rw [h]; decide)

variable (hg : Sane g)
include hg

theorem Sane.lt_eocMin (hc : InRange g c) : ¬clusterEocMin ≤ c := by
  have hhigh := hc.2
  have hmarks := hg.marks
  unfold clusterEocMin
  omega

theorem Sane.lt_of_inRange (hc : InRange g c) : c < 2 ^ 28 :=
  hc.2.trans_le (hg.marks.trans (by decide))

theorem Sane.clusterSize_pos : 0 < clusterSize g := Nat.mul_pos hg.sectors (by decide)

theorem Sane.sectorOf_add_le (hc : InRange g c) : sectorOf g c + g.sectorsPerCluster ≤ 2 ^ 32 := by
  have hmul : (c - 2 + 1) * g.sectorsPerCluster ≤
      (g.maximumClusterSize - 2) * g.sectorsPerCluster :=
    Nat.mul_le_mul_right _ (by have := hc.1; have := hc.2; omega)
  have hdisk := hg.disk
  rw [Nat.succ_mul] at hmul
  unfold sectorOf
  omega

theorem Sane.clusterToSector_eq (hc : InRange g c) : clusterToSector g c = sectorOf g c := by
  have hend := hg.sectorOf_add_le hc
  have hpos := hg.sectors
  have hlow : ¬ c < 2 := Nat.not_lt.mpr hc.1
  rw [clusterToSector, if_neg hlow, u32, sectorOf, Nat.mod_eq_of_lt]
  unfold sectorOf at hend
  omega

theorem Sane.sectorOf_pos : 0 < sectorOf g c := by
  have hstart := hg.start
  have hdata := hg.data
  unfold sectorOf
  omega

theorem Sane.entry_lt (hc : c < g.maximumClusterSize) : c / entriesPerSector < g.sectorsPerFat := by
  have htable := hg.table
  exact Nat.div_lt_of_lt_mul (by omega)

theorem Sane.fat_le : g.fatStart + 2 * g.sectorsPerFat ≤ 2 ^ 32 := by
  have hdata := hg.data
  have hdisk := hg.disk
  omega

theorem Sane.dataStart_le (hc : InRange g c) : g.dataStart ≤ 2 ^ 32 := by
  have hend := hg.sectorOf_add_le hc
  unfold sectorOf at hend
  omega

theorem Sane.u32_entry (hc : c < g.maximumClusterSize) : u32 (c * fatEntrySize) = c * 4 := by
  have hmarks := hg.marks
  exact Nat.mod_eq_of_lt (by rw [fatEntrySize]; omega)

theorem Sane.calculateLba_eq (hc : InRange g c) :
    calculateLba g c = g.fatStart + c / entriesPerSector := by
  have hentry := hg.entry_lt hc.2
  have hend := hg.dataStart_le hc
  have hdata := hg.data
  have hhigh : ¬ g.maximumClusterSize ≤ c := Nat.not_le.mpr hc.2
  have hdiv : c * 4 / g.bytesPerSector = c / entriesPerSector := by
    rw [hg.bytes, sectorSize, entriesPerSector]
    show c * 4 / 512 = c / 128
    omega
  rw [calculateLba, if_neg hhigh, hg.u32_entry hc.2, hdiv, u32, Nat.mod_eq_of_lt]
  omega

theorem Sane.calculateOffset_eq (hc : InRange g c) :
    calculateOffset g c / 4 * 4 = c % entriesPerSector * 4 := by
  have hhigh : ¬ g.maximumClusterSize ≤ c := Nat.not_le.mpr hc.2
  rw [calculateOffset, if_neg hhigh, hg.u32_entry hc.2, hg.bytes]
  show c * 4 % 512 / 4 * 4 = c % 128 * 4
  omega

end Taavi.Fat
