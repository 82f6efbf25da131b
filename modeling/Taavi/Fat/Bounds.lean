import Taavi.Fat.System

/-!
# The sectors that are written

With enough free clusters only the tables and the clusters of a volume are written. On a full volume
`__fat32_alloc_cluster` takes an entry behind the last one, and the first sector of the disk is
written.
-/

namespace Taavi.Fat

open Lib

variable {m : Mount} {g : Geometry} {s : State}

/-- For every sequence of operations on existing directories and files with enough free clusters,
the sectors written belong to the tables or clusters of the volume. -/
theorem writes_stay_inside (hm : Ready m) {start : State} {ops : List Op}
    (hstart : Consistent m.toGeometry (volume m.toGeometry start)) (hwritten : start.written = [])
    (hrun : Run (FittingStep m) start ops s) :
    (∀ x ∈ s.written, Inside m.toGeometry x ∧ x ≠ 0) ∧
      (0 < room m.toGeometry (volume m.toGeometry s) →
        Ends (allocCluster m) s fun r _ => r = invalidCluster ∨ InRange m.toGeometry r) := by
  have hkeep : ∀ s op t,
      (Consistent m (volume m s) ∧ ∀ x ∈ s.written, Inside m x) →
      FittingStep m s op t →
      Consistent m (volume m t) ∧ ∀ x ∈ t.written, Inside m x := by
    rintro s op t ⟨hv, hinside⟩ ⟨hop, hstep⟩
    obtain ⟨hp, hwrites⟩ := hstep.kept hm hv hop
    refine ⟨hp.consistent, fun x hx => ?_⟩
    rcases hwrites x hx with hold | hnew
    · exact hinside x hold
    · exact hnew
  have hinitial : ∀ x ∈ start.written, Inside m x := by simp [hwritten]
  have hinside := (Run.invariant hkeep hrun ⟨hstart, hinitial⟩).2
  refine ⟨fun x hx => ⟨hinside x hx, ?_⟩, fun hroom => ?_⟩
  · have hfat := hm.sane.start
    rcases hinside x hx with htable | ⟨c, hc, hsector⟩
    · omega
    · have hpos := hm.sane.sectorOf_pos (c := c)
      omega
  · obtain ⟨f, hfree⟩ := exists_nextFree hroom
    refine (allocCluster_spec hm hfree).imp ?_
    rintro r t (⟨rfl, -⟩ | ⟨rfl, -⟩)
    · exact .inr ((Effect.refl m s).inRange_of_nextFree hfree)
    · exact .inl rfl

/-- The sectors that are written when a file is created in an empty root directory. -/
theorem created_file_stays_inside : ∃ t, Run (FittingStep (smallMount 4)) emptyStart
    [.createDirent 2 [65] 0x20] t ∧ ∀ x ∈ t.written, Inside (smallGeometry 4) x ∧ x ≠ 0 := by
  obtain ⟨t, hrun⟩ := exists_createdFile
  exact ⟨t, hrun, (writes_stay_inside (ready_smallMount (by decide))
    (consistent_emptyStart (by decide) (by decide)) rfl hrun).1⟩

def smallBootSector : Memory :=
  let empty : Memory := fun _ => 0
  ((((((empty.write 11 2 512).write 13 1 1).write 14 2 1).write 16 1 2).write 32 4 4).write 36 4
    1).write 44 4 2

/-- With no cluster but the root directory, the creation of a file writes the first sector. -/
theorem full_volume_overwrites_boot_sector :
    fat32Init 0 smallBootSector = some (smallGeometry 1) ∧ Ready (smallMount 1) ∧
      Consistent (smallGeometry 1) (volume (smallGeometry 1) emptyStart) ∧
      ∃ t, Step (smallMount 1) emptyStart (.createDirent 2 [65] 0x20) t ∧ 0 ∈ t.written := by
  have hevaluated : ((Op.createDirent 2 [65] 0x20).run (smallMount 1) 0 emptyStart).any
      (fun r => decide (0 ∈ r.2.written)) = true := by decide +kernel
  obtain ⟨⟨out, t⟩, hrun, hwritten⟩ := Option.any_eq_true _ _ |>.mp hevaluated
  exact ⟨by decide +kernel, ready_smallMount (by decide),
    consistent_emptyStart (by decide) (by decide), t, ⟨0, out, hrun⟩, of_decide_eq_true hwritten⟩

variable (bpb : Memory)

def frontSectors : ℕ := bpb.read 14 2 + bpb.read 16 1 * bpb.read 36 4

/-- The number of clusters that fit behind them. -/
def fittingClusters : ℕ := (bpb.read 32 4 - frontSectors bpb) / bpb.read 13 1

/-- A geometry with which the clusters of a boot sector can be addressed. -/
structure Usable (g : Geometry) : Prop where
  bytes : g.bytesPerSector = sectorSize
  sectors : 0 < g.sectorsPerCluster
  clusters : g.maximumClusterSize = 2 + fittingClusters bpb
  table : g.maximumClusterSize ≤ entriesPerSector * g.sectorsPerFat
  root : InRange g g.rootCluster

/-- The boot sector describes a volume: whole sectors and clusters, numbers that fit, a table with
an entry for each cluster, and a root directory. -/
def DescribesVolume : Prop :=
  bpb.read 11 2 = sectorSize ∧ 0 < bpb.read 13 1 ∧ frontSectors bpb ≤ bpb.read 32 4 ∧
    2 + fittingClusters bpb < 2 ^ 32 ∧
    2 + fittingClusters bpb ≤ entriesPerSector * bpb.read 36 4 ∧
    2 ≤ bpb.read 44 4 ∧ bpb.read 44 4 < 2 + fittingClusters bpb

/-- `fat32_init` after the boot sector was read, which may have failed. -/
def fat32InitRead (partitionLba : ℕ) (buf : Memory) (sector : Option Memory) : Option Geometry :=
  fat32Init partitionLba (sector.getD buf)

variable {bpb}

theorem dataSectors_eq (hfit : frontSectors bpb ≤ bpb.read 32 4) :
    u32 (bpb.read 32 4 + (2 ^ 32 - bpb.read 14 2) +
      (2 ^ 32 - u32 (bpb.read 16 1 * bpb.read 36 4))) = bpb.read 32 4 - frontSectors bpb := by
  have htotal : bpb.read 32 4 < 2 ^ 32 := Memory.read_lt ..
  unfold frontSectors at hfit ⊢
  unfold u32
  omega

theorem usable_of_describesVolume (lba : ℕ) (h : DescribesVolume bpb) :
    ∃ g, fat32Init lba bpb = some g ∧ Usable bpb g := by
  obtain ⟨hbytes, hsectors, hfit, hlast, htable, hroot⟩ := h
  have hclusters : u32 ((bpb.read 32 4 - frontSectors bpb) / bpb.read 13 1 + 2) =
      2 + fittingClusters bpb := by
    rw [add_comm]
    exact Nat.mod_eq_of_lt hlast
  unfold fat32Init
  dsimp only
  rw [if_neg hsectors.ne', dataSectors_eq hfit, hclusters]
  exact ⟨_, rfl, hbytes, hsectors, rfl, htable, hroot⟩

theorem describesVolume_of_usable {lba : ℕ} {g : Geometry} (hinit : fat32Init lba bpb = some g)
    (h : Usable bpb g) : DescribesVolume bpb := by
  unfold fat32Init at hinit
  dsimp only at hinit
  split_ifs at hinit with hzero
  cases hinit
  obtain ⟨hbytes, hsectors, hclusters, htable, hroot⟩ := h
  dsimp only at hbytes hsectors hclusters htable
  have hlast : 2 + fittingClusters bpb < 2 ^ 32 := by
    rw [← hclusters]
    exact Nat.mod_lt _ (by decide)
  rw [hclusters] at htable
  rw [InRange, hclusters] at hroot
  dsimp only at hroot
  refine ⟨hbytes, hsectors, ?_, hlast, htable, hroot⟩
  -- on a volume that is too short there is no cluster for the root directory
  by_contra hshort
  have hnone : fittingClusters bpb = 0 := by
    rw [fittingClusters, Nat.sub_eq_zero_of_le (by omega), Nat.zero_div]
  omega

/-- For all bytes of the boot sector, read or not: `fat32_init` sets a usable geometry exactly if
they describe a volume. It refuses no bytes. -/
theorem init_is_usable_iff (partitionLba : ℕ) (buf : Memory) (sector : Option Memory) :
    (∃ g, fat32InitRead partitionLba buf sector = some g ∧ Usable (sector.getD buf) g) ↔
      DescribesVolume (sector.getD buf) :=
  ⟨fun ⟨_, hinit, h⟩ => describesVolume_of_usable hinit h, usable_of_describesVolume partitionLba⟩

/-- A boot sector of zeros is not refused: `fat32_init` divides by zero. -/
theorem empty_boot_sector_divides_by_zero :
    ¬∃ g, fat32InitRead 0 (fun _ => 0) (some fun _ => 0) = some g ∧ Usable (fun _ => 0) g := by
  have hzero : fat32InitRead 0 (fun _ => 0) (some fun _ => 0) = none := by decide +kernel
  rintro ⟨g, hinit, -⟩
  cases hzero.symm.trans hinit

end Taavi.Fat
