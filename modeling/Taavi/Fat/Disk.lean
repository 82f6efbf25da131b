import Taavi.Lib.ByteMemory
import Taavi.Lib.Program
import Taavi.Lib.Scan

/-!
# The FAT32 volume on its disk

What the functions of `kernel/fs/fat32` work on: sectors, the allocation hint and blocks of the
heap. Accesses and allocations may fail, by call number. A program gives no result when it does not
return or frees a block that is not live. Numbers have 32 bits.
-/

namespace Taavi.Fat

open Lib

def sectorSize : ℕ := 512

def fatEntrySize : ℕ := 4

def entriesPerSector : ℕ := sectorSize / fatEntrySize

def direntSize : ℕ := 32

def clusterFree : ℕ := 0

def clusterEoc : ℕ := 0x0FFFFFFF

def clusterEocMin : ℕ := 0x0FFFFFF8

def clusterMask : ℕ := 0x0FFFFFFF

def invalidCluster : ℕ := 0

def invalidLba : ℕ := 0

/-- A 32-bit unsigned integer. -/
def u32 (n : ℕ) : ℕ := n % 2 ^ 32

/-- The fields of `fat32_fs_t` that do not change after `fat32_init`. -/
structure Geometry where
  fatStart : ℕ
  dataStart : ℕ
  rootCluster : ℕ
  sectorsPerCluster : ℕ
  bytesPerSector : ℕ
  fatCount : ℕ
  sectorsPerFat : ℕ
  maximumClusterSize : ℕ
  deriving DecidableEq, Repr

/-- A mounted volume: its geometry, and which accesses and allocations fail. -/
structure Mount extends Geometry where
  diskFails : ℕ → Bool
  heapFails : ℕ → Bool

/-- A mount stands for its geometry. -/
instance : Coe Mount Geometry := ⟨Mount.toGeometry⟩

structure State where
  disk : ℕ → Memory
  lastAllocatedCluster : ℕ
  accesses : ℕ
  mallocs : ℕ
  live : List ℕ
  /-- The sectors that were passed to `ata_write_sector`, the last one first. -/
  written : List ℕ

/-- A function of the file system. -/
abbrev Action (α : Type) := Program State α

section

variable (m : Mount)

/-- `ata_read_sector`, which gives the bytes of the sector, or nothing for `STATUS_ERROR`. -/
def ataReadSector (lba : ℕ) : Action (Option Memory) := fun s =>
  some (if m.diskFails s.accesses then none else some (s.disk lba),
    { s with accesses := s.accesses + 1 })

/-- `ata_write_sector`. `true` is `STATUS_OK`. -/
def ataWriteSector (lba : ℕ) (data : Memory) : Action Bool := fun s =>
  let t := { s with accesses := s.accesses + 1, written := lba :: s.written }
  if m.diskFails s.accesses then some (false, t)
  else some (true, { t with disk := assign s.disk lba data })

/-- `kmalloc`, which gives a block, or nothing for `NULL`. -/
def kmalloc : Action (Option ℕ) := fun s =>
  let t := { s with mallocs := s.mallocs + 1 }
  if m.heapFails s.mallocs then some (none, t)
  else some (some s.mallocs, { t with live := s.mallocs :: s.live })

def kfree (block : ℕ) : Action Unit := fun s =>
  if block ∈ s.live then some ((), { s with live := s.live.erase block }) else none

def allocateBuffer : Action (Option ℕ) := kmalloc m

end

section

variable (g : Geometry)

def clusterSize : ℕ := g.sectorsPerCluster * sectorSize

def calculateLba (cluster : ℕ) : ℕ :=
  if g.maximumClusterSize ≤ cluster then invalidLba
  else u32 (g.fatStart + u32 (cluster * fatEntrySize) / g.bytesPerSector)

def clusterToSector (cluster : ℕ) : ℕ :=
  if cluster < 2 then invalidCluster
  else u32 (g.dataStart + (cluster - 2) * g.sectorsPerCluster)

def calculateOffset (cluster : ℕ) : ℕ :=
  if g.maximumClusterSize ≤ cluster then invalidCluster
  else u32 (cluster * fatEntrySize) % g.bytesPerSector

def calculateMaxDirEntries : ℕ := g.sectorsPerCluster * sectorSize / direntSize

end

section

variable (m : Mount)

/-- The loop of `__fat32_read_cluster` over the sectors of a cluster. -/
def readSectors (sector : ℕ) : ℕ → ℕ → Memory → Action (Option Memory)
  | 0, _, buf => pure (some buf)
  | left + 1, i, buf => do
    match ← ataReadSector m (u32 (sector + i)) with
    | none => pure none
    | some data => readSectors sector left (i + 1) (buf.splice (i * sectorSize) data sectorSize)

/-- `__fat32_read_cluster`, which gives the filled buffer, or nothing for `STATUS_ERROR`. -/
def readCluster (cluster : ℕ) : Action (Option Memory) :=
  let sectorNumber := clusterToSector m.toGeometry cluster
  if sectorNumber = invalidCluster then pure none
  else readSectors m sectorNumber m.sectorsPerCluster 0 fun _ => 0

/-- The loop of `__fat32_write_cluster` over the sectors of a cluster. -/
def writeSectors (sector : ℕ) (buf : Memory) : ℕ → ℕ → Action Bool
  | 0, _ => pure true
  | left + 1, i => do
    if ← ataWriteSector m (u32 (sector + i)) (buf.drop (i * sectorSize)) then
      writeSectors sector buf left (i + 1)
    else pure false

def writeCluster (cluster : ℕ) (buf : Memory) : Action Bool :=
  let sectorNumber := clusterToSector m.toGeometry cluster
  if sectorNumber = invalidCluster then pure false
  else writeSectors m sectorNumber buf m.sectorsPerCluster 0

end

variable (m : Mount)

def nextCluster (cluster : ℕ) : Action ℕ := do
  match ← allocateBuffer m with
  | none => pure invalidCluster
  | some block =>
    let lba := calculateLba m.toGeometry cluster
    let fatOffset := calculateOffset m.toGeometry cluster
    match ← ataReadSector m lba with
    | none => do
      kfree block
      pure invalidCluster
    | some buf => do
      kfree block
      pure (buf.read (fatOffset / 4 * 4) 4 &&& clusterMask)

/-- The entry `j` of a sector of the table is free. The first two are reserved. -/
def isFreeEntry (buf : Memory) (i j : ℕ) : Bool :=
  !(decide (i = 0) && decide (j < 2)) && (buf.read (j * 4) 4 &&& clusterMask) == clusterFree

/-- The loop of `__fat32_alloc_cluster` over the sectors of the table. -/
def allocSectors (block start proposed : ℕ) : ℕ → ℕ → Action ℕ
  | 0, _ => do
    kfree block
    pure invalidCluster
  | left + 1, i => do
    match ← ataReadSector m (u32 (m.fatStart + i)) with
    | none => do
      kfree block
      pure invalidCluster
    | some buf =>
      let realEntryIndex := if i = start then proposed else 0
      match firstFrom realEntryIndex entriesPerSector (isFreeEntry buf i) with
      | none => allocSectors block start proposed left (i + 1)
      | some j =>
        let clusterIndex := u32 (i * entriesPerSector + j)
        let marked := buf.write (j * 4) 4 clusterEoc
        if ← ataWriteSector m (u32 (m.fatStart + i)) marked then
          if ← ataWriteSector m (u32 (m.fatStart + m.sectorsPerFat + i)) marked then do
            modify fun s => { s with lastAllocatedCluster := clusterIndex }
            kfree block
            pure clusterIndex
          else do
            kfree block
            pure invalidCluster
        else do
          kfree block
          pure invalidCluster

def allocCluster : Action ℕ := do
  match ← allocateBuffer m with
  | none => pure invalidCluster
  | some block =>
    let hint := (← get).lastAllocatedCluster
    let start := hint / entriesPerSector
    allocSectors m block start (hint % entriesPerSector) (m.sectorsPerFat - start) start

def setCluster (cluster value : ℕ) : Action Bool := do
  match ← allocateBuffer m with
  | none => pure false
  | some block =>
    let lba := calculateLba m.toGeometry cluster
    let fatOffset := calculateOffset m.toGeometry cluster
    match ← ataReadSector m lba with
    | none => do
      kfree block
      pure false
    | some buf =>
      let changed := buf.write (fatOffset / 4 * 4) 4 value
      if ← ataWriteSector m lba changed then
        let ok ← ataWriteSector m (u32 (lba + m.sectorsPerFat)) changed
        kfree block
        pure ok
      else do
        kfree block
        pure false

/-- `__fat32_unalloc_cluster`. `true` is `STATUS_OK`. -/
def unallocCluster (cluster : ℕ) : Action Bool := setCluster m cluster clusterFree

def linkClusterChain (cluster : ℕ) : Action ℕ := do
  let next ← nextCluster m cluster
  if clusterEocMin ≤ next then
    let next ← allocCluster m
    if next = invalidCluster then pure invalidCluster
    else if ← setCluster m cluster next then
      if ← setCluster m next clusterEoc then pure next
      else pure invalidCluster
    else pure invalidCluster
  else pure next

end Taavi.Fat
