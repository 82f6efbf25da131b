import Taavi.Fat.Dir

/-!
# Paths and files

The functions of `kernel/fs/fat32/fat32main.c`, `fat32read.c` and `fat32write.c`.
-/

namespace Taavi.Fat

open Lib

section

variable (m : Mount)

/-- What `fat32_find_cluster` stores in its out parameters. -/
structure Resolved where
  fileCluster : ℕ
  dirCluster : ℕ
  size : ℕ
  attr : UInt8
  deriving DecidableEq, Repr

def skipSlash : List UInt8 → List UInt8
  | [] => []
  | c :: path => if c == slash then path else c :: path

/-- The loop of `fat32_find_cluster`, once for each segment of the path. -/
def findLoop (fuel : ℕ) : ℕ → ℕ → List UInt8 → Action (Option Resolved)
  | 0, _, _ => fun _ => none
  | passes + 1, directory, path =>
    if path.isEmpty then pure none
    else do
      let segment := firstSegment path
      let rest := path.drop segment.length
      match ← searchDir m fuel directory (format83 segment) with
      | none => pure none
      | some found =>
        if rest.isEmpty then
          let dirCluster := if directory = 0 then m.rootCluster else directory
          pure (some ⟨found.cluster, dirCluster, found.size, found.attr⟩)
        else if found.attr &&& attrDirectory == 0 then pure none
        else findLoop fuel passes found.cluster (skipSlash rest)

/-- `fat32_find_cluster`. Each pass of its loop takes a character of the path at least. -/
def findCluster (fuel startingDirCluster : ℕ) (path : List UInt8) : Action (Option Resolved) :=
  findLoop m fuel (path.length + 1) startingDirCluster (skipSlash path)

/-- One pass of `fat32_find_parent_cluster`. The inner result is `out_parent`, if it is set. -/
def parentCluster (orphanCluster cluster : ℕ) : Action (ℕ ⊕ Option (Option ℕ)) := do
  match ← readCluster m cluster with
  | none => pure (.inr none)
  | some buf =>
    if cluster = orphanCluster then pure (.inr (some none))
    else
      match firstSlot (calculateMaxDirEntries m.toGeometry)
          (fun i => entryCluster buf i == orphanCluster) with
      | some _ => pure (.inr (some (some cluster)))
      | none => do
        let next ← nextCluster m cluster
        if clusterEocMin ≤ next then pure (.inr none) else pure (.inl next)

/-- `fat32_find_parent_cluster`. It does not free its buffer. -/
def findParentCluster (fuel orphanCluster : ℕ) : Action (Option (Option ℕ)) := do
  match ← allocateBuffer m with
  | none => pure none
  | some _ => iterate (parentCluster m orphanCluster) fuel m.rootCluster

end

section

variable (m : Mount)

/-- One pass of `fat32_read_file`, with the current cluster, `bytes_read` and the buffer. -/
def readPass (block size : ℕ) : ℕ × ℕ × Memory → Action ((ℕ × ℕ × Memory) ⊕ Option Memory)
  | (cluster, bytesRead, buf) => do
    match ← readCluster m cluster with
    | none => do
      kfree block
      pure (.inr none)
    | some temp =>
      let bytesToCopy := min (clusterSize m.toGeometry) (size - bytesRead)
      let filled := buf.splice bytesRead temp bytesToCopy
      let total := bytesRead + bytesToCopy
      if size ≤ total then do
        kfree block
        pure (.inr (some filled))
      else do
        let next ← nextCluster m cluster
        if clusterEocMin ≤ next then do
          kfree block
          pure (.inr (some filled))
        else pure (.inl (next, total, filled))

/-- `fat32_read_file`, which gives the filled buffer, or nothing for `STATUS_ERROR`. -/
def readFile (fuel startCluster size : ℕ) (buf : Memory) : Action (Option Memory) := do
  match ← allocateBuffer m with
  | none => pure none
  | some block => iterate (readPass m block size) fuel (startCluster, 0, buf)

/-- The walk of `fat32_write_file_at_offset` to the cluster of the offset. -/
def walkClusters : ℕ → ℕ → Action (Option ℕ)
  | 0, cluster => pure (some cluster)
  | left + 1, cluster => do
    let next ← nextCluster m cluster
    if next = invalidCluster ∨ clusterEocMin ≤ next then pure none
    else walkClusters left next

/-- One pass of the loop of `fat32_write_file_at_offset`. -/
def writePass (block : ℕ) (buf : Memory) (size : ℕ) :
    ℕ × ℕ × ℕ → Action ((ℕ × ℕ × ℕ) ⊕ Bool)
  | (cluster, offset, bytesWritten) => do
    match ← readCluster m cluster with
    | none => do
      kfree block
      pure (.inr false)
    | some temp =>
      let bytesToWrite := min (size - bytesWritten) (clusterSize m.toGeometry - offset)
      let staged := temp.splice offset (buf.drop bytesWritten) bytesToWrite
      if ← writeCluster m cluster staged then
        let total := bytesWritten + bytesToWrite
        if size ≤ total then do
          kfree block
          pure (.inr true)
        else do
          let next ← linkClusterChain m cluster
          if next = invalidCluster then pure (.inr false)
          else pure (.inl (next, 0, total))
      else do
        kfree block
        pure (.inr false)

def writeFileAtOffset (fuel firstCluster offset : ℕ) (buf : Memory) (size : ℕ) : Action Bool := do
  match ← walkClusters m (offset / clusterSize m.toGeometry) firstCluster with
  | none => pure false
  | some cluster =>
    match ← allocateBuffer m with
    | none => pure false
    | some block =>
      iterate (writePass m block buf size) fuel (cluster, offset % clusterSize m.toGeometry, 0)

/-- The entry of `prev_cluster` gets a value, if there is such a cluster. -/
def setPrev (prev value : ℕ) : Action Bool :=
  if prev = 0 then pure true else setCluster m prev value

/-- The loop of `fat32_write_file`, with `first_cluster` and `prev_cluster`, or nothing on failure. -/
def writeClusters (buf : Memory) (size : ℕ) : ℕ → ℕ → ℕ → ℕ → Action (Option (ℕ × ℕ))
  | 0, _, first, prev => pure (some (first, prev))
  | left + 1, i, first, prev => do
    let cluster ← allocCluster m
    if cluster = invalidCluster then pure none
    else
      if ← setPrev m prev cluster then
        let start := i * clusterSize m.toGeometry
        let bytesToCopy := min (clusterSize m.toGeometry) (size - start)
        let chunk := Memory.splice (fun _ => 0) 0 (buf.drop start) bytesToCopy
        if ← writeCluster m cluster chunk then
          writeClusters buf size left (i + 1) (if first = 0 then cluster else first) cluster
        else do
          let _ ← unallocCluster m cluster
          pure none
      else pure none

def writeFile (buf : Memory) (size : ℕ) : Action ℕ := do
  let clustersNeeded := u32 (size + (clusterSize m.toGeometry - 1)) / clusterSize m.toGeometry
  match ← allocateBuffer m with
  | none => pure invalidCluster
  | some block =>
    match ← writeClusters m buf size clustersNeeded 0 0 0 with
    | none => do
      kfree block
      pure invalidCluster
    | some (first, prev) => do
      let ended ← setPrev m prev clusterEoc
      kfree block
      pure (if ended then first else invalidCluster)

end

/-- `fat32_init`, from the bytes of the boot sector. It divides by `sectors_per_cluster`. -/
def fat32Init (partitionLba : ℕ) (bpb : Memory) : Option Geometry :=
  let bytesPerSector := bpb.read 11 2
  let sectorsPerCluster := bpb.read 13 1
  let reservedSectors := bpb.read 14 2
  let fatCount := bpb.read 16 1
  let totalSectors := bpb.read 32 4
  let sectorsPerFat := bpb.read 36 4
  let fatStart := u32 (partitionLba + reservedSectors)
  let fatSectors := u32 (fatCount * sectorsPerFat)
  let dataSectors := u32 (totalSectors + (2 ^ 32 - reservedSectors) + (2 ^ 32 - fatSectors))
  if sectorsPerCluster = 0 then none
  else
    some
      { fatStart := fatStart
        dataStart := u32 (fatStart + fatSectors)
        rootCluster := bpb.read 44 4
        sectorsPerCluster := sectorsPerCluster
        bytesPerSector := bytesPerSector
        fatCount := fatCount
        sectorsPerFat := sectorsPerFat
        maximumClusterSize := u32 (dataSectors / sectorsPerCluster + 2) }

end Taavi.Fat
