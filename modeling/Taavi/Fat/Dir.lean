import Taavi.Fat.Disk

/-!
# Directories

Names in 8.3 form, directory entries in a buffer, and `kernel/fs/fat32/fat32dir.c`. A string is the
list of its bytes before the zero.
-/

namespace Taavi.Fat

open Lib

def direntFree : UInt8 := 0x00

def direntDeleted : UInt8 := 0xE5

def longFileName : UInt8 := 0x0F

def attrDirectory : UInt8 := 0x10

def attrArchive : UInt8 := 0x20

def pad83 : UInt8 := 0x20

def dot : UInt8 := 0x2E

def slash : UInt8 := 0x2F

def toUpper (c : UInt8) : UInt8 := if 0x61 ≤ c && c ≤ 0x7A then c - 0x20 else c

/-- Upper case letters, followed by blanks up to a length. -/
def padded (n : ℕ) (chars : List UInt8) : List UInt8 :=
  chars.map toUpper ++ List.replicate (n - chars.length) pad83

def format83 (filename : List UInt8) : List UInt8 :=
  match filename.findIdx? (· == dot) with
  | none => padded 8 (filename.take 8) ++ List.replicate 3 pad83
  | some indexOfDot =>
    padded 8 ((filename.take indexOfDot).take 8) ++
      padded 3 ((filename.drop (indexOfDot + 1)).take 3)

/-- The segment that a path begins with: up to twelve characters before a slash. -/
def firstSegment (path : List UInt8) : List UInt8 := (path.take 12).takeWhile (· != slash)

/-- `__fat32_walk_dir_path`, which gives the formatted segment and the rest of the path. -/
def walkDirPath (path : List UInt8) : Option (List UInt8 × List UInt8) :=
  let p := path.dropWhile (· == slash)
  if p.isEmpty then none
  else
    let segment := firstSegment p
    some (format83 segment, p.drop segment.length)

section

variable (buf : Memory) (i : ℕ)

def entryName : List UInt8 := (List.range 11).map fun k => buf (i * direntSize + k)

def entryAttr : UInt8 := buf (i * direntSize + 11)

def entryCluster : ℕ :=
  buf.read (i * direntSize + 20) 2 * 2 ^ 16 + buf.read (i * direntSize + 26) 2

def entrySize : ℕ := buf.read (i * direntSize + 28) 4

/-- The entry is free or deleted. -/
def isUnused : Bool :=
  buf (i * direntSize) == direntFree || buf (i * direntSize) == direntDeleted

def isDirectoryNamed (name83 : List UInt8) : Bool :=
  !isUnused buf i && entryName buf i == name83 && entryAttr buf i &&& attrDirectory != 0

def newEntry (name83 : List UInt8) (attributes : UInt8) (cluster : ℕ) : Memory :=
  let base : Memory := fun k =>
    if k < 11 then name83.getD k 0 else if k = 11 then attributes else 0
  (base.write 20 2 (cluster / 2 ^ 16)).write 26 2 cluster

def withEntry (name83 : List UInt8) (attributes : UInt8) (cluster : ℕ) : Memory :=
  buf.splice (i * direntSize) (newEntry name83 attributes cluster) direntSize

/-- The buffer with the first byte of an entry set to `FAT32_DIRENT_FREE`. -/
def withFreeEntry : Memory := assign buf (i * direntSize) direntFree

end

variable (m : Mount)

/-- What `__fat32_search_dir` stores in its out parameters. -/
structure Found where
  cluster : ℕ
  size : ℕ
  attr : UInt8
  deriving DecidableEq, Repr

/-- The entry ends a directory, or is in use and has the name. -/
def stopsSearch (buf : Memory) (name83 : List UInt8) (i : ℕ) : Bool :=
  buf (i * direntSize) == direntFree ||
    (buf (i * direntSize) != direntDeleted &&
      entryAttr buf i &&& longFileName != longFileName && entryName buf i == name83)

/-- One pass of `__fat32_search_dir`, for one cluster of the directory. -/
def searchCluster (block : ℕ) (name83 : List UInt8) (cluster : ℕ) : Action (ℕ ⊕ Option Found) := do
  match ← readCluster m cluster with
  | none => do
    kfree block
    pure (.inr none)
  | some buf =>
    match firstSlot (calculateMaxDirEntries m.toGeometry) (stopsSearch buf name83) with
    | some i => do
      kfree block
      if buf (i * direntSize) == direntFree then pure (.inr none)
      else pure (.inr (some ⟨entryCluster buf i, entrySize buf i, entryAttr buf i⟩))
    | none => do
      let next ← nextCluster m cluster
      if clusterEocMin ≤ next then do
        kfree block
        pure (.inr none)
      else pure (.inl next)

def searchDir (fuel startCluster : ℕ) (name83 : List UInt8) : Action (Option Found) := do
  match ← allocateBuffer m with
  | none => pure none
  | some block => iterate (searchCluster m block name83) fuel startCluster

/-- The common part of `fat32_mkdirp` and `fat32_create_dirent`: a cluster for the new entry, the
entry, and the cluster filled with zeros. -/
def addEntry (directory : ℕ) (buf : Memory) (i : ℕ) (name83 : List UInt8) (attributes : UInt8) :
    Action (Option ℕ) := do
  let cluster ← allocCluster m
  if cluster = invalidCluster then pure none
  else if ← setCluster m cluster clusterEoc then
    if ← writeCluster m directory (withEntry buf i name83 attributes cluster) then
      if ← writeCluster m cluster fun _ => 0 then pure (some cluster)
      else pure none
    else pure none
  else pure none

/-- The loop of `fat32_mkdirp`, once for each segment of the path. -/
def mkdirpLoop (block : ℕ) : ℕ → ℕ → List UInt8 → Action Bool
  | 0, _, _ => fun _ => none
  | fuel + 1, directory, path =>
    if path.isEmpty then do
      kfree block
      pure true
    else do
      match ← readCluster m directory with
      | none => do
        kfree block
        pure false
      | some buf =>
        match walkDirPath path with
        | none => do
          kfree block
          pure false
        | some (name83, rest) =>
          let maxEntries := calculateMaxDirEntries m.toGeometry
          match firstSlot maxEntries (isDirectoryNamed buf · name83) with
          | some i => mkdirpLoop block fuel (entryCluster buf i) rest
          | none =>
            match firstSlot maxEntries (isUnused buf) with
            | some i =>
              match ← addEntry m directory buf i name83 attrDirectory with
              | none => do
                kfree block
                pure false
              | some cluster => mkdirpLoop block fuel cluster rest
            | none => do
              let next ← linkClusterChain m directory
              if next = invalidCluster then do
                kfree block
                pure false
              else mkdirpLoop block fuel next rest

/-- `fat32_mkdirp`. Each pass of its loop takes a character of the path at least. -/
def mkdirp (parentCluster : ℕ) (path : List UInt8) : Action Bool := do
  match ← allocateBuffer m with
  | none => pure false
  | some block => mkdirpLoop m block (path.length + 1) parentCluster path

def createDirent (directoryCluster : ℕ) (directoryName : List UInt8) (entryAttributes : UInt8) :
    Action Bool := do
  match ← allocateBuffer m with
  | none => pure false
  | some block =>
    match ← readCluster m directoryCluster with
    | none => do
      kfree block
      pure false
    | some buf =>
      match walkDirPath directoryName with
      | none => do
        kfree block
        pure false
      | some (name83, _) =>
        let maxEntries := calculateMaxDirEntries m.toGeometry
        match firstSlot maxEntries (isDirectoryNamed buf · name83) with
        | some _ => do
          kfree block
          pure true
        | none =>
          match firstSlot maxEntries (isUnused buf) with
          | none => do
            kfree block
            pure false
          | some i => do
            let created ← addEntry m directoryCluster buf i name83 entryAttributes
            kfree block
            pure created.isSome

/-- One pass of `fat32_update_dirent_size`, for one cluster of the directory. -/
def updateCluster (block fileCluster newSize cluster : ℕ) : Action (ℕ ⊕ Bool) := do
  match ← readCluster m cluster with
  | none => do
    kfree block
    pure (.inr false)
  | some buf =>
    match firstSlot (clusterSize m.toGeometry / direntSize)
        (fun i => entryCluster buf i == fileCluster) with
    | some i => do
      let ok ← writeCluster m cluster (buf.write (i * direntSize + 28) 4 newSize)
      kfree block
      pure (.inr ok)
    | none => do
      let next ← nextCluster m cluster
      if clusterEocMin ≤ next then do
        kfree block
        pure (.inr false)
      else pure (.inl next)

def updateDirentSize (fuel startingCluster fileCluster newSize : ℕ) : Action Bool := do
  match ← allocateBuffer m with
  | none => pure false
  | some block =>
    let start := if startingCluster = 0 then m.rootCluster else startingCluster
    iterate (updateCluster m block fileCluster newSize) fuel start

/-- The buffer with every entry set free. -/
def allFree (maxEntries : ℕ) (buf : Memory) : Memory := fun x =>
  if x % direntSize = 0 ∧ x / direntSize < maxEntries then direntFree else buf x

/-- One pass of the loop of `fat32_delete_dirent`, for one cluster of the target. -/
def deleteCluster (block cluster : ℕ) : Action (ℕ ⊕ Bool) := do
  match ← readCluster m cluster with
  | none => do
    kfree block
    pure (.inr false)
  | some buf => do
    if ← writeCluster m cluster (allFree (calculateMaxDirEntries m.toGeometry) buf) then
      let next ← nextCluster m cluster
      if clusterEocMin ≤ next then pure (.inr true)
      else pure (.inl next)
    else do
      kfree block
      pure (.inr false)

def deleteDirent (fuel targetCluster targetParentCluster : ℕ) : Action Bool := do
  match ← allocateBuffer m with
  | none => pure false
  | some block => do
    if ← iterate (deleteCluster m block) fuel targetCluster then
      match ← readCluster m targetParentCluster with
      | none => do
        kfree block
        pure false
      | some buf =>
        match firstSlot (calculateMaxDirEntries m.toGeometry)
            (fun i => entryCluster buf i == targetCluster) with
        | none => do
          kfree block
          pure true
        | some i => do
          let ok ← writeCluster m targetParentCluster (withFreeEntry buf i)
          kfree block
          pure ok
    else pure false

end Taavi.Fat
