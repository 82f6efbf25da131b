import Taavi.Fat.Files
import Taavi.Kernel.Programs

/-!
# The file system clerk

`fs_clerk_req_handler.c` on the tables of the clerk and its volume. A handler gives nothing when the
file system does not return or it reads through a null pointer. Behind the last entry of a table
lies other memory of the kernel.
-/

namespace Taavi.Fs

open Lib Fat

def freeStartingSlot : ℕ := 3

def oRdwr : ℕ := 4

def oAppend : ℕ := 0x10

/-- `fd_entry_t`, with the block of the heap that holds it. -/
structure FdEntry where
  block : ℕ
  ownerPid : ℕ
  fd : ℕ
  fileCluster : ℕ
  dirCluster : ℕ
  size : ℕ
  currOffset : ℕ
  flags : ℕ
  attr : UInt8
  deriving DecidableEq, Repr

/-- `dir_traversal_t`, with the block of the heap that holds it. -/
structure DirTraversal where
  block : ℕ
  ownerPid : ℕ
  currentCluster : ℕ
  prevCluster : ℕ
  deriving DecidableEq, Repr

/-- The volume and the tables of the clerk. -/
structure State where
  fat : Fat.State
  fdEntryTable : ℕ → Option FdEntry
  dirMap : ℕ → Option DirTraversal

/-- A function of the clerk. -/
abbrev Action (α : Type) := Program State α

/-- What the rest of the kernel decides: what was in a new block of the heap, and the text of
`fat32_list_dir` or `fs_return_vdir_tasks`. -/
structure Given where
  stale : Memory
  listing : Option (List UInt8)

/-- A function of the file system, called by the clerk. -/
def onVolume {α : Type} (p : Fat.Action α) : Action α := fun s =>
  (p s.fat).map fun r => (r.1, { s with fat := r.2 })

/-- A pointer that is read. There is no result if it is null. -/
def deref {α : Type} (x : Option α) : Action α := fun s => x.map fun a => (a, s)

/-- `memcpy` to the buffer of a request. Through a null pointer only nothing can be copied. -/
def store (buf : Option (List UInt8)) (bytes : List UInt8) : Action (Option (List UInt8)) :=
  fun s => if buf = none ∧ bytes ≠ [] then none else some (buf.map fun _ => bytes, s)

def State.setFd (s : State) (i : ℕ) (entry : Option FdEntry) : State :=
  { s with fdEntryTable := assign s.fdEntryTable i entry }

def State.setDir (s : State) (i : ℕ) (entry : Option DirTraversal) : State :=
  { s with dirMap := assign s.dirMap i entry }

def pathOf (req : Request) : Option (List UInt8) := req.buf.map fun bytes => bytes.takeWhile (· != 0)

/-- The reply of a handler that leaves the other fields of a request as they are. -/
def reply (req : Request) (ok : Bool) : Reply := ⟨ok, req.structKey, req.buf, req.bufferSize⟩

def bytesOf (buf : Memory) (n : ℕ) : List UInt8 := (List.range n).map buf

section

variable (m : Mount)

/-- The first loop of `dir_traversal_mapper`, which gives the slot of the owner's last entry. -/
def clearDirections (ownerPid : ℕ) : List ℕ → Option ℕ → Action (Option ℕ)
  | [], slot => pure slot
  | i :: rest, slot => do
    match (← get).dirMap i with
    | none => clearDirections ownerPid rest slot
    | some entry =>
      if entry.ownerPid = ownerPid then do
        onVolume (kfree entry.block)
        modify fun s => s.setDir i none
        clearDirections ownerPid rest (some i)
      else clearDirections ownerPid rest slot

def dirTraversalMapper (ownerPid currentCluster prevCluster : ℕ) : Action Bool := do
  let cleared ← clearDirections ownerPid (List.range maxTasks) none
  let s ← get
  match cleared.or (firstSlot maxTasks fun i => (s.dirMap i).isNone) with
  | none => pure false
  | some slot =>
    match ← onVolume (kmalloc m) with
    | none => pure false
    | some block => do
      let prev := if prevCluster ≤ 2 then m.rootCluster else prevCluster
      modify fun s => s.setDir slot (some ⟨block, ownerPid, currentCluster, prev⟩)
      pure true

def dirGetDirection (s : State) (ownerPid : ℕ) : Option DirTraversal :=
  (firstSlot maxTasks fun i => (s.dirMap i).any fun entry => entry.ownerPid = ownerPid).bind
    s.dirMap

def startingCluster (s : State) (pid : ℕ) : ℕ :=
  match dirGetDirection s pid with
  | none => m.rootCluster
  | some map => map.currentCluster

def fsAllocFd (ownerPid fileCluster dirCluster size flags : ℕ) (fileAttr : UInt8) :
    Action (Option ℕ) := do
  let s ← get
  match firstFrom freeStartingSlot maxFdEntries fun i => (s.fdEntryTable i).isNone with
  | none => pure none
  | some slot =>
    match ← onVolume (kmalloc m) with
    | none => pure none
    | some block => do
      modify fun s => s.setFd slot (some
        { block, ownerPid, fd := slot, fileCluster, dirCluster, size
          currOffset := if flags &&& oAppend ≠ 0 then size else 0
          flags, attr := fileAttr })
      pure (some slot)

end

section

variable (m : Mount) (fuel : ℕ) (req : Request)

def read (given : Given) : Action Reply := do
  match (← get).fdEntryTable req.structKey with
  | none => pure (reply req false)
  | some entry =>
    match ← onVolume (kmalloc m) with
    | none => pure (reply req false)
    | some block =>
      match ← onVolume (readFile m fuel entry.fileCluster entry.size given.stale) with
      | none => do
        onVolume (kfree block)
        pure (reply req false)
      | some buf => do
        let copied ← store req.buf (bytesOf buf entry.size)
        onVolume (kfree block)
        pure ⟨true, req.structKey, copied, entry.size⟩

def openFile : Action Reply := do
  let path ← deref (pathOf req)
  let start := startingCluster m (← get) req.callerPid
  if req.flags = oCreat then
    if ← onVolume (createDirent m start path attrArchive) then
      pure { reply req true with structKey := 0 }
    else pure (reply req false)
  else
    match ← onVolume (findCluster m fuel start path) with
    | none => pure (reply req false)
    | some found =>
      match ← fsAllocFd m req.callerPid found.fileCluster found.dirCluster found.size req.flags
          found.attr with
      | none => pure (reply req false)
      | some fd => pure { reply req true with structKey := fd }

def create : Action Bool := do
  let path ← deref (pathOf req)
  let base := startingCluster m (← get) req.callerPid
  if 8 < req.bufferSize then onVolume (mkdirp m base path)
  else onVolume (createDirent m base path attrDirectory)

/-- The entry after a write of some bytes. -/
def FdEntry.advance (entry : FdEntry) (n : ℕ) : FdEntry :=
  if entry.flags &&& oAppend ≠ 0 then
    { entry with currOffset := u32 (entry.currOffset + n), size := u32 (entry.size + n) }
  else { entry with currOffset := n, size := n }

def write : Action Bool := do
  match (← get).fdEntryTable req.structKey with
  | none => pure false
  | some entry =>
    if entry.flags &&& oRdonly ≠ 0 then pure false
    else do
      let bytes ← deref req.buf
      if ← onVolume (writeFileAtOffset m fuel entry.fileCluster entry.currOffset
          (fun i => bytes.getD i 0) req.bufferSize) then
        let entry := entry.advance req.bufferSize
        modify fun s => s.setFd req.structKey (some entry)
        onVolume (updateDirentSize m fuel entry.dirCluster entry.fileCluster entry.size)
      else pure false

def close : Action Bool := do
  match (← get).fdEntryTable req.structKey with
  | none => pure false
  | some entry => do
    modify fun s => s.setFd req.structKey none
    onVolume (kfree entry.block)
    pure true

def isBackwards (path : List UInt8) : Bool := path = [dot, dot, slash] ∨ path = [dot, dot]

/-- `find`. Its variables `current_cluster` and `prev_cluster` are zero where they are not set. -/
def find : Action Bool := do
  let path ← deref (pathOf req)
  let s ← get
  if isBackwards path then
    match dirGetDirection s req.callerPid with
    | none => dirTraversalMapper m req.callerPid 0 0
    | some map =>
      match ← onVolume (findParentCluster m fuel map.prevCluster) with
      | none => pure false
      | some parent => dirTraversalMapper m req.callerPid map.prevCluster (parent.getD 0)
  else
    match ← onVolume (findCluster m fuel (startingCluster m s req.callerPid) path) with
    | none => pure false
    | some found => dirTraversalMapper m req.callerPid found.fileCluster found.dirCluster

/-- `list` and `fs_return_vdir_tasks`. -/
def list (given : Given) : Action Reply :=
  match given.listing with
  | none => pure (reply req false)
  | some text => pure ⟨true, req.structKey, some text, text.length⟩

/-- The loop of `free` over `fd_entry_table`. -/
def freeFds (targetPid : ℕ) : List ℕ → Action Unit
  | [] => pure ()
  | i :: rest => do
    match (← get).fdEntryTable i with
    | none => freeFds targetPid rest
    | some entry =>
      if entry.ownerPid = targetPid then do
        onVolume (kfree entry.block)
        modify fun s => s.setFd i none
        freeFds targetPid rest
      else freeFds targetPid rest

/-- The loop of `free` over `dir_map`, which stops at the first entry of the task. -/
def freeDirection (targetPid : ℕ) : Action Unit := do
  let s ← get
  match firstSlot maxTasks fun i => (s.dirMap i).any fun entry => entry.ownerPid = targetPid with
  | none => pure ()
  | some i => do
    let entry ← deref (s.dirMap i)
    onVolume (kfree entry.block)
    modify fun s => s.setDir i none

def free : Action Bool := do
  freeFds req.targetPid (List.range maxFdEntries)
  freeDirection req.targetPid
  pure true

def delete : Action Bool := do
  let path ← deref (pathOf req)
  let start := startingCluster m (← get) req.callerPid
  match ← onVolume (findCluster m fuel start path) with
  | none => pure false
  | some found => onVolume (deleteDirent m fuel found.fileCluster found.dirCluster)

/-- `fs_handle_request`, as far as the tables, the volume and the request are concerned. -/
def fsHandleRequest (given : Given) : Action Reply :=
  match req.requestType with
  | .openFile => openFile m fuel req
  | .read => read m fuel req given
  | .write => reply req <$> write m fuel req
  | .close => reply req <$> close req
  | .create => reply req <$> create m req
  | .find => reply req <$> find m fuel req
  | .list => list req given
  | .free => reply req <$> free req
  | .delete => reply req <$> delete m fuel req
  | _ => pure (reply req false)

end

section

variable {α : Type} {s : State}

theorem get_bind (f : State → Action α) : (get >>= f) s = f s s := rfl

theorem ends_onVolume {p : Fat.Action α} {post : α → Fat.State → Prop} (h : Ends p s.fat post) :
    Ends (onVolume p) s fun a t => ∃ fat, t = { s with fat := fat } ∧ post a fat := by
  obtain ⟨a, fat, hrun, ha⟩ := h
  refine ⟨a, { s with fat := fat }, ?_, fat, rfl, ha⟩
  show (p s.fat).map _ = _
  rw [hrun]
  rfl

theorem grows_onVolume {p : ℕ → Fat.Action α} (hp : Grows p) : Grows fun n => onVolume (p n) := by
  intro n m hnm s r hrun
  obtain ⟨⟨a, fat⟩, hfat, hr⟩ := Option.map_eq_some_iff.mp hrun
  show (p m s.fat).map _ = some r
  rw [hp n m hnm s.fat _ hfat]
  exact congrArg some hr

theorem ends_deref {x : Option α} {a : α} (h : x = some a) (s : State) :
    Ends (deref x) s fun b t => a = b ∧ s = t := by
  subst h
  exact ⟨a, s, rfl, rfl, rfl⟩

theorem ends_store {buf : Option (List UInt8)} {bytes : List UInt8}
    (h : buf.isSome = true ∨ bytes = []) (s : State) :
    Ends (store buf bytes) s fun b t => (buf.map fun _ => bytes) = b ∧ s = t := by
  refine ⟨_, s, if_neg ?_, rfl, rfl⟩
  rintro ⟨rfl, hne⟩
  exact h.elim (fun h => Bool.false_ne_true h) hne

end

/-- A request that the clerk serves, with what the rest of the kernel decides. -/
structure Work where
  req : Request
  given : Given

def Serves (m : Mount) (s : State) (work : Work) (r : Reply) (t : State) : Prop :=
  ∃ fuel, fsHandleRequest m fuel work.req work.given s = some (r, t)

def Step (m : Mount) (s : State) (work : Work) (t : State) : Prop := ∃ r, Serves m s work r t

/-- The clerk when it starts, on a volume. Other memory lies behind the table of descriptors. -/
def State.init (fat : Fat.State) (behind : ℕ → Option FdEntry) : State where
  fat := fat
  fdEntryTable i := if i < maxFdEntries then none else behind i
  dirMap _ := none

end Taavi.Fs
