import Taavi.Kernel.Tasks
import Taavi.Ledger.Steps

/-!
# The ledger protocol

The functions of `ledger_core.c` that also wake tasks. Whether `kmalloc` succeeds is supplied by the
caller. A function that adds a request returns `true` for `STATUS_OK`.
-/

namespace Taavi

open Lib

def maxFdEntries : ℕ := 256

def wakeClerk (k : Kernel) (clerkPid : ℕ) : Kernel :=
  let k := if clerkPid ≠ Clerk.reaper.pid ∧ clerkPid ≠ Clerk.doc.pid then
    k.modifyTask clerkPid fun t => { t with priority := .high } else k
  schedulerWakeTask k clerkPid

@[simp] theorem ledger_wakeClerk (k : Kernel) (clerkPid : ℕ) :
    (wakeClerk k clerkPid).ledger = k.ledger := by
  unfold wakeClerk
  split <;> simp

def queueReq (k : Kernel) (r : Request) : Kernel × Bool :=
  match ledgerGetQueue r.clerkPid with
  | none => (schedulerWakeTask k r.callerPid, false)
  | some c =>
    match firstSlot c.maxEntries fun i => (k.ledger.slot c i).isNone with
    | some i => (wakeClerk { k with ledger := k.ledger.put c i r } r.clerkPid, true)
    | none => (schedulerWakeTask k r.callerPid, false)

theorem queueReq_cases (k : Kernel) (r : Request) :
    (∃ c i, ledgerGetQueue r.clerkPid = some c ∧ i < c.maxEntries ∧ k.ledger.slot c i = none ∧
        queueReq k r = (wakeClerk { k with ledger := k.ledger.put c i r } r.clerkPid, true)) ∨
      queueReq k r = (schedulerWakeTask k r.callerPid, false) := by
  unfold queueReq
  cases hqueue : ledgerGetQueue r.clerkPid with
  | none => exact .inr rfl
  | some c =>
    simp only
    cases hslot : firstSlot c.maxEntries fun i => (k.ledger.slot c i).isNone with
    | none => exact .inr rfl
    | some i =>
      obtain ⟨hi, hempty, -⟩ := firstSlot_eq_some.mp hslot
      exact .inl ⟨c, i, rfl, hi, by simpa using hempty, rfl⟩

def ledgerQueueFreeReq (k : Kernel) (callerPid clerkPid targetPid : ℕ) (okReq : Bool) :
    Kernel × Bool :=
  if maxTasks ≤ callerPid ∨ maxTasks ≤ targetPid then (k, false)
  else if okReq then
    queueReq k { Request.zero with
      callerPid := callerPid % 2 ^ 16
      targetPid := targetPid % 2 ^ 16
      requestType := .free
      clerkPid := clerkPid % 2 ^ 8 }
  else (k, false)

/-- The request that `ledger_add_fs_req` makes. -/
def newFsRequest (callerPid : ℕ) (type : Operation) (fd : ℕ) (buf : Option (List UInt8))
    (bufferSize flags : ℕ) : Request :=
  { Request.zero with
    callerPid := callerPid % 2 ^ 16
    clerkPid := Clerk.fs.pid
    requestType := type
    flags := flags
    structKey := fd
    bufferSize := bufferSize
    buf := buf.map fun bytes => bytes.take bufferSize ++ [0] }

/-- `ledger_add_fs_req`. The buffer is copied up to its given size. -/
def ledgerAddFsReq (k : Kernel) (callerPid : ℕ) (type : Operation) (fd : ℕ)
    (buf : Option (List UInt8)) (bufferSize flags : ℕ) (okReq okBuf : Bool) : Kernel × Bool :=
  if Clerk.fs.maxEntries ≤ ledgerCountAllClerkReqs k.ledger .fs then
    (schedulerWakeTask k callerPid, false)
  else if (fd < 2 ∨ maxFdEntries < fd) ∧ (type = .read ∨ type = .write) then
    (schedulerWakeTask k callerPid, false)
  else if okReq = false then (schedulerWakeTask k callerPid, false)
  else if buf.isSome ∧ okBuf = false then (schedulerWakeTask k callerPid, false)
  else
    queueReq k (newFsRequest callerPid type fd buf bufferSize flags)

structure GuiParams where
  buf : Option (List UInt8)
  pixels : Option (List UInt32)
  bufferSize : ℕ
  width : ℕ
  height : ℕ
  x : ℕ
  y : ℕ
  fgColor : ℕ
  bgColor : ℕ
  scale : ℕ
  structKey : ℕ
  opcode : Operation
  deriving DecidableEq

/-- The request that `ledger_add_gui_req` makes. -/
def guiRequest (params : GuiParams) (callerPid : ℕ) : Request :=
  { Request.zero with
    callerPid := callerPid % 2 ^ 16
    structKey := params.structKey
    clerkPid := Clerk.gui.pid
    targetPid := callerPid % 2 ^ 16
    requestType := params.opcode
    width := params.width % 2 ^ 16
    height := params.height % 2 ^ 16
    x := params.x % 2 ^ 16
    y := params.y % 2 ^ 16
    scale := params.scale % 2 ^ 8
    fgColor := params.fgColor
    bgColor := params.bgColor
    pixels := params.pixels.map fun px => px.take (params.width * params.height % 2 ^ 30)
    bufferSize := if params.buf.isSome then params.bufferSize else 0
    buf := params.buf.map fun bytes => bytes.take params.bufferSize ++ [0] }

def ledgerAddGuiReq (k : Kernel) (callerPid : ℕ) (params : GuiParams)
    (okReq okPixels okBuf : Bool) : Kernel × Bool :=
  if Clerk.gui.maxEntries ≤ ledgerCountAllClerkReqs k.ledger .gui then
    (schedulerWakeTask k callerPid, false)
  else if okReq = false then (schedulerWakeTask k callerPid, false)
  else if params.pixels.isSome ∧ okPixels = false then (schedulerWakeTask k callerPid, false)
  else if params.buf.isSome ∧ okBuf = false then (schedulerWakeTask k callerPid, false)
  else
    queueReq k (guiRequest params callerPid)

def ledgerAddDocReq (k : Kernel) (callerPid opcode : ℕ) (okReq : Bool) : Kernel × Bool :=
  if okReq = false then (schedulerWakeTask k callerPid, false)
  else
    queueReq k { Request.zero with
      callerPid := callerPid % 2 ^ 16
      clerkPid := Clerk.doc.pid
      requestType := Operation.ofCode (opcode % 2 ^ 8) }

def ledgerCheckRequest (k : Kernel) (clerkPid : ℕ) : Kernel :=
  match ledgerGetQueue clerkPid with
  | none => k
  | some c =>
    match k.ledger.last c with
    | none => k
    | some i =>
      match k.ledger.slot c i with
      | none => k
      | some r =>
        schedulerWakeTask { k with ledger := k.ledger.setStatus c i .terminated } r.callerPid

/-- The end of a clerk's work: the reply and the status are written. The wake comes after it. -/
def settleRequest (k : Kernel) (c : Clerk) (i : ℕ) (reply : Reply) : Kernel :=
  { k with ledger := k.ledger.modify c i fun r => r.settle reply }

/-- The request was accepted into an empty slot, or the tables were left alone. -/
inductive AddResult (l : Ledger) (k : Kernel) : Bool → Prop
  | accepted {c : Clerk} {i : ℕ} {r : Request} : i < c.maxEntries →
      l.slot c i = none → r.status = .pending → k.ledger = l.put c i r → AddResult l k true
  | declined : k.ledger = l → AddResult l k false

theorem queueReq_result (k : Kernel) {r : Request} (hpend : r.status = .pending) :
    AddResult k.ledger (queueReq k r).1 (queueReq k r).2 := by
  rcases queueReq_cases k r with ⟨c, i, -, hi, hempty, heq⟩ | heq
  · rw [heq]
    exact .accepted hi hempty hpend (by simp)
  · rw [heq]
    exact .declined (by simp)

theorem ledgerAddFsReq_result (k : Kernel) (callerPid : ℕ) (type : Operation) (fd : ℕ)
    (buf : Option (List UInt8)) (bufferSize flags : ℕ) (okReq okBuf : Bool) :
    AddResult k.ledger
      (ledgerAddFsReq k callerPid type fd buf bufferSize flags okReq okBuf).1
      (ledgerAddFsReq k callerPid type fd buf bufferSize flags okReq okBuf).2 := by
  unfold ledgerAddFsReq
  split_ifs
  case neg => exact queueReq_result k rfl
  all_goals exact .declined (by simp)

theorem ledgerAddGuiReq_result (k : Kernel) (callerPid : ℕ) (params : GuiParams)
    (okReq okPixels okBuf : Bool) :
    AddResult k.ledger (ledgerAddGuiReq k callerPid params okReq okPixels okBuf).1
      (ledgerAddGuiReq k callerPid params okReq okPixels okBuf).2 := by
  unfold ledgerAddGuiReq
  iterate 4
    split
    · exact .declined (by simp)
  apply queueReq_result
  rfl

theorem ledgerAddDocReq_result (k : Kernel) (callerPid opcode : ℕ) (okReq : Bool) :
    AddResult k.ledger (ledgerAddDocReq k callerPid opcode okReq).1
      (ledgerAddDocReq k callerPid opcode okReq).2 := by
  unfold ledgerAddDocReq
  split_ifs
  · exact .declined (by simp)
  · exact queueReq_result k rfl

theorem ledgerQueueFreeReq_result (k : Kernel) (callerPid clerkPid targetPid : ℕ) (okReq : Bool) :
    AddResult k.ledger (ledgerQueueFreeReq k callerPid clerkPid targetPid okReq).1
      (ledgerQueueFreeReq k callerPid clerkPid targetPid okReq).2 := by
  unfold ledgerQueueFreeReq
  split_ifs
  · exact .declined rfl
  · exact queueReq_result k rfl
  · exact .declined rfl

end Taavi
