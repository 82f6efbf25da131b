import Taavi.Lib.Scan

/-!
# The request tables of the clerks

The data of `ledger_core.c` and its functions for the tables alone. Requests carry a ticket that the
source does not have, which identifies a request as long as it exists.
-/

namespace Taavi

open Lib

inductive Status where
  | pending
  | inProgress
  | complete
  | terminated
  | failed
  deriving DecidableEq, Repr

/-- `operations_t`; the field of a request is a byte, so other values can occur. -/
inductive Operation where
  | write
  | writeAt
  | read
  | update
  | delete
  | free
  | openFile
  | close
  | create
  | find
  | list
  | paintWindow
  | move
  | draw
  | setOperator
  | chActW
  | scrollDown
  | resize
  | test
  | guiClerk
  | fsClerk
  | unknown (code : ℕ)
  deriving DecidableEq, Repr

def Operation.ofCode (code : ℕ) : Operation :=
  ([.write, .writeAt, .read, .update, .delete, .free, .openFile, .close, .create, .find, .list,
    .paintWindow, .move, .draw, .setOperator, .chActW, .scrollDown, .resize, .test, .guiClerk,
    .fsClerk] : List Operation).getD code (.unknown code)

/-- `STATUS_OK`, as the register value a system call returns. -/
def statusOk : ℕ := 0

/-- `STATUS_ERROR`, as the register value a system call returns. -/
def statusError : ℕ := 2 ^ 32 - 1

def clerkCount : ℕ := 5

inductive Clerk where
  | fs
  | reaper
  | gui
  | doc
  deriving DecidableEq, Repr

/-- The pid of a clerk: `fs_task_pid`, `reaper_task_pid`, `gui_task_pid`, `doc_clerk_pid`. -/
def Clerk.pid : Clerk → ℕ
  | fs => 1
  | reaper => 2
  | gui => 3
  | doc => 4

def Clerk.maxEntries : Clerk → ℕ
  | fs => 50
  | reaper => 20
  | gui => 500
  | doc => 5

/-- `request_table`. A missing buffer is a null pointer. -/
structure Request where
  buf : Option (List UInt8)
  pixels : Option (List UInt32)
  structKey : ℕ
  fgColor : ℕ
  bgColor : ℕ
  bufferSize : ℕ
  flags : ℕ
  callerPid : ℕ
  targetPid : ℕ
  width : ℕ
  height : ℕ
  x : ℕ
  y : ℕ
  status : Status
  requestType : Operation
  clerkPid : ℕ
  scale : ℕ
  ticket : ℕ
  deriving DecidableEq

/-- A request whose memory has been cleared. -/
def Request.zero : Request :=
  { buf := none, pixels := none, structKey := 0, fgColor := 0, bgColor := 0, bufferSize := 0,
    flags := 0, callerPid := 0, targetPid := 0, width := 0, height := 0, x := 0, y := 0,
    status := .pending, requestType := .write, clerkPid := 0, scale := 0, ticket := 0 }

/-- Whether a request is waiting or being handled. -/
def Request.unfinished (r : Request) : Bool := r.status = .pending ∨ r.status = .inProgress

/-- `clerk_queue`. The last index is missing while it is `-1`. -/
structure Queue where
  table : ℕ → Option Request
  lastIdx : Option ℕ

/-- The queues of all clerks, and the next ticket. -/
structure Ledger where
  queue : Clerk → Queue
  nextTicket : ℕ

namespace Ledger

def slot (l : Ledger) (c : Clerk) (i : ℕ) : Option Request := (l.queue c).table i

def last (l : Ledger) (c : Clerk) : Option ℕ := (l.queue c).lastIdx

def setSlot (l : Ledger) (c : Clerk) (i : ℕ) (v : Option Request) : Ledger :=
  { l with queue := fun d =>
      if d = c then { l.queue c with table := assign (l.queue c).table i v } else l.queue d }

def setLast (l : Ledger) (c : Clerk) (i : ℕ) : Ledger :=
  { l with queue := fun d => if d = c then { l.queue c with lastIdx := some i } else l.queue d }

/-- Change the request in a slot, if there is one. -/
def modify (l : Ledger) (c : Clerk) (i : ℕ) (f : Request → Request) : Ledger :=
  l.setSlot c i ((l.slot c i).map f)

def setStatus (l : Ledger) (c : Clerk) (i : ℕ) (status : Status) : Ledger :=
  l.modify c i fun r => { r with status := status }

def put (l : Ledger) (c : Clerk) (i : ℕ) (r : Request) : Ledger :=
  { l.setSlot c i (some { r with ticket := l.nextTicket }) with nextTicket := l.nextTicket + 1 }

/-- Whether a slot holds a request with a given status. -/
def hasStatus (l : Ledger) (c : Clerk) (status : Status) (i : ℕ) : Bool :=
  (l.slot c i).any fun r => r.status = status

def init : Ledger := { queue := fun _ => { table := fun _ => none, lastIdx := none }, nextTicket := 0 }

variable (l : Ledger) (c d : Clerk) (i j : ℕ)

theorem slot_setSlot (v : Option Request) :
    (l.setSlot c i v).slot d j = if d = c ∧ j = i then v else l.slot d j := by
  unfold setSlot slot
  by_cases hd : d = c
  · subst hd
    simp [assign]
  · simp [hd]

@[simp] theorem last_setSlot (v : Option Request) : (l.setSlot c i v).last d = l.last d := by
  unfold setSlot last
  by_cases hd : d = c
  · subst hd
    simp
  · simp [hd]

@[simp] theorem slot_setLast : (l.setLast c i).slot d j = l.slot d j := by
  unfold setLast slot
  by_cases hd : d = c
  · subst hd
    simp
  · simp [hd]

theorem last_setLast : (l.setLast c i).last d = if d = c then some i else l.last d := by
  unfold setLast last
  by_cases hd : d = c
  · subst hd
    simp
  · simp [hd]

theorem slot_modify (f : Request → Request) :
    (l.modify c i f).slot d j = if d = c ∧ j = i then (l.slot c i).map f else l.slot d j :=
  slot_setSlot l c d i j _

@[simp] theorem last_modify (f : Request → Request) : (l.modify c i f).last d = l.last d :=
  last_setSlot l c d i _

theorem slot_setStatus (status : Status) :
    (l.setStatus c i status).slot d j =
      if d = c ∧ j = i then (l.slot c i).map fun r => { r with status := status }
      else l.slot d j :=
  slot_modify l c d i j _

@[simp] theorem last_setStatus (status : Status) : (l.setStatus c i status).last d = l.last d :=
  last_modify l c d i _

theorem slot_put (r : Request) :
    (l.put c i r).slot d j =
      if d = c ∧ j = i then some { r with ticket := l.nextTicket } else l.slot d j :=
  slot_setSlot l c d i j _

@[simp] theorem last_put (r : Request) : (l.put c i r).last d = l.last d := last_setSlot l c d i _

@[simp] theorem nextTicket_put (r : Request) : (l.put c i r).nextTicket = l.nextTicket + 1 := rfl

theorem hasStatus_iff {status : Status} :
    l.hasStatus c status i = true ↔ ∃ r, l.slot c i = some r ∧ r.status = status := by
  unfold hasStatus
  cases l.slot c i <;> simp

end Ledger

def ledgerGetQueue (clerkPid : ℕ) : Option Clerk :=
  ([.fs, .reaper, .gui, .doc] : List Clerk).find? fun c => c.pid = clerkPid

@[simp] theorem ledgerGetQueue_pid (c : Clerk) : ledgerGetQueue c.pid = some c := by
  cases c <;> rfl

theorem eq_pid_of_ledgerGetQueue {clerkPid : ℕ} {c : Clerk} (h : ledgerGetQueue clerkPid = some c) :
    clerkPid = c.pid := by
  have hfound := List.find?_some h
  simpa using (of_decide_eq_true hfound).symm

def ledgerCountAllClerkReqs (l : Ledger) (c : Clerk) : ℕ :=
  ((List.range c.maxEntries).filter fun i => (l.slot c i).isSome).length

def ledgerCountClerkReqs (l : Ledger) (c : Clerk) : ℕ :=
  ((List.range c.maxEntries).filter fun i => (l.slot c i).any Request.unfinished).length

def ledgerHasKillableReqs (l : Ledger) : Bool :=
  ([.fs, .reaper, .gui, .doc] : List Clerk).any fun c =>
    (firstSlot c.maxEntries (l.hasStatus c .terminated)).isSome

/-- `ledger_remove_request`: free every terminated request. -/
def ledgerRemoveRequest (l : Ledger) : Ledger :=
  { l with queue := fun c =>
      { l.queue c with table := fun i =>
          if i < c.maxEntries ∧ l.hasStatus c .terminated i then none else l.slot c i } }

/-- What a caller gets from `ledger_collect`. -/
structure Result where
  code : ℕ
  out : Option (List UInt8)
  deriving DecidableEq

/-- The value of a finished request, where `out` says whether the caller passes a
buffer. -/
def Request.result (r : Request) (out : Bool) : Result :=
  match r.status with
  | .complete =>
    match r.requestType with
    | .create | .openFile => ⟨r.structKey, none⟩
    | .list | .read =>
      ⟨r.bufferSize, if out then some ((r.buf.getD []).take r.bufferSize ++ [0]) else none⟩
    | _ => ⟨statusOk, none⟩
  | _ => ⟨statusError, none⟩

def Request.collectable (callerPid : ℕ) (r : Request) : Bool :=
  r.callerPid = callerPid ∧ (r.status = .complete ∨ r.status = .failed)

def collectSlot (l : Ledger) (callerPid : ℕ) (c : Clerk) : Option ℕ :=
  firstSlot c.maxEntries fun i => (l.slot c i).any (Request.collectable callerPid)

def ledgerCollect (l : Ledger) (callerPid clerkPid : ℕ) (out : Bool) : Ledger × Result :=
  match ledgerGetQueue clerkPid with
  | none => (l, ⟨statusError, none⟩)
  | some c =>
    match collectSlot l callerPid c with
    | none => (l, ⟨statusError, none⟩)
    | some i =>
      (l.setStatus c i .terminated,
        ((l.slot c i).map fun r => r.result out).getD ⟨statusError, none⟩)

/-- `ledger_fetch_next_req`. The returned request is given by its slot. -/
def ledgerFetchNextReq (l : Ledger) (clerkPid : ℕ) : Ledger × Option ℕ :=
  match ledgerGetQueue clerkPid with
  | none => (l, none)
  | some c =>
    match firstSlot c.maxEntries (l.hasStatus c .inProgress) with
    | some i => (l.setLast c i, some i)
    | none =>
      match firstSlot c.maxEntries (l.hasStatus c .pending) with
      | some i => ((l.setLast c i).setStatus c i .inProgress, some i)
      | none => (l, none)

end Taavi
