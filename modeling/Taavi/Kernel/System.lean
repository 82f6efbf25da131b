import Taavi.Kernel.Programs

/-!
# The running system

The kernel with the thread on the processor, the saved frames and the events. System calls run with
interrupts off. The work of a clerk on a request is one step up to its status, and the wake of the
caller is another. `aims`, `produced` and `delivered` are not in the source.
-/

namespace Taavi

open Lib

/-- What a task does in the kernel: its round trip, then its wake, its request and its code. -/
structure Thread where
  /-- The round trip under way, and what it does next. -/
  trip : Option (RoundTrip × Phase)
  /-- The slot and the ticket of the request that the clerk handles. -/
  handling : Option (ℕ × ℕ)
  /-- The slot and the ticket of the request whose caller the clerk has still to wake. -/
  waking : Option (ℕ × ℕ)
  code : List Stmt
  /-- The ticket of the request that the round trip has added. -/
  own : Option ℕ
  deriving DecidableEq

def Thread.entry (pid : ℕ) : Thread :=
  { trip := none, handling := none, waking := none, code := entryCode pid, own := none }

/-- Whether a thread does nothing in the kernel. -/
def Thread.outside (th : Thread) : Bool :=
  th.trip = none ∧ th.handling = none ∧ th.code = []

/-- The state of the running system. -/
structure Sys where
  kernel : Kernel
  cpu : Thread
  /-- The frames saved by `scheduler_switch`, without those whose stack has been used again. -/
  frame : ℕ → Option Thread
  /-- The serial number of the task at which a request is aimed, by its ticket. -/
  aims : ℕ → ℕ
  /-- The request as its clerk has left it, by its ticket. -/
  produced : ℕ → Option Request
  delivered : List ℕ

namespace Sys

/-- The system when the first user task starts. -/
def boot : Sys :=
  { kernel := kernelMain
    cpu := { trip := none, handling := none, waking := none, code := [], own := none }
    frame := fun _ => none
    aims := fun _ => 0
    produced := fun _ => none
    delivered := [] }

/-- The thread of the task in a slot, if it has one. -/
def threadOf (s : Sys) (pid : ℕ) : Option Thread :=
  if pid = s.kernel.currentPid then some s.cpu
  else if (s.kernel.taskTable pid).any Task.started then s.frame pid
  else none

/-- Clerks run with interrupts on, user tasks only outside the kernel. -/
def interruptible (s : Sys) : Bool :=
  (schedulerGetCurrentTask s.kernel).any fun t => t.taskMode = .kernelTask ∨ s.cpu.outside

/-- `scheduler_switch`, with the threads. There is no step to a missing frame. -/
def switch (s : Sys) (dirty : Bool) : Option Sys :=
  match schedulerSwitch s.kernel dirty with
  | none => none
  | some (next, k) =>
    let frame := assign s.frame s.kernel.currentPid
      (if savesFrame s.kernel then some s.cpu else none)
    let resumed := if (s.kernel.taskTable next).any Task.started then frame next
      else some (.entry next)
    resumed.map fun th => { s with kernel := k, cpu := th, frame := frame }

end Sys

def RoundTrip.block (trip : RoundTrip) (k : Kernel) : Kernel :=
  if trip.viaSetter then schedulerSetTaskState k .blocked else k.setState k.currentPid .blocked

def AddCall.aim : AddCall → ℕ
  | free _ _ aim => aim
  | _ => 0

namespace Sys

/-- A round trip adds its request. An error that is checked ends it. -/
def addStep (s : Sys) (trip : RoundTrip) (next : Phase) (o : Outside) : Sys :=
  let res := trip.call.run s.kernel s.kernel.currentPid o
  { s with
    kernel := res.1
    cpu := { s.cpu with
      trip := if res.2 = false ∧ trip.checked then none else some (trip, next)
      own := if res.2 then some s.kernel.ledger.nextTicket else none }
    aims := if res.2 then assign s.aims s.kernel.ledger.nextTicket trip.call.aim else s.aims }

def blockStep (s : Sys) (trip : RoundTrip) (next : Phase) : Sys :=
  { s with kernel := trip.block s.kernel, cpu := { s.cpu with trip := some (trip, next) } }

def collectStep (s : Sys) (trip : RoundTrip) : Sys :=
  let k := s.kernel
  let c := trip.call.clerk
  { s with
    kernel := { k with ledger := (ledgerCollect k.ledger k.currentPid c.pid trip.out).1 }
    cpu := { s.cpu with trip := none, own := none }
    delivered :=
      (((collectSlot k.ledger k.currentPid c).bind (k.ledger.slot c)).map Request.ticket).toList ++
        s.delivered }

def tripStep (s : Sys) (trip : RoundTrip) (phase : Phase) (o : Outside) : Option Sys :=
  match phase, trip.blockFirst with
  | .enter, true => some (s.blockStep trip .half)
  | .enter, false => some (s.addStep trip .half o)
  | .half, true => some (s.addStep trip .ready o)
  | .half, false => some (s.blockStep trip .ready)
  | .ready, _ => { s with cpu := { s.cpu with trip := some (trip, .waiting) } }.switch o.dirty
  | .waiting, _ => some (s.collectStep trip)

end Sys

def Clerk.handles : Clerk → Operation → Bool
  | fs, type =>
    type ∈ [Operation.openFile, .read, .write, .close, .create, .find, .list, .free, .delete]
  | gui, type => type ∈ [Operation.create, .free, .resize, .move]
  | doc, type => type ∈ [Operation.guiClerk, .fsClerk]
  | reaper, _ => true

/-- What a handler leaves. Unknown operations fail, and the doctor completes the others. -/
def Clerk.reply (c : Clerk) (r : Request) (reply : Reply) : Reply :=
  if c.handles r.requestType = false then ⟨false, r.structKey, r.buf, r.bufferSize⟩
  else if c = .doc then ⟨true, r.structKey, r.buf, r.bufferSize⟩
  else reply

/-- The end of `fs_handle_request`, `gui_handle_request` and `doc_handle_req`, up to the wake. -/
def handleRequest (k : Kernel) (c : Clerk) (i : ℕ) (reply : Reply) : Kernel :=
  match k.ledger.slot c i with
  | none => k
  | some r =>
    let k := if c = .gui ∨ c.handles r.requestType then
      k.modifyTask c.pid fun t => { t with priority := .normal } else k
    settleRequest k c i (c.reply r reply)

def reaperKillTask (k : Kernel) (targetPid : ℕ) (freed : Bool) : Kernel × Bool :=
  if maxTasks ≤ targetPid then (k, false) else schedulerRemoveTask k targetPid freed

/-- A request is settled, or terminated when a task has asked for its own end. -/
def reapedStatus (r : Request) (ok : Bool) : Status :=
  if r.callerPid = r.targetPid then .terminated else if ok then .complete else .failed

/-- The part of `reaper_task_loop` that serves a request, up to the wake. -/
def reapRequest (k : Kernel) (i : ℕ) (r : Request) (freed : Bool) : Kernel :=
  let res := reaperKillTask k r.targetPid freed
  { res.1 with ledger := res.1.ledger.setStatus .reaper i (reapedStatus r res.2) }

/-- `req->caller_pid` of a request that may have been freed. -/
def Ledger.callerOf (l : Ledger) (c : Clerk) (i ticket stale : ℕ) : ℕ :=
  match l.slot c i with
  | none => stale
  | some r => if r.ticket = ticket then r.callerPid else stale

def changeKeyboardFocus (k : Kernel) (targetPid : ℕ) : Kernel :=
  if targetPid < clerkCount then k
  else if (taskGet k targetPid).isNone then k
  else
    let res := keyboardReplaceCurForegroundPid k.keyboard (some targetPid)
    if res.2 then
      schedulerWakeTask (schedulerSetTaskState { k with keyboard := res.1 } .blocked) targetPid
    else k

def blankieActivate (k : Kernel) (pid : ℕ) : Kernel :=
  k.modifyTask pid fun t => { t with started := false, state := .sleeping }

namespace Sys

/-- A clerk ends its work on the request in a slot, and has its caller to wake. -/
def handleStep (s : Sys) (c : Clerk) (i : ℕ) (ticket : ℕ) (o : Outside) : Sys :=
  let k := handleRequest s.kernel c i o.reply
  { s with
    kernel := k
    cpu := { s.cpu with handling := none, waking := some (i, ticket) }
    produced := assign s.produced ticket (k.ledger.slot c i) }

/-- The reaper serves a request. When a task has asked for its own end, the loop starts again. -/
def reapStep (s : Sys) (i : ℕ) (ticket : ℕ) (r : Request) (o : Outside) : Sys :=
  { s with
    kernel := reapRequest s.kernel i r o.freed
    cpu := { s.cpu with
      handling := none
      waking := if r.callerPid = r.targetPid then none else some (i, ticket)
      code := if r.callerPid = r.targetPid then clerkLoop .reaper else s.cpu.code }
    produced := assign s.produced ticket (some { r with
      status := if (reaperKillTask s.kernel r.targetPid o.freed).2 then .complete else .failed }) }

/-- A clerk wakes the caller of the request that it has settled. -/
def wakeStep (s : Sys) (c : Clerk) (i : ℕ) (ticket : ℕ) (o : Outside) : Sys :=
  { s with
    kernel := schedulerWakeTask s.kernel (s.kernel.ledger.callerOf c i ticket o.stale)
    cpu := { s.cpu with waking := none } }

def fetchStep (s : Sys) (c : Clerk) (rest : List Stmt) : Sys :=
  let res := ledgerFetchNextReq s.kernel.ledger c.pid
  { s with
    kernel := { s.kernel with ledger := res.1 }
    cpu := { s.cpu with
      code := rest
      handling := res.2.bind fun i => (res.1.slot c i).map fun r => (i, r.ticket) } }

/-- The current task changes the kernel by one statement. -/
def become (s : Sys) (k : Kernel) (code : List Stmt) : Sys :=
  { s with kernel := k, cpu := { s.cpu with code := code } }

/-- One statement of code. -/
def stmtStep (s : Sys) (stmt : Stmt) (rest : List Stmt) (o : Outside) : Option Sys :=
  let k := s.kernel
  match stmt with
  | .roundTrip trip => some { s with cpu := { s.cpu with trip := some (trip, .enter), code := rest } }
  | .setBlocked => some (s.become (schedulerSetTaskState k .blocked) rest)
  | .setDead => some (s.become (schedulerSetTaskState k .dead) rest)
  | .yield => (s.become k rest).switch o.dirty
  | .kill targetPid => some (s.become (k.setState targetPid .dead) rest)
  | .releaseFocus =>
    some (s.become { k with keyboard :=
      if k.keyboard.foregroundPid = some k.currentPid then keyboardSetForegroundPid k.keyboard none
      else k.keyboard } rest)
  | .readKeyboard =>
    let res := keyboardReadFromBuffer k.keyboard k.currentPid
    some (s.become { k with keyboard := res.1 }
      (if res.2.isSome then rest else .setBlocked :: .yield :: .readKeyboard :: rest))
  | .exec => some (s.become (if o.loaded then (createUserTask k).getD k else k) rest)
  | .setOperator =>
    some (s.become { k with keyboard := (keyboardSetOperatorPid k.keyboard k.currentPid).1 } rest)
  | .changeFocus targetPid => some (s.become (changeKeyboardFocus k targetPid) rest)
  | .fetch c => some (s.fetchStep c rest)
  | .sweep =>
    some (s.become { k with ledger :=
      if ledgerHasKillableReqs k.ledger then ledgerRemoveRequest k.ledger else k.ledger } rest)
  | .unstart => some (s.become (k.modifyTask k.currentPid fun t => { t with started := false }) rest)
  | .sleep => some (s.become (k.setState k.currentPid .sleeping) rest)

/-- The next step of the current task inside the kernel. -/
def act (s : Sys) (o : Outside) : Option Sys :=
  match s.cpu.trip, s.cpu.waking, s.cpu.handling, s.cpu.code with
  | some (trip, phase), _, _, _ => s.tripStep trip phase o
  | none, some (i, ticket), _, _ =>
    (ledgerGetQueue s.kernel.currentPid).map fun c => s.wakeStep c i ticket o
  | none, none, some (i, ticket), _ =>
    match ledgerGetQueue s.kernel.currentPid with
    | none => none
    | some .reaper => (s.kernel.ledger.slot .reaper i).map fun r => s.reapStep i ticket r o
    | some c => some (s.handleStep c i ticket o)
  | none, none, none, stmt :: rest => s.stmtStep stmt rest o
  | none, none, none, [] => none

/-- The keyboard interrupt. -/
def key (s : Sys) (scancode : ℕ) : Sys :=
  let res := keyboardHandler s.kernel.keyboard scancode
  let k := { s.kernel with keyboard := res.1 }
  { s with kernel := match res.2 with
      | some pid => schedulerWakeTask k pid
      | none => k }

/-- The recovery of a clerk after a fault, up to the yield. What it was doing is given up. -/
def recover (s : Sys) (c : Clerk) : Sys :=
  let k := ledgerCheckRequest (s.kernel.setState c.pid .sleeping) c.pid
  { s with kernel := blankieActivate k c.pid, cpu := .entry c.pid }

/-- `isr_handler` for a fault of a clerk. The reaper does not recover, and other faults stop the
kernel. -/
def fault (s : Sys) (dirty : Bool) : Option Sys :=
  match ledgerGetQueue s.kernel.currentPid with
  | none | some .reaper => none
  | some c => (s.recover c).switch dirty

end Sys

/-- What can happen next. -/
inductive Event where
  | act (o : Outside)
  | syscall (call : Syscall)
  | docCall (call : DocCall)
  | tick (dirty : Bool)
  | key (scancode : ℕ)
  | fault (dirty : Bool)

namespace Sys

/-- Whether the current task can make a system call. -/
def callsFromUser (s : Sys) : Bool :=
  (schedulerGetCurrentTask s.kernel).any fun t => t.taskMode = .userTask ∧ s.cpu.outside

/-- Whether the doctor can make a call now. -/
def docCalls (s : Sys) (call : DocCall) : Bool :=
  s.kernel.currentPid = Clerk.doc.pid ∧ s.cpu.trip = none ∧ s.cpu.handling.any fun work =>
      (s.kernel.ledger.slot .doc work.1).any fun r => r.requestType = call.purpose

/-- One event, where it can happen. -/
def step (s : Sys) : Event → Option Sys
  | .act o => s.act o
  | .syscall call =>
    if s.callsFromUser then some { s with cpu := { s.cpu with code := call.code s.kernel } }
    else none
  | .docCall call =>
    if s.docCalls call then some { s with cpu := { s.cpu with trip := some (call.trip, .enter) } }
    else none
  | .tick dirty => if s.interruptible then s.switch dirty else none
  | .key scancode => if s.interruptible then some (s.key scancode) else none
  | .fault dirty => s.fault dirty

end Sys

end Taavi
