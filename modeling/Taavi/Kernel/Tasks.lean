import Taavi.Config
import Taavi.Ledger.Table
import Taavi.Kernel.Keyboard

/-!
# Tasks and the scheduler

`task.c` and `sched.c` of `kernel/arch/x86/tcb`. The globals form one record. Tasks carry a serial
number that the source does not have, which tells apart the tasks of one slot.
-/

namespace Taavi

open Lib

inductive TaskState where
  | ready
  | running
  | blocked
  | sleeping
  | dead
  deriving DecidableEq, Repr

/-- `task_priority_t`. -/
inductive Priority where
  | high
  | normal
  | low
  deriving DecidableEq, Repr

inductive TaskMode where
  | kernelTask
  | userTask
  deriving DecidableEq, Repr

/-- The fields of `task_t` that scheduling depends on. The field `pid` is the slot of the task. -/
structure Task where
  state : TaskState
  priority : Priority
  taskMode : TaskMode
  started : Bool
  serial : ℕ
  deriving DecidableEq, Repr

def idleTaskPid : ℕ := 0

def highPriorityPickLimit : ℕ := 3

def docAnalyticsRunInterval : ℕ := 7000

/-- The globals of the kernel that the task operations share. -/
structure Kernel where
  taskTable : ℕ → Option Task
  currentPid : ℕ
  highPrioPickCount : ℕ
  docMaintenanceCounter : ℕ
  ledger : Ledger
  keyboard : Keyboard
  nextSerial : ℕ

namespace Kernel

/-- Change the task in a slot, if there is one. -/
def modifyTask (k : Kernel) (pid : ℕ) (f : Task → Task) : Kernel :=
  { k with taskTable := assign k.taskTable pid ((k.taskTable pid).map f) }

def setState (k : Kernel) (pid : ℕ) (state : TaskState) : Kernel :=
  k.modifyTask pid fun t => { t with state := state }

def stateOf (k : Kernel) (pid : ℕ) : Option TaskState := (k.taskTable pid).map Task.state

variable (k : Kernel) (pid q : ℕ) (f : Task → Task) (state : TaskState)

@[simp] theorem ledger_modifyTask : (k.modifyTask pid f).ledger = k.ledger := rfl

theorem taskTable_modifyTask :
    (k.modifyTask pid f).taskTable q = if q = pid then (k.taskTable pid).map f else k.taskTable q :=
  rfl

end Kernel

def taskGet (k : Kernel) (index : ℕ) : Option Task :=
  if index < maxTasks then k.taskTable index else none

def schedulerGetCurrentTask (k : Kernel) : Option Task := k.taskTable k.currentPid

def schedulerWakeTask (k : Kernel) (pid : ℕ) : Kernel :=
  if maxTasks ≤ pid then k else k.setState pid .ready

@[simp] theorem ledger_schedulerWakeTask (k : Kernel) (pid : ℕ) :
    (schedulerWakeTask k pid).ledger = k.ledger := by
  unfold schedulerWakeTask
  split <;> rfl

/-- `scheduler_set_task_state`. A task that is dead can only be put to sleep. -/
def schedulerSetTaskState (k : Kernel) (state : TaskState) : Kernel :=
  match k.stateOf k.currentPid with
  | none => k
  | some old =>
    if old = state then k
    else
      match state with
      | .sleeping => k.setState k.currentPid .sleeping
      | .ready => if old ≠ .dead then k.setState k.currentPid .ready else k
      | .blocked => if old ≠ .dead then k.setState k.currentPid .blocked else k
      | .dead => k.setState k.currentPid .dead
      | .running => k

def schedulerHasRunnableTask (k : Kernel) : Bool :=
  (firstSlot maxTasks fun i => k.stateOf i = some .ready).isSome

def rouseClerk (k : Kernel) (pid : ℕ) (priority : Priority) : Kernel :=
  k.modifyTask pid fun t =>
    if t.taskMode ≠ .userTask ∧ t.state = .sleeping then
      { t with state := .ready, priority := priority }
    else t

/-- `scheduler_check_clerks`, with the result of `task_has_dirty_buffer`. -/
def schedulerCheckClerks (k : Kernel) (dirty : Bool) : Kernel :=
  let k := if 0 < ledgerCountClerkReqs k.ledger .gui ∨ dirty then
    rouseClerk k Clerk.gui.pid .high else k
  let k := if 0 < ledgerCountClerkReqs k.ledger .fs then rouseClerk k Clerk.fs.pid .normal else k
  let k := if 0 < ledgerCountClerkReqs k.ledger .reaper ∨ ledgerHasKillableReqs k.ledger then
    rouseClerk k Clerk.reaper.pid .normal else k
  let k := if schedulerHasRunnableTask k then k else
    k.modifyTask idleTaskPid fun t =>
      if t.taskMode ≠ .userTask then { t with state := .ready, priority := .low } else t
  if docAnalyticsRunInterval < k.docMaintenanceCounter + 1 then
    { rouseClerk k Clerk.doc.pid .low with docMaintenanceCounter := 0 }
  else { k with docMaintenanceCounter := k.docMaintenanceCounter + 1 }

/-- Whether the search of the scheduler accepts a slot. -/
def runnableWith (k : Kernel) (priority : Priority) (pid : ℕ) : Bool :=
  (k.taskTable pid).any fun t =>
    t.priority = priority ∧ (t.state = .ready ∨ t.state = .running)

/-- `__scheduler_search_by_priority`: the slots after the current one, in a circle. -/
def schedulerSearchByPriority (k : Kernel) (priority : Priority) (startingPos : ℕ) : Option ℕ :=
  ((List.range' startingPos (maxTasks + 1 - startingPos)).map
    fun i => (k.currentPid + i) % maxTasks).find? (runnableWith k priority)

def schedulerFindNextTask (k : Kernel) : Kernel × Option ℕ :=
  match (if k.highPrioPickCount < highPriorityPickLimit then schedulerSearchByPriority k .high 1
      else none) with
  | some next => ({ k with highPrioPickCount := k.highPrioPickCount + 1 }, some next)
  | none =>
    match schedulerSearchByPriority k .normal 1 with
    | some next => ({ k with highPrioPickCount := 0 }, some next)
    | none =>
      match schedulerSearchByPriority k .high 0 with
      | some next => ({ k with highPrioPickCount := 1 }, some next)
      | none =>
        match schedulerSearchByPriority k .normal 0 with
        | some next => ({ k with highPrioPickCount := 0 }, some next)
        | none =>
          match schedulerSearchByPriority k .low 1 with
          | some next => ({ k with highPrioPickCount := 0 }, some next)
          | none => (k, none)

/-- Whether `scheduler_switch` saves the interrupt frame of the current task. -/
def savesFrame (k : Kernel) : Bool :=
  (schedulerGetCurrentTask k).any fun t =>
    t.started ∧ t.state ≠ .dead ∧ t.state ≠ .sleeping

/-- The first part of `scheduler_switch`: a running task becomes ready. -/
def preemptCurrent (k : Kernel) : Kernel :=
  if savesFrame k then
    k.modifyTask k.currentPid fun t =>
      if t.state = .running then { t with state := .ready } else t
  else k

/-- The last part of `scheduler_switch`: the chosen task runs. -/
def runNext (k : Kernel) (next : ℕ) : Kernel :=
  { k.modifyTask next fun t =>
      { t with state := if t.state = .ready then .running else t.state, started := true } with
    currentPid := next }

/-- The kernel that `scheduler_switch` chooses the next task in. -/
def beforePick (k : Kernel) (dirty : Bool) : Kernel :=
  schedulerCheckClerks (preemptCurrent k) dirty

/-- `scheduler_switch`: the chosen task, if there is one, and the new kernel. -/
def schedulerSwitch (k : Kernel) (dirty : Bool) : Option (ℕ × Kernel) :=
  match schedulerFindNextTask (beforePick k dirty) with
  | (k', some next) => some (next, runNext k' next)
  | (_, none) => none

/-- `task_create` and `scheduler_add`: a user task in the first empty slot. -/
def createUserTask (k : Kernel) : Option Kernel :=
  (firstSlot maxTasks fun i => (k.taskTable i).isNone).map fun slot =>
    { k with
      taskTable := assign k.taskTable slot (some
        { state := .ready, priority := .normal, taskMode := .userTask, started := false
          serial := k.nextSerial })
      nextSerial := k.nextSerial + 1 }

/-- `task_destroy`, where `freed` says whether pages and kernel stack could be freed. -/
def taskDestroy (k : Kernel) (pid : ℕ) (freed : Bool) : Kernel × Bool :=
  if freed then ({ k with taskTable := assign k.taskTable pid none }, true) else (k, false)

def schedulerRemoveTask (k : Kernel) (targetPid : ℕ) (freed : Bool) : Kernel × Bool :=
  match taskGet k targetPid with
  | none => (k, false)
  | some _ => taskDestroy k targetPid freed

/-- The kernel when `kernel_main` enters the first user task, with the clerks asleep. -/
def kernelMain : Kernel :=
  { taskTable := fun pid =>
      if pid < clerkCount then
        some { state := .sleeping, priority := .low, taskMode := .kernelTask, started := false
               serial := pid }
      else if pid = clerkCount then
        some { state := .ready, priority := .normal, taskMode := .userTask, started := true
               serial := pid }
      else none
    currentPid := clerkCount
    highPrioPickCount := 0
    docMaintenanceCounter := 0
    ledger := .init
    keyboard := keyboardInit
    nextSerial := clerkCount + 1 }

end Taavi
