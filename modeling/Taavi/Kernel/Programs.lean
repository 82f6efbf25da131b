import Taavi.Kernel.Protocol

/-!
# The code of tasks

What a task does inside the kernel, as a list of statements: `syscall.c`, `sys_window.c`, the loops
of the clerks and the doctor. Calls through the ledger are round trips of four parts, and differ in
their order and tests.
-/

namespace Taavi

open Lib

/-- What the rest of the kernel decides in a step. -/
structure Outside where
  okReq : Bool
  okPixels : Bool
  okBuf : Bool
  freed : Bool
  loaded : Bool
  dirty : Bool
  reply : Reply
  /-- What a clerk reads as `caller_pid` when its request has been freed. -/
  stale : ℕ

/-- Nothing fails: there is memory, and clerks complete their requests. -/
def Outside.smooth : Outside :=
  { okReq := true, okPixels := true, okBuf := true, freed := true, loaded := true, dirty := false
    reply := ⟨true, 3, none, 0⟩, stale := 0 }

/-- A call that adds a request for the current task. One to free a task carries the serial number of
the task that was in the slot, which the source does not have. -/
inductive AddCall where
  | fs (type : Operation) (fd : ℕ) (buf : Option (List UInt8)) (bufferSize flags : ℕ)
  | gui (params : GuiParams)
  | doc (opcode : ℕ)
  | free (clerk : Clerk) (targetPid aim : ℕ)
  deriving DecidableEq

def AddCall.clerk : AddCall → Clerk
  | fs .. => .fs
  | gui .. => .gui
  | doc .. => .doc
  | free clerk .. => clerk

def AddCall.run (k : Kernel) (pid : ℕ) (o : Outside) : AddCall → Kernel × Bool
  | fs type fd buf bufferSize flags =>
    ledgerAddFsReq k pid type fd buf bufferSize flags o.okReq o.okBuf
  | gui params => ledgerAddGuiReq k pid params o.okReq o.okPixels o.okBuf
  | doc opcode => ledgerAddDocReq k pid opcode o.okReq
  | free clerk targetPid _ => ledgerQueueFreeReq k pid clerk.pid targetPid o.okReq

structure RoundTrip where
  call : AddCall
  blockFirst : Bool
  /-- The task blocks by `scheduler_set_task_state` and not by writing its state. -/
  viaSetter : Bool
  checked : Bool
  out : Bool
  deriving DecidableEq

/-- What a round trip does next. -/
inductive Phase where
  | enter
  | half
  | ready
  | waiting
  deriving DecidableEq

/-- The statements of kernel code. -/
inductive Stmt where
  | roundTrip (trip : RoundTrip)
  | setBlocked
  | setDead
  | yield
  | kill (targetPid : ℕ)
  | releaseFocus
  | readKeyboard
  | exec
  | setOperator
  | changeFocus (targetPid : ℕ)
  | fetch (clerk : Clerk)
  | sweep
  | unstart
  | sleep
  deriving DecidableEq

/-- A call of the file system clerk that blocks after it has added the request. -/
def fsTrip (type : Operation) (fd : ℕ) (buf : Option (List UInt8)) (bufferSize flags : ℕ)
    (out : Bool) : RoundTrip :=
  { call := .fs type fd buf bufferSize flags
    blockFirst := false, viaSetter := true, checked := false, out := out }

/-- One part of `signal_clerks_to_release_memory`. -/
def releaseTrip (clerk : Clerk) (targetPid aim : ℕ) : RoundTrip :=
  { call := .free clerk targetPid aim
    blockFirst := true, viaSetter := true, checked := false, out := false }

def signalClerksToReleaseMemory (targetPid aim : ℕ) : List Stmt :=
  [.roundTrip (releaseTrip .fs targetPid aim), .roundTrip (releaseTrip .gui targetPid aim),
    .roundTrip (releaseTrip .reaper targetPid aim)]

def oRdonly : ℕ := 1

def oWronly : ℕ := 2

def oCreat : ℕ := 8

def sysExit (k : Kernel) : List Stmt :=
  match schedulerGetCurrentTask k with
  | none => []
  | some current =>
    if k.currentPid < clerkCount then []
    else if current.state = .dead then []
    else
      .releaseFocus :: signalClerksToReleaseMemory k.currentPid current.serial ++ [.setDead]

def sysRead (fd : ℕ) (buf : Option (List UInt8)) (buffSize : ℕ) : List Stmt :=
  if fd = 0 then [.readKeyboard]
  else [.roundTrip { fsTrip .read fd buf buffSize oRdonly buf.isSome with blockFirst := true }]

def sysWrite (fd : ℕ) (buf : Option (List UInt8)) (len : ℕ) : List Stmt :=
  if fd = 1 ∨ fd = 2 then []
  else [.roundTrip (fsTrip .write fd buf len oWronly false)]

def sysOpen (path : Option (List UInt8)) (len flags : ℕ) : List Stmt :=
  [.roundTrip (fsTrip .openFile 0 path len flags false)]

/-- `sys_close`. The descriptor is the value of a register, read as a signed number. -/
def sysClose (fd : ℕ) : List Stmt :=
  if fd ≤ 2 ∨ maxFdEntries < fd then []
  else [.roundTrip (fsTrip .close fd none 0 0 false)]

def sysUnlink (path : Option (List UInt8)) : List Stmt :=
  match path with
  | none => []
  | some path => [.roundTrip (fsTrip .delete 0 (some path) path.length 0 false)]

def sysChdir (path : Option (List UInt8)) (len : ℕ) : List Stmt :=
  [.roundTrip (fsTrip .find 0 path len 0 false)]

def sysMkdir (path : Option (List UInt8)) (len : ℕ) : List Stmt :=
  [.roundTrip (fsTrip .create 0 path len oCreat false)]

def sysGetdents (buffer : Option (List UInt8)) (len : ℕ) : List Stmt :=
  [.roundTrip (fsTrip .list 0 buffer len oRdonly buffer.isSome)]

def sysKill (k : Kernel) (targetPid : ℕ) : List Stmt :=
  match schedulerGetCurrentTask k, taskGet k targetPid with
  | some _, some target =>
    if targetPid < clerkCount then []
    else
      (if k.currentPid = targetPid then sysExit k else []) ++
        .kill targetPid :: signalClerksToReleaseMemory targetPid target.serial
  | _, _ => []

def sysIoctlTest (opcode : ℕ) : List Stmt :=
  [.roundTrip { call := .doc opcode, blockFirst := false, viaSetter := false, checked := true
                out := false }]

/-- `sys_window`. The operations that draw do not use the ledger. -/
def sysWindow (params : GuiParams) : List Stmt :=
  if params.opcode ∈ [Operation.writeAt, .paintWindow, .draw, .scrollDown] then []
  else
    [.roundTrip { call := .gui params, blockFirst := false, viaSetter := true, checked := true
                  out := params.buf.isSome }]

/-- The system calls that touch tasks, the ledger or the keyboard. -/
inductive Syscall where
  | exit
  | read (fd : ℕ) (buf : Option (List UInt8)) (buffSize : ℕ)
  | write (fd : ℕ) (buf : Option (List UInt8)) (len : ℕ)
  | openFile (path : Option (List UInt8)) (len flags : ℕ)
  | close (fd : ℕ)
  | unlink (path : Option (List UInt8))
  | chdir (path : Option (List UInt8)) (len : ℕ)
  | mkdir (path : Option (List UInt8)) (len : ℕ)
  | getdents (buffer : Option (List UInt8)) (len : ℕ)
  | exec
  | yield
  | kill (targetPid : ℕ)
  | setOperator
  | changeFocus (targetPid : ℕ)
  | test (opcode : ℕ)
  | window (params : GuiParams)

/-- `syscall_dispatch`: the code of a system call. -/
def Syscall.code (k : Kernel) : Syscall → List Stmt
  | exit => sysExit k
  | read fd buf buffSize => sysRead fd buf buffSize
  | write fd buf len => sysWrite fd buf len
  | openFile path len flags => sysOpen path len flags
  | close fd => sysClose fd
  | unlink path => sysUnlink path
  | chdir path len => sysChdir path len
  | mkdir path len => sysMkdir path len
  | getdents buffer len => sysGetdents buffer len
  | exec => [.exec]
  | yield => [.yield]
  | kill targetPid => sysKill k targetPid
  | setOperator => [.setOperator]
  | changeFocus targetPid => [.changeFocus targetPid]
  | test opcode => sysIoctlTest opcode
  | window params => sysWindow params

/-- The loop of a clerk, up to the point where `blankie_activate` gives the processor away. -/
def clerkLoop : Clerk → List Stmt
  | .reaper => [.fetch .reaper, .sweep, .unstart, .sleep, .yield]
  | c => [.fetch c, .unstart, .sleep, .yield]

/-- The code with which the task in a slot starts. User tasks run outside the kernel. -/
def entryCode (pid : ℕ) : List Stmt :=
  match ledgerGetQueue pid with
  | some c => clerkLoop c
  | none => []

/-- The calls the doctor clerk makes while it handles a request. -/
inductive DocCall where
  | makeRequestFetchResults (opcode : Operation) (fd : ℕ) (buf : Option (List UInt8))
      (bufLen flags : ℕ)
  | window (params : GuiParams)
  | deleteWindow

def DocCall.purpose : DocCall → Operation
  | makeRequestFetchResults .. => .fsClerk
  | _ => .guiClerk

def DocCall.trip : DocCall → RoundTrip
  | makeRequestFetchResults opcode fd buf bufLen flags =>
    { fsTrip opcode fd buf bufLen flags buf.isSome with viaSetter := false }
  | window params =>
    { call := .gui params, blockFirst := false, viaSetter := false, checked := true, out := false }
  | deleteWindow =>
    { call := .free .gui Clerk.doc.pid Clerk.doc.pid, blockFirst := true, viaSetter := false
      checked := true, out := false }

end Taavi
