import Taavi.Lib.Scan

/-!
# The keyboard driver

`kernel/drivers/keyboard/keyboard.c` and the layout tables of `keyboard.h`. The handler decides from
the scancode which task is woken.
-/

namespace Taavi

def keyboardBufferSize : ℕ := 256

def scancodeToAscii : List ℕ :=
  [0, 27, 49, 50, 51, 52, 53, 54, 55, 56, 57, 48, 43, 39, 8, 9, 113, 119, 101, 114, 116, 121,
    117, 105, 111, 112, 0, 0, 10, 0, 97, 115, 100, 102, 103, 104, 106, 107, 108, 0, 0, 0, 0, 0,
    122, 120, 99, 118, 98, 110, 109, 44, 46, 45, 0, 0, 0, 32]

def scancodeToAsciiShifted : List ℕ :=
  [0, 27, 33, 34, 35, 36, 37, 38, 47, 40, 41, 61, 63, 96, 8, 9, 81, 87, 69, 82, 84, 89, 85, 73,
    79, 80, 0, 0, 10, 0, 65, 83, 68, 70, 71, 72, 74, 75, 76, 0, 0, 0, 0, 0, 90, 88, 67, 86, 66,
    78, 77, 59, 58, 95, 0, 0, 0, 32]

def scancodeToAsciiCapsLock : List ℕ :=
  [0, 27, 49, 50, 51, 52, 53, 54, 55, 56, 57, 48, 43, 39, 8, 9, 81, 87, 69, 82, 84, 89, 85, 73,
    79, 80, 0, 0, 10, 0, 65, 83, 68, 70, 71, 72, 74, 75, 76, 0, 0, 0, 0, 0, 90, 88, 67, 86, 66,
    78, 77, 44, 46, 45, 0, 0, 0, 32]

/-- The globals of the driver. A missing pid is `-1`. -/
structure Keyboard where
  buf : ℕ → ℕ
  read : ℕ
  write : ℕ
  foregroundPid : Option ℕ
  shiftPressed : Bool
  capsLockPressed : Bool
  ctrlPressed : Bool
  extendedPrefix : Bool
  operatorPid : Option ℕ
  waitingQueue : List ℕ

def keyboardInit : Keyboard :=
  { buf := fun _ => 0, read := 0, write := 0, foregroundPid := none, shiftPressed := false
    capsLockPressed := false, ctrlPressed := false, extendedPrefix := false, operatorPid := none
    waitingQueue := [] }

/-- `keyboard_replace_cur_foreground_pid`, which refuses a pid that is no slot. -/
def keyboardReplaceCurForegroundPid (kbd : Keyboard) (newPid : Option ℕ) : Keyboard × Bool :=
  match newPid with
  | none => (kbd, false)
  | some pid =>
    if 256 ≤ pid then (kbd, false)
    else ({ kbd with read := kbd.write, foregroundPid := some pid }, true)

/-- `keyboard_set_foreground_pid`. Without a pid, it chooses a waiting task or the operator. -/
def keyboardSetForegroundPid (kbd : Keyboard) (pid : Option ℕ) : Keyboard :=
  match pid, kbd.operatorPid, kbd.waitingQueue with
  | some pid, _, _ => (keyboardReplaceCurForegroundPid kbd (some pid)).1
  | none, some operator, _ => (keyboardReplaceCurForegroundPid kbd (some operator)).1
  | none, none, first :: rest =>
    (keyboardReplaceCurForegroundPid { kbd with waitingQueue := rest } (some first)).1
  | none, none, [] => (keyboardReplaceCurForegroundPid kbd none).1

def keyboardAddToWaitingQueue (kbd : Keyboard) (pid : ℕ) : Keyboard :=
  if pid ∈ kbd.waitingQueue then kbd else { kbd with waitingQueue := kbd.waitingQueue ++ [pid] }

def keyboardWriteToBuffer (kbd : Keyboard) (c : ℕ) : Keyboard :=
  if (kbd.write + 2 ^ 32 - kbd.read) % 2 ^ 32 = keyboardBufferSize then kbd
  else
    { kbd with
      buf := Lib.assign kbd.buf (kbd.write % keyboardBufferSize) c
      write := (kbd.write + 1) % 2 ^ 32 }

/-- `keyboard_read_from_buffer`: the character, if one was read. -/
def keyboardReadFromBuffer (kbd : Keyboard) (pid : ℕ) : Keyboard × Option ℕ :=
  let kbd := if kbd.foregroundPid = none then keyboardSetForegroundPid kbd (some pid) else kbd
  if kbd.foregroundPid ≠ some pid then (keyboardAddToWaitingQueue kbd pid, none)
  else if kbd.read = kbd.write then (kbd, none)
  else
    ({ kbd with read := (kbd.read + 1) % 2 ^ 32 }, some (kbd.buf (kbd.read % keyboardBufferSize)))

def keyboardSetOperatorPid (kbd : Keyboard) (pid : ℕ) : Keyboard × Bool :=
  if 256 ≤ pid then (kbd, false)
  else if kbd.operatorPid = none then ({ kbd with operatorPid := some pid }, true)
  else (kbd, false)

def arrowKey (scancode : ℕ) : Option ℕ :=
  if scancode = 0x48 then some 0x11
  else if scancode = 0x50 then some 0x12
  else if scancode = 0x4B then some 0x13
  else if scancode = 0x4D then some 0x14
  else none

def characterOf (kbd : Keyboard) (scancode : ℕ) : ℕ :=
  if kbd.capsLockPressed ∧ kbd.shiftPressed then scancodeToAscii.getD scancode 0
  else if kbd.capsLockPressed then scancodeToAsciiCapsLock.getD scancode 0
  else if kbd.shiftPressed then scancodeToAsciiShifted.getD scancode 0
  else scancodeToAscii.getD scancode 0

/-- `keyboard_handler`: the new driver state, and the pid that is woken. -/
def keyboardHandler (kbd : Keyboard) (scancode : ℕ) : Keyboard × Option ℕ :=
  if scancode = 0x2A ∨ scancode = 0x36 then ({ kbd with shiftPressed := true }, none)
  else if scancode = 0xAA ∨ scancode = 0xB6 then ({ kbd with shiftPressed := false }, none)
  else if scancode = 0xE0 then ({ kbd with extendedPrefix := true }, none)
  else if scancode = 0x1D then ({ kbd with ctrlPressed := true }, none)
  else if scancode = 0x9D then ({ kbd with ctrlPressed := false }, none)
  else if scancode = 0x3A then ({ kbd with capsLockPressed := !kbd.capsLockPressed }, none)
  else if kbd.extendedPrefix then
    match arrowKey scancode with
    | some c =>
      (keyboardWriteToBuffer { kbd with extendedPrefix := false } c, kbd.foregroundPid)
    | none => ({ kbd with extendedPrefix := false }, none)
  else if kbd.ctrlPressed ∧ scancode = 0x18 then
    match kbd.operatorPid with
    | some pid => ((keyboardReplaceCurForegroundPid kbd (some pid)).1, none)
    | none => (kbd, none)
  else if scancode < scancodeToAscii.length ∧ scancode < 0x80 ∧ characterOf kbd scancode ≠ 0 then
    (keyboardWriteToBuffer kbd (characterOf kbd scancode), kbd.foregroundPid)
  else (kbd, none)

end Taavi
