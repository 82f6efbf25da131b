import Taavi.Kernel.Protocol

/-!
# Windows

`gui_clerk.c` and the functions of `kernel/drivers/fb/fb.c` that it uses. The state logs, other than
the source, the keys that are looked up and the words that are read or written.
-/

namespace Taavi.Gui

open Lib

/-- `fb_t`: what the clerk reads of it. -/
structure Framebuffer where
  pitch : ℕ
  width : ℕ
  height : ℕ

structure Pixels where
  size : ℕ
  word : ℕ → ℕ

/-- `blueprint_t`. A window in the table always has a pixel buffer. -/
structure Blueprint where
  pixels : Pixels
  ownerPid : ℕ
  width : ℕ
  height : ℕ
  screenX : ℕ
  screenY : ℕ
  dirtyFlag : ℕ

/-- A place that is looked up, read or written. -/
inductive Access where
  | table (key : ℕ)
  | pixels (size i : ℕ)
  | screen (i : ℕ)
  deriving DecidableEq, Repr

/-- The place exists. -/
def Access.Inside (fb : Framebuffer) : Access → Prop
  | .table key => key < maxTasks
  | .pixels size i => i < size
  | .screen i => i < fb.pitch / 4 * fb.height

instance (fb : Framebuffer) : DecidablePred (Access.Inside fb)
  | .table key => inferInstanceAs (Decidable (key < maxTasks))
  | .pixels size i => inferInstanceAs (Decidable (i < size))
  | .screen i => inferInstanceAs (Decidable (i < fb.pitch / 4 * fb.height))

/-- The windows and the screen. -/
structure State where
  windows : ℕ → Option Blueprint
  screen : ℕ → ℕ
  log : List Access

/-- The outcome of the calls of `kmalloc` for a request. -/
structure Memory where
  /-- The memory for a `blueprint_t`, with what is in the place of its `dirty_flag`. -/
  entry : Option ℕ
  pixels : Bool

/-- Whether `kmalloc` gives a block for pixels; it gives none of size zero. The block is cleared. -/
def kmallocPixels (size : ℕ) (ok : Bool) : Option Pixels :=
  if size = 0 ∨ ok = false then none else some { size := size / 4, word := fun _ => 0 }

/-- The words that `fb_fill_rect` writes, in their order. -/
def rectIndices (x y rectWidth rectHeight stride : ℕ) : List ℕ :=
  (List.range rectWidth).flatMap fun i => (List.range rectHeight).map fun j =>
    ((y + j) * stride + (x + i)) % 2 ^ 32

/-- `fb_fill_rect`: the words that it writes, unless it returns `STATUS_ERROR`. -/
def fbFillRect (x y rectWidth rectHeight stride bufHeight : ℕ) : Option (List ℕ) :=
  if stride < (x + rectWidth) % 2 ^ 32 ∨ bufHeight < (y + rectHeight) % 2 ^ 32 then none
  else some (rectIndices x y rectWidth rectHeight stride)

def paint (word : ℕ → ℕ) (indices : List ℕ) (color : ℕ) : ℕ → ℕ :=
  indices.foldl (fun word i => assign word i color) word

def copyWords (dst src : ℕ → ℕ) (pairs : List (ℕ × ℕ)) : ℕ → ℕ :=
  pairs.foldl (fun dst p => assign dst p.1 (src p.2)) dst

namespace State

variable (s : State)

/-- Add to the log. -/
def note (accesses : List Access) : State := { s with log := accesses ++ s.log }

def setWindow (i : ℕ) (entry : Option Blueprint) : State :=
  { s with windows := assign s.windows i entry }

def paintScreen (indices : List ℕ) (color : ℕ) : State :=
  { s with screen := paint s.screen indices color, log := indices.map .screen ++ s.log }

end State

/-- The words that `copy_pixels_to_screen` copies: where to and where from. -/
def copyPairs (fb : Framebuffer) (entry : Blueprint) : List (ℕ × ℕ) :=
  (List.range entry.height).flatMap fun row => (List.range entry.width).map fun col =>
    (((entry.screenY + row) * (fb.pitch / 4) + entry.screenX) % 2 ^ 32 + col,
      row * entry.width + col)

def copyPixelsToScreen (fb : Framebuffer) (s : State) (entry : Blueprint) : State :=
  let pairs := copyPairs fb entry
  { s with
    screen := copyWords s.screen entry.pixels.word pairs
    log := pairs.flatMap (fun p => [.screen p.1, .pixels entry.pixels.size p.2]) ++ s.log }

/-- One pass of the loop of `gui_flush_pixels`. -/
def flushWindow (fb : Framebuffer) (s : State) (i : ℕ) : State :=
  match s.windows i with
  | none => s
  | some entry =>
    if entry.dirtyFlag = 1 then
      (copyPixelsToScreen fb s entry).setWindow i (some { entry with dirtyFlag := 0 })
    else s

def guiFlushPixels (fb : Framebuffer) (s : State) : State :=
  (List.range maxTasks).foldl (flushWindow fb) s

section

variable (fb : Framebuffer) (bgColor : ℕ) (s : State)

/-- `gui_delete_window`. `true` is `STATUS_OK`. -/
def guiDeleteWindow (targetPid : ℕ) : State × Bool :=
  match firstSlot maxTasks fun i => (s.windows i).any fun entry => entry.ownerPid = targetPid with
  | none => (s, false)
  | some i =>
    match s.windows i with
    | none => (s, false)
    | some entry =>
      match fbFillRect 0 0 entry.width entry.height entry.width entry.height with
      | none => (s, false)
      | some indices =>
        let entry := { entry with
          pixels := { entry.pixels with word := paint entry.pixels.word indices bgColor } }
        let s := s.note (indices.map (.pixels entry.pixels.size))
        ((copyPixelsToScreen fb s entry).setWindow i none, true)

/-- The test of the dimensions in `gui_create_window_entry`. -/
def createInvalid (req : Request) : Bool :=
  fb.width < req.width ∨ fb.height < req.height ∨ fb.width ≤ req.x ∨ fb.height ≤ req.y ∨
    fb.width < req.x + req.width ∨ fb.height < req.y + req.height ∨ req.width = 0 ∨ req.height = 0

def guiCreateWindowEntry (req : Request) (mem : Memory) : State × Request × Bool :=
  if createInvalid fb req then (s, req, false)
  else
    match firstSlot maxTasks fun i => (s.windows i).isNone with
    | none => (s, { req with structKey := statusError }, false)
    | some slot =>
      match mem.entry with
      | none => (s, { req with structKey := statusError }, false)
      | some dirtyFlag =>
        match kmallocPixels (req.width * req.height * 4 % 2 ^ 32) mem.pixels with
        | none => (s, { req with structKey := statusError }, false)
        | some pixels =>
          (s.setWindow slot (some
            { pixels
              ownerPid := req.callerPid
              width := req.width
              height := req.height
              screenX := req.x
              screenY := req.y
              dirtyFlag }), { req with structKey := slot }, true)

/-- The words that `gui_resize_window` keeps: where to and where from. -/
def keepPairs (entry : Blueprint) (width height : ℕ) : List (ℕ × ℕ) :=
  (List.range (min entry.height height)).flatMap fun row =>
    (List.range (min entry.width width)).map fun col =>
      (row * width + col, row * entry.width + col)

def guiResizeWindow (req : Request) (mem : Memory) : State × Bool :=
  let s := s.note [.table req.structKey]
  match s.windows req.structKey with
  | none => (s, false)
  | some entry =>
    if entry.ownerPid ≠ req.callerPid then (s, false)
    else if fb.width < req.width ∨ fb.height < req.height ∨
        fb.width < entry.screenX + req.width ∨ fb.height < entry.screenY + req.height then (s, false)
    else
      match kmallocPixels (req.width * req.height * 4 % 2 ^ 32) mem.pixels with
      | none => (s, false)
      | some pixels =>
        match fbFillRect entry.screenX entry.screenY entry.width entry.height fb.width fb.height with
        | none => (s, false)
        | some indices =>
          let s := s.paintScreen indices bgColor
          let pairs := keepPairs entry req.width req.height
          let s := s.note (pairs.flatMap fun p =>
            [.pixels pixels.size p.1, .pixels entry.pixels.size p.2])
          let entry := { entry with
            pixels := { pixels with word := copyWords pixels.word entry.pixels.word pairs }
            width := req.width
            height := req.height }
          (copyPixelsToScreen fb (s.setWindow req.structKey (some entry)) entry, true)

def guiMoveWindow (req : Request) : State × Bool :=
  let s := s.note [.table req.structKey]
  match s.windows req.structKey with
  | none => (s, false)
  | some entry =>
    if entry.ownerPid ≠ req.callerPid then (s, false)
    else if fb.width ≤ req.x ∨ fb.height ≤ req.y ∨ fb.width < entry.width + req.x ∨
        fb.height < entry.height + req.y then (s, false)
    else
      match fbFillRect entry.screenX entry.screenY entry.width entry.height fb.width fb.height with
      | none => (s, false)
      | some indices =>
        let s := s.paintScreen indices bgColor
        let entry := { entry with screenX := req.x, screenY := req.y }
        (copyPixelsToScreen fb (s.setWindow req.structKey (some entry)) entry, true)

/-- The status after a handler. -/
def Request.answer (req : Request) (ok : Bool) : Request :=
  { req with status := if ok then .complete else .failed }

/-- `gui_handle_request`, as far as windows and the request are concerned. -/
def guiHandleRequest (req : Request) (mem : Memory) : State × Request :=
  match req.requestType with
  | .create =>
    let r := guiCreateWindowEntry fb s req mem
    (r.1, Request.answer r.2.1 r.2.2)
  | .free =>
    let r := guiDeleteWindow fb bgColor s req.targetPid
    (r.1, Request.answer req r.2)
  | .resize =>
    let r := guiResizeWindow fb bgColor s req mem
    (r.1, Request.answer req r.2)
  | .move =>
    let r := guiMoveWindow fb bgColor s req
    (r.1, Request.answer req r.2)
  | _ => (s, Request.answer req false)

end

/-- The windows after `gui_init`. -/
def State.init (screen : ℕ → ℕ) : State := { windows := fun _ => none, screen, log := [] }

end Taavi.Gui
