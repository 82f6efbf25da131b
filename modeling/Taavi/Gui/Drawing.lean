import Taavi.Gui.Geometry

/-!
# Drawing in windows

`kernel/arch/x86/tcb/sys_window.c`: text, rectangles, sprites and scrolling are drawn at once in the
window that the caller names, and all else becomes a request to the clerk.
-/

namespace Taavi.Gui

open Lib

def fontHeight : ℕ := 16

def fontWidth : ℕ := 8

def transparent : ℕ := 0

/-- The rows of the glyph of a character. -/
abbrev Font := UInt8 → ℕ → ℕ

/-- What is drawn in a pixel buffer: its new contents, and the words that were touched. -/
structure Drawing where
  word : ℕ → ℕ
  touched : List ℕ

def Drawing.write (word : ℕ → ℕ) (writes : List (ℕ × ℕ)) : Drawing :=
  { word := writes.foldl (fun word p => assign word p.1 p.2) word, touched := writes.map Prod.fst }

def fbDrawChar (font : Font) (x y width : ℕ) (c : UInt8) (fgColor bgColor : ℕ) : List (ℕ × ℕ) :=
  if c = 0 ∨ c = 10 ∨ c = 9 ∨ width ≤ x then []
  else
    (List.range fontHeight).flatMap fun row => (List.range fontWidth).map fun col =>
      (((y + row) * width + (x + col)) % 2 ^ 32,
        if (font c row).testBit (7 - col) then fgColor else bgColor)

def fbDrawString (font : Font) (x y width : ℕ) (str : List UInt8) (fgColor bgColor : ℕ) :
    List (ℕ × ℕ) :=
  match str with
  | [] => []
  | c :: str =>
    if c = 0 then []
    else
      fbDrawChar font x y width c fgColor bgColor ++
        fbDrawString font ((x + fontWidth) % 2 ^ 32) y width str fgColor bgColor

/-- `memmove` of one row of words. -/
def moveRow (word : ℕ → ℕ) (dst src count : ℕ) : ℕ → ℕ := fun k =>
  if dst ≤ k ∧ k < dst + count then word (src + (k - dst)) else word k

/-- `fb_scroll_down`. With `STATUS_ERROR` it changes nothing. -/
def fbScrollDown (word : ℕ → ℕ) (x y width height stride color : ℕ) : Drawing :=
  if height ≤ fontHeight then { word, touched := [] }
  else
    let start (row : ℕ) : ℕ := ((y + row) * stride + x) % 2 ^ 32
    let moved := (List.range (height - fontHeight)).foldl
      (fun word row => moveRow word (start row) (start (row + fontHeight)) width) word
    let blank := (List.range' (height - fontHeight) fontHeight).flatMap fun row =>
      (List.range width).map fun col => ((y + row) * stride + (x + col)) % 2 ^ 32
    { word := paint moved blank color
      touched := blank ++ (List.range (height - fontHeight)).flatMap fun row =>
        List.range' (start row) width ++ List.range' (start (row + fontHeight)) width }

/-- The part that the drawing operations share. `none` is `STATUS_ERROR`. -/
def onWindow (s : State) (key pid : ℕ) (draw : Blueprint → Option Drawing) : State × Bool :=
  let s := s.note [.table key]
  match s.windows key with
  | none => (s, false)
  | some entry =>
    if entry.ownerPid ≠ pid then (s, false)
    else
      match draw entry with
      | none => (s, false)
      | some drawing =>
        ((s.note (drawing.touched.map (.pixels entry.pixels.size))).setWindow key (some { entry with
          pixels := { entry.pixels with word := drawing.word }
          dirtyFlag := 1 }), true)

variable (font : Font) (s : State) (params : GuiParams) (callerPid : ℕ)

def drawString : State × Bool :=
  onWindow s params.structKey callerPid fun entry =>
    match params.buf with
    | none => none
    | some str =>
      if entry.width ≤ params.x ∨ entry.height ≤ params.y then none
      else some (.write entry.pixels.word
        (fbDrawString font params.x params.y entry.width str params.fgColor params.bgColor))

/-- The test of the dimensions in `scroll_window` and `paint_rectangle`. -/
def rectInvalid (params : GuiParams) (entry : Blueprint) : Bool :=
  entry.width < params.width ∨ entry.height < params.height ∨ entry.width ≤ params.x ∨
    entry.height ≤ params.y ∨ entry.width < (params.x + params.width) % 2 ^ 32 ∨
    entry.height < (params.y + params.height) % 2 ^ 32 ∨ params.width = 0 ∨ params.height = 0

/-- `scroll_window`. An error of `fb_scroll_down` is not noticed. -/
def scrollWindow : State × Bool :=
  onWindow s params.structKey callerPid fun entry =>
    if rectInvalid params entry then none
    else some (fbScrollDown entry.pixels.word params.x params.y params.width params.height
      entry.width params.bgColor)

def fillWindow (entry : Blueprint) (x y rectWidth rectHeight color : ℕ) : List (ℕ × ℕ) :=
  ((fbFillRect x y rectWidth rectHeight entry.width entry.height).getD []).map fun i => (i, color)

def paintRectangle : State × Bool :=
  onWindow s params.structKey callerPid fun entry =>
    if rectInvalid params entry then none
    else some (.write entry.pixels.word
      (fillWindow entry params.x params.y params.width params.height params.bgColor))

/-- The words that `draw_sprite` writes. The memory of the caller behind the sprite reads as zero. -/
def spriteWrites (params : GuiParams) (sprite : List UInt32) (entry : Blueprint) : List (ℕ × ℕ) :=
  (List.range params.height).flatMap fun row => (List.range params.width).flatMap fun col =>
    let color := (sprite.getD ((row * params.width + col) % 2 ^ 32) 0).toNat
    if color = transparent then []
    else fillWindow entry ((params.x + col * params.scale) % 2 ^ 32)
      ((params.y + row * params.scale) % 2 ^ 32) params.scale params.scale color

def drawSprite : State × Bool :=
  onWindow s params.structKey callerPid fun entry =>
    params.pixels.map fun sprite => .write entry.pixels.word (spriteWrites params sprite entry)

/-- The part of `sys_window` that does not use the clerk. -/
def sysWindow : Option (State × Bool) :=
  match params.opcode with
  | .writeAt => some (drawString font s params callerPid)
  | .paintWindow => some (paintRectangle s params callerPid)
  | .draw => some (drawSprite s params callerPid)
  | .scrollDown => some (scrollWindow s params callerPid)
  | _ => none

end Taavi.Gui
