import Taavi.Lib.CString

/-!
# Directory listings in the user library

`list_dirents` of `stand.c` splits a listing into lines and segments, in place, and `format_dirents`
puts a dot into a name. That a long string would go past the end of `name` is not shown.
-/

namespace Taavi.User

open Lib

/-- The size of the buffer of `list_dirents`. -/
def bufSize : ℕ := 512

def blank : UInt8 := 0x20

def tab : UInt8 := 0x09

/-- The end of a line. -/
def newline : UInt8 := 0x0A

def slash : UInt8 := 0x2F

def dot : UInt8 := 0x2E

section

variable (dirents size : ℕ)

/-- The loop of `format_dirents` over blanks: `amount_of_spaces` and `has_extension`. -/
def scanBlanks (buf : Memory) : ℕ → ℕ → ℕ → ℕ × Bool
  | 0, _, spaces => (spaces, false)
  | left + 1, j, spaces =>
    if buf (dirents + j) = 0 ∨ buf (dirents + j) = newline then (spaces, false)
    else if buf (dirents + j) = blank then scanBlanks buf left (j + 1) (spaces + 1)
    else (spaces, true)

/-- The loop of `format_dirents` that moves the extension, from `j` on. -/
def moveExtension (spaces : ℕ) : ℕ → ℕ → Memory → Memory
  | 0, _, buf => buf
  | left + 1, j, buf =>
    if buf (dirents + j) = 0 then buf
    else moveExtension spaces left (j + 1)
      (assign buf (dirents + j) (buf (dirents + (j + spaces))))

/-- The outer loop of `format_dirents`. A blank is set to a dot, and set back if nothing follows. -/
def formatLoop : ℕ → ℕ → Memory → Memory
  | 0, _, buf => buf
  | fuel + 1, i, buf =>
    if size ≤ i then buf
    else if buf (dirents + i) = 0 then buf
    else if buf (dirents + i) = blank then
      let dotted := assign buf (dirents + i) dot
      let (spaces, hasExtension) := scanBlanks dirents dotted (size - (i + 1)) (i + 1) 0
      if !hasExtension then formatLoop fuel (i + 2) (assign dotted (dirents + i) blank)
      else if spaces = 0 then formatLoop fuel (i + 2) dotted
      else formatLoop fuel (i + 2)
        (moveExtension dirents spaces (size - (i + 1)) (i + 1) dotted)
    else formatLoop fuel (i + 1) buf

def formatDirents (buf : Memory) : Memory := formatLoop dirents size size 0 buf

end

inductive DirentType
  | directory
  | file
  deriving DecidableEq, Repr

structure DirentInfo where
  name : Memory
  type : DirentType
  size : ℕ

def DirentInfo.zero : DirentInfo := ⟨fun _ => 0, .directory, 0⟩

def isDigit (c : UInt8) : Bool := 0x30 ≤ c && c ≤ 0x39

/-- `atoi`, whose `int` becomes a `uint32_t`. -/
def atoi (str : List UInt8) : ℕ :=
  (((str.dropWhile (· == blank)).takeWhile isDigit).foldl
    (fun res c => res * 10 + (c.toNat - 48)) 0) % 2 ^ 32

/-- The loop that copies a name without its blanks. -/
def copyName (name : Memory) (src : List UInt8) : Memory := fun idx =>
  if idx < src.length ∧ src.getD idx 0 ≠ blank then src.getD idx 0
  else if idx = src.length then 0
  else name idx

def skipBlanks (buf : Memory) : ℕ → ℕ → ℕ
  | 0, start => start
  | fuel + 1, start =>
    if buf start = blank ∨ buf start = tab then skipBlanks buf fuel (start + 1) else start

def idTag : List UInt8 := [0x49, 0x44, 0x3A]

/-- `"N:"`. -/
def nameTag : List UInt8 := [0x4E, 0x3A]

/-- `"S:"`. -/
def sizeTag : List UInt8 := [0x53, 0x3A]

/-- What `list_dirents` does with a segment that ends with a zero. -/
def readSegment (buf : Memory) (segmentStart : ℕ) (info : DirentInfo) : Memory × DirentInfo :=
  let start := skipBlanks buf bufSize segmentStart
  let segment := buf.string bufSize start
  if segment = [] then (buf, info)
  else
    let info :=
      if idTag.isPrefixOf segment then
        { info with type := if segment.getD 3 0 = 0x44 then .directory else .file }
      else info
    let named : Memory × DirentInfo :=
      if nameTag.isPrefixOf segment then
        let formatted := formatDirents (start + 2) (buf.string bufSize (start + 2)).length buf
        (formatted, { info with name := copyName info.name (formatted.string bufSize (start + 2)) })
      else (buf, info)
    let last := named.1.string bufSize start
    (named.1,
      if sizeTag.isPrefixOf last then { named.2 with size := atoi (last.drop 2) } else named.2)

/-- The loop of `list_dirents` over the bytes of a line, from `j` on. -/
def segmentLoop : ℕ → ℕ → ℕ → Memory → DirentInfo → Memory × DirentInfo
  | 0, _, _, buf, info => (buf, info)
  | left + 1, j, segmentStart, buf, info =>
    if buf j = slash ∨ buf j = 0 then
      let read := readSegment (assign buf j 0) segmentStart info
      segmentLoop left (j + 1) (j + 1) read.1 read.2
    else segmentLoop left (j + 1) segmentStart buf info

/-- The loop of `list_dirents` over the bytes of the text, from `i` on, with the entries so far. -/
def lineLoop (maxDirents : ℕ) : ℕ → ℕ → ℕ → Memory → List DirentInfo → List DirentInfo
  | 0, _, _, _, slots => slots
  | left + 1, i, lineStart, buf, slots =>
    if maxDirents ≤ slots.length then slots
    else if buf i = newline ∨ buf i = 0 then
      if lineStart < i then
        let read := segmentLoop (i + 1 - lineStart) lineStart lineStart (assign buf i 0) .zero
        lineLoop maxDirents left (i + 1) (i + 1) read.1 (slots ++ [read.2])
      else lineLoop maxDirents left (i + 1) (i + 1) buf slots
    else lineLoop maxDirents left (i + 1) lineStart buf slots

def bufferOf (text : List UInt8) : Memory := fun i => text.getD i 0

/-- `list_dirents`, for the text in the buffer. It gives nothing for `STATUS_ERROR`. -/
def listDirents (text : List UInt8) (maxDirents : ℕ) : Option (List DirentInfo) :=
  if text.length = 0 then none
  else some (lineLoop maxDirents (text.length + 1) 0 0 (bufferOf text) [])

end Taavi.User
