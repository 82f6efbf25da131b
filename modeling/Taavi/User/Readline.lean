import Mathlib.Data.List.Infix
import Taavi.Lib.CString
import Taavi.Lib.Runs

/-!
# Reading a line with a history

`readline.c` and `history.c` of `userspace/library/libc`. The screen has no effect on the buffer,
except that the left arrow stops at its start of the line.
-/

namespace Taavi.User

open Lib List

section

/-- A string of the C language. -/
abbrev Text := { text : List UInt8 // (0 : UInt8) ∉ text }

def maxSavedLines : ℕ := 32

def historyLineLen : ℕ := 512

/-- The globals of `history.c`. -/
structure History where
  lines : ℕ → Text
  totalSaved : ℕ
  currentLine : ℕ

def historyAdd (h : History) (line : Text) : History :=
  if line.1 = [] then h
  else
    let slot := if maxSavedLines ≤ h.totalSaved then 0 else h.totalSaved
    let saved : Text :=
      ⟨line.1.take (historyLineLen - 1), fun hzero => line.2 (mem_of_mem_take hzero)⟩
    { lines := assign h.lines slot saved, totalSaved := (slot + 1) % 256, currentLine := slot }

def historyGetNext (h : History) : History × Option Text :=
  if h.totalSaved = 0 then (h, none)
  else
    let current :=
      if maxSavedLines ≤ h.currentLine then (h.totalSaved + 255) % 256 else h.currentLine
    ({ h with currentLine := (current + 255) % 256 }, some (h.lines current))

def historyGetPrev (h : History) : History × Option Text :=
  if h.totalSaved = 0 then (h, none)
  else
    let current :=
      if maxSavedLines ≤ h.currentLine ∨ h.totalSaved ≤ h.currentLine then
        (h.totalSaved + 255) % 256
      else h.currentLine
    ({ h with currentLine := (current + 1) % 256 }, some (h.lines current))

/-- A key other than Enter. The left arrow may be at the start of the line on the screen. -/
inductive EditKey where
  | char (c : UInt8) (printable : 32 ≤ c ∧ c < 127)
  | backspace
  | left (atStart : Bool)
  | right
  | up
  | down

def EditKey.recalled (h : History) : EditKey → Option Text
  | .up => (historyGetNext h).2
  | .down => (historyGetPrev h).2
  | _ => none

/-- The line editor: its buffer, `pos` and the history. -/
structure Rdl where
  buf : Memory
  pos : ℕ
  history : History

/-- The string in a buffer. -/
def lineOf (buf : Memory) : List UInt8 := buf.string (2 ^ 32) 0

def strncpy (dest : Memory) (src : Text) (size : ℕ) : Memory :=
  fun i => if i < size then src.1.getD i 0 else dest i

variable (n : ℕ) (r : Rdl)

/-- `handle_hist_key`, after the answer of the history. -/
def Rdl.recall : History × Option Text → Rdl
  | (history, none) => { r with history }
  | (history, some cmd) =>
    { buf := strncpy r.buf cmd n, pos := (lineOf (strncpy r.buf cmd n)).length, history }

/-- One pass of the loop of `rdl_handle`, in a buffer of the given length. -/
def Rdl.press : EditKey → Rdl
  | .up => r.recall n (historyGetNext r.history)
  | .down => r.recall n (historyGetPrev r.history)
  | .left atStart => if r.pos = 0 ∨ atStart then r else { r with pos := r.pos - 1 }
  | .right => if (lineOf r.buf).length ≤ r.pos then r else { r with pos := r.pos + 1 }
  | .backspace => if r.pos = 0 then r else { r with pos := r.pos - 1 }
  | .char c _ =>
    if r.pos < n - 1 then { r with buf := assign r.buf r.pos c, pos := r.pos + 1 } else r

/-- The position at which `handle_enter` ends the line. -/
def Rdl.endPos : ℕ := if r.pos < (lineOf r.buf).length then (lineOf r.buf).length else r.pos

/-- The buffer after `handle_enter`. -/
def Rdl.entered : Memory := assign r.buf r.endPos 0

/-- The start of `readline_at_region` and of `readline_at`. -/
def Rdl.start (buf : Memory) (history : History) : Rdl :=
  { buf := fun i => if i < n then 0 else buf i, pos := 0, history }

/-- The indices that a key, or Enter, writes in the buffer. -/
def Rdl.written : Option EditKey → List ℕ
  | none => [r.endPos]
  | some (.char _ _) => if r.pos < n - 1 then [r.pos] else []
  | some key => if (key.recalled r.history).isSome then List.range n else []

end

section

variable {n : ℕ} {r : Rdl} {buf : Memory} {text : List UInt8}

structure Holds (buf : Memory) (n : ℕ) (text : List UInt8) : Prop where
  bytes : ∀ i < n, buf i = text.getD i 0
  nonzero : (0 : UInt8) ∉ text
  fits : text.length < n

/-- The buffer holds a text, and the position is not behind its end. -/
def Rdl.Inside (n : ℕ) (r : Rdl) : Prop := ∃ text, Holds r.buf n text ∧ r.pos ≤ text.length

/-- A text with another character at a position, or one character longer. -/
def overwrite (text : List UInt8) (pos : ℕ) (c : UInt8) : List UInt8 :=
  text.take pos ++ c :: text.drop (pos + 1)

theorem getD_overwrite {pos : ℕ} (c : UInt8) (hpos : pos ≤ text.length) (i : ℕ) :
    (overwrite text pos c).getD i 0 = if i = pos then c else text.getD i 0 := by
  unfold overwrite
  induction text generalizing pos i with
  | nil =>
    obtain rfl : pos = 0 := Nat.le_zero.mp hpos
    cases i <;> simp
  | cons d text ih =>
    cases pos with
    | zero => cases i <;> simp
    | succ pos =>
      cases i with
      | zero => simp
      | succ i => simpa using ih (Nat.le_of_succ_le_succ hpos) i

theorem length_overwrite {pos : ℕ} (c : UInt8) (hpos : pos ≤ text.length) :
    (overwrite text pos c).length = max text.length (pos + 1) := by
  simp only [overwrite, length_append, length_take, length_cons, length_drop]
  omega

/-- The text a buffer holds is the string read from it. -/
theorem Holds.lineOf_eq (h : Holds buf n text) (hn : n < 2 ^ 32) : lineOf buf = text := by
  have hfits := h.fits
  refine Memory.string_eq (Memory.at_of_getD fun i hi => ?_) ?_ h.nonzero (by omega)
  · rw [zero_add, h.bytes i (by omega)]
  · rw [zero_add, h.bytes _ hfits]
    simp

/-- Typing at or before the end of the text writes over one letter or adds one. -/
theorem Holds.assign (h : Holds buf n text) {pos : ℕ} {c : UInt8} (hc : c ≠ 0)
    (hpos : pos ≤ text.length) (hn : pos < n - 1) :
    Holds (Lib.assign buf pos c) n (overwrite text pos c) := by
  have hfits := h.fits
  refine ⟨fun i hi => ?_, fun hzero => ?_, ?_⟩
  · rw [getD_overwrite c hpos, assign_apply, h.bytes i hi]
  · rcases mem_append.mp hzero with hzero | hzero
    · exact h.nonzero (mem_of_mem_take hzero)
    · rcases mem_cons.mp hzero with rfl | hzero
      · exact hc rfl
      · exact h.nonzero (mem_of_mem_drop hzero)
  · rw [length_overwrite c hpos]
    omega

theorem holds_start (hn : 0 < n) (buf : Memory) (history : History) :
    Holds (Rdl.start n buf history).buf n [] :=
  ⟨fun _ hi => if_pos hi, not_mem_nil, hn⟩

theorem Holds.endPos_eq (h : Holds r.buf n text) (hn : n < 2 ^ 32) (hpos : r.pos ≤ text.length) :
    r.endPos = text.length := by
  rw [Rdl.endPos, h.lineOf_eq hn]
  split_ifs <;> omega

/-- A key keeps the cursor and the end of the line inside, if a recalled line fits. -/
theorem Holds.press (h : Holds r.buf n text) (hn : n < 2 ^ 32) (hpos : r.pos ≤ text.length)
    (key : EditKey) (hfits : ∀ cmd, key.recalled r.history = some cmd → cmd.1.length < n) :
    (r.press n key).Inside n := by
  have hrecall (answer : History × Option Text)
      (hshort : ∀ cmd, answer.2 = some cmd → cmd.1.length < n) : (r.recall n answer).Inside n := by
    obtain ⟨history, _ | cmd⟩ := answer
    · exact ⟨text, h, hpos⟩
    · have hcmd : Holds (strncpy r.buf cmd n) n cmd.1 :=
        ⟨fun i hi => if_pos hi, cmd.2, hshort cmd rfl⟩
      exact ⟨cmd.1, hcmd, (congrArg List.length (hcmd.lineOf_eq hn)).le⟩
  cases key with
  | char c printable =>
    simp only [Rdl.press]
    split_ifs with hroom
    · refine ⟨_, h.assign ?_ hpos hroom, ?_⟩
      · rintro rfl
        exact absurd printable.1 (by decide)
      · rw [length_overwrite c hpos]
        exact le_max_right _ _
    · exact ⟨text, h, hpos⟩
  | backspace | left =>
    simp only [Rdl.press]
    split_ifs
    · exact ⟨text, h, hpos⟩
    · exact ⟨text, h, (Nat.sub_le _ _).trans hpos⟩
  | right =>
    simp only [Rdl.press]
    split_ifs with hend
    · exact ⟨text, h, hpos⟩
    · rw [h.lineOf_eq hn] at hend
      exact ⟨text, h, Nat.lt_of_not_le hend⟩
  | up => exact hrecall _ hfits
  | down => exact hrecall _ hfits

end

section

variable {n : ℕ} {r : Rdl} {buf : Memory} {history : History} {keys : List EditKey}

/-- A key is pressed whose line from the history, if there is one, is shorter than the buffer. -/
def ShortStep (n : ℕ) (r : Rdl) (key : EditKey) (r' : Rdl) : Prop :=
  (∀ cmd, key.recalled r.history = some cmd → cmd.1.length < n) ∧ r.press n key = r'

/-- Whatever keys are pressed, as long as the lines taken from the history are shorter than the
buffer: the buffer has a zero, the position is before its end, and the next key writes in the buffer
only. -/
theorem readline_stays_inside (hn : 0 < n) (hlt : n < 2 ^ 32)
    (hrun : Run (ShortStep n) (Rdl.start n buf history) keys r) :
    (∃ i < n, r.buf i = 0) ∧ r.pos ≤ n - 1 ∧ ∀ key, ∀ i ∈ r.written n key, i < n := by
  have hstep : ∀ r key r', r.Inside n → ShortStep n r key r' → r'.Inside n := by
    rintro r key _ ⟨text, htext, hpos⟩ ⟨hshort, rfl⟩
    exact htext.press hlt hpos key hshort
  obtain ⟨text, htext, hpos⟩ := hrun.invariant hstep ⟨[], holds_start hn buf history, le_rfl⟩
  have hfits := htext.fits
  refine ⟨⟨text.length, hfits, by rw [htext.bytes _ hfits]; simp⟩, by omega, fun key i hi => ?_⟩
  rcases key with _ | key
  · rw [mem_singleton.mp hi, htext.endPos_eq hlt hpos]
    exact hfits
  · cases key <;> simp only [Rdl.written] at hi <;> split_ifs at hi <;> simp at hi <;> omega

def emptyHistory : History := ⟨fun _ => ⟨[], by simp⟩, 0, 0⟩

def oneLine : History := historyAdd emptyHistory ⟨[97, 98], by decide⟩

/-- The line from the history fits in a buffer of three bytes. -/
theorem short_line_stays_inside :
    ∃ r, Run (ShortStep 3) (Rdl.start 3 (fun _ => 1) oneLine) [.up] r ∧ r.endPos < 3 := by
  have hstep : ShortStep 3 (Rdl.start 3 (fun _ => 1) oneLine) .up
      ((Rdl.start 3 (fun _ => 1) oneLine).press 3 .up) := by
    refine ⟨fun cmd hcmd => ?_, rfl⟩
    cases hcmd
    decide
  have hrun := Run.cons hstep (Run.nil _)
  refine ⟨_, hrun, (readline_stays_inside (by decide) (by decide) hrun).2.2 none _ ?_⟩
  exact mem_singleton_self _

/-- In a buffer of two bytes it leaves no room for a zero, and Enter writes behind the buffer. -/
theorem long_line_leaves_buffer :
    let r := (Rdl.start 2 (fun i => if i < 5 then 1 else 0) oneLine).press 2 .up
    (∀ i < 2, r.buf i ≠ 0) ∧ r.pos = 5 ∧ r.endPos = 5 := by
  decide +kernel

end

section

variable {n : ℕ} {keys : List EditKey}

/-- A printable character or a backspace. -/
def EditKey.Plain : EditKey → Prop
  | .char _ _ | .backspace => True
  | _ => False

/-- What a key does to the line before the cursor, with backspace taking the last letter away. -/
def editLine (n : ℕ) (line : List UInt8) : EditKey → List UInt8
  | .char c _ => if line.length < n - 1 then line ++ [c] else line
  | .backspace => line.dropLast
  | _ => line

/-- The line of the reference editor. -/
def edited (n : ℕ) (keys : List EditKey) : List UInt8 := keys.foldl (editLine n) []

/-- The line editor after some keys. -/
def Rdl.pressAll (n : ℕ) (r : Rdl) (keys : List EditKey) : Rdl := keys.foldl (Rdl.press n) r

/-- The text is as long as the longest line so far, and up to the position it is the line of the
reference editor. -/
structure Follows (n : ℕ) (keys : List EditKey) (r : Rdl) (text : List UInt8) : Prop where
  holds : Holds r.buf n text
  pos : r.pos ≤ text.length
  line : edited n keys = text.take r.pos
  longest : ∀ earlier, earlier <+: keys → (edited n earlier).length ≤ text.length
  reached : ∃ earlier, earlier <+: keys ∧ (edited n earlier).length = text.length

/-- One step of the editor, from what it does to the text and the line. -/
theorem Follows.next {r r' : Rdl} {text text' : List UInt8} {key : EditKey}
    (h : Follows n keys r text) (hholds : Holds r'.buf n text') (hpos : r'.pos ≤ text'.length)
    (hline : edited n (keys ++ [key]) = text'.take r'.pos)
    (hlen : text'.length = max text.length (edited n (keys ++ [key])).length) :
    Follows n (keys ++ [key]) r' text' := by
  refine ⟨hholds, hpos, hline, fun earlier hearlier => ?_, ?_⟩
  · rw [hlen]
    rcases prefix_concat_iff.mp hearlier with rfl | hearlier
    · exact le_max_right _ _
    · exact (h.longest earlier hearlier).trans (le_max_left _ _)
  · rcases le_total text.length (edited n (keys ++ [key])).length with hle | hle
    · exact ⟨keys ++ [key], prefix_rfl, by rw [hlen, max_eq_right hle]⟩
    · obtain ⟨earlier, hearlier, heq⟩ := h.reached
      exact ⟨earlier, hearlier.trans (prefix_append _ _), by rw [hlen, max_eq_left hle, heq]⟩

/-- A printable character or a backspace keeps the editor in step with the reference. -/
theorem Follows.press {r : Rdl} {text : List UInt8} (h : Follows n keys r text) {key : EditKey}
    (hplain : key.Plain) : ∃ text', Follows n (keys ++ [key]) (r.press n key) text' := by
  have hpos := h.pos
  have hlen : (edited n keys).length = r.pos := by
    rw [h.line, length_take, min_eq_left h.pos]
  have hnext : edited n (keys ++ [key]) = editLine n (edited n keys) key := by
    rw [edited, foldl_append]
    rfl
  cases key with
  | char c printable =>
    rw [editLine, hlen] at hnext
    simp only [Rdl.press]
    split_ifs at hnext ⊢ with hroom
    · have hc : c ≠ 0 := by
        rintro rfl
        exact absurd printable.1 (by decide)
      refine ⟨_, h.next (h.holds.assign hc hpos hroom) ?_ ?_ ?_⟩
      · rw [length_overwrite c hpos]
        exact le_max_right _ _
      · rw [hnext, h.line, overwrite]
        simp [take_append, hpos]
      · rw [length_overwrite c hpos, hnext, length_append, hlen]
        rfl
    · refine ⟨text, h.next h.holds hpos (hnext.trans h.line) ?_⟩
      rw [hnext, hlen, max_eq_left hpos]
  | backspace =>
    have hline : edited n (keys ++ [.backspace]) = text.take (r.pos - 1) := by
      rw [hnext, editLine, dropLast_eq_take, hlen, h.line, take_take,
        min_eq_left (Nat.sub_le _ _)]
    have hmax : text.length = max text.length (edited n (keys ++ [.backspace])).length := by
      rw [hline, length_take]
      omega
    simp only [Rdl.press]
    split_ifs with hzero
    · exact ⟨text, h.next h.holds hpos (by rw [hline, hzero]) hmax⟩
    · exact ⟨text, h.next h.holds ((Nat.sub_le _ _).trans hpos) hline hmax⟩
  | _ => exact hplain.elim

/-- Backspace leaves the old letters: the text stays as long as the longest line so far. -/
theorem exists_follows (hn : 0 < n) (buf : Memory) (history : History)
    (hplain : ∀ key ∈ keys, key.Plain) :
    ∃ text, Follows n keys ((Rdl.start n buf history).pressAll n keys) text := by
  induction keys using List.reverseRecOn with
  | nil =>
    refine ⟨[], holds_start hn buf history, le_rfl, rfl, fun earlier hearlier => ?_, [], ?_⟩
    · rw [prefix_nil.mp hearlier]
      rfl
    · exact ⟨prefix_rfl, rfl⟩
  | append_singleton keys key ih =>
    obtain ⟨text, htext⟩ := ih fun key hkey => hplain key (mem_append_left _ hkey)
    rw [Rdl.pressAll, foldl_append]
    exact htext.press (hplain key (mem_append_right _ (mem_singleton_self key)))

/-- For every sequence of printable characters and backspaces: Enter leaves the line of the
reference editor if and only if that line was never longer than it is at the end. -/
theorem readline_edits_iff (hn : 0 < n) (hlt : n < 2 ^ 32) (buf : Memory) (history : History)
    (hplain : ∀ key ∈ keys, key.Plain) :
    lineOf ((Rdl.start n buf history).pressAll n keys).entered = edited n keys ↔
      ∀ earlier, earlier <+: keys → (edited n earlier).length ≤ (edited n keys).length := by
  obtain ⟨text, h⟩ := exists_follows hn buf history hplain
  generalize (Rdl.start n buf history).pressAll n keys = r at h
  have hfits := h.holds.fits
  have hentered : Holds r.entered n text := by
    refine ⟨fun i hi => ?_, h.holds.nonzero, hfits⟩
    rw [Rdl.entered, h.holds.endPos_eq hlt h.pos, assign_apply, h.holds.bytes i hi]
    split_ifs with hend
    · simp [hend]
    · rfl
  rw [hentered.lineOf_eq hlt]
  constructor
  · intro heq earlier hearlier
    exact heq ▸ h.longest earlier hearlier
  · intro hlongest
    obtain ⟨earlier, hearlier, heq⟩ := h.reached
    have hle := hlongest earlier hearlier
    rw [heq, h.line, length_take] at hle
    rw [h.line, take_of_length_le (by omega)]

def letterA : EditKey := .char 97 (by decide)

/-- A character is replaced by another one. -/
theorem replaced_letter_is_read :
    lineOf ((Rdl.start 8 (fun _ => 1) oneLine).pressAll 8 [letterA, .backspace, letterA]).entered =
      [97] := by
  refine (readline_edits_iff (by decide) (by decide) _ _ ?_).mpr ?_
  · simp [letterA, EditKey.Plain]
  · intro earlier hearlier
    have hinits : earlier ∈
        [[], [letterA], [letterA, .backspace], [letterA, .backspace, letterA]] :=
      (mem_inits _ _).mpr hearlier
    simp only [mem_cons, not_mem_nil, or_false] at hinits
    rcases hinits with rfl | rfl | rfl | rfl <;> decide

/-- A character that was deleted is read. -/
theorem deleted_letter_is_read :
    lineOf ((Rdl.start 8 (fun _ => 1) oneLine).pressAll 8 [letterA, .backspace]).entered = [97] ∧
      edited 8 [letterA, .backspace] = [] := by
  decide +kernel

end

variable {lines : List Text}

def historyOf (lines : List Text) : History := lines.foldl historyAdd emptyHistory

def History.afterNext (h : History) : ℕ → History
  | 0 => h
  | k + 1 => (historyGetNext (h.afterNext k)).1

/-- The counter of saved lines starts again at one when the ring was full. -/
def sinceFilled (n : ℕ) : ℕ := (n - 1) % maxSavedLines + 1

/-- The slots that were filled last hold the newest lines. -/
structure Recent (h : History) (lines : List Text) : Prop where
  total : h.totalSaved = if lines = [] then 0 else sinceFilled lines.length
  current : lines ≠ [] → h.currentLine + 1 = h.totalSaved
  slots : ∀ i < h.totalSaved, lines.reverse[h.totalSaved - 1 - i]? = some (h.lines i)

/-- The ring holds the lines saved since it was last full. -/
theorem recent_historyOf (hlines : ∀ line ∈ lines, line.1 ≠ [] ∧ line.1.length < historyLineLen) :
    Recent (historyOf lines) lines := by
  induction lines using List.reverseRecOn with
  | nil => exact ⟨rfl, fun h => absurd rfl h, fun i hi => absurd hi (Nat.not_lt_zero i)⟩
  | append_singleton lines line ih =>
    have hrecent := ih fun line hline => hlines line (mem_append_left _ hline)
    obtain ⟨hne, hshort⟩ := hlines line (mem_append_right _ (mem_singleton_self line))
    have hsaved : line.1.take (historyLineLen - 1) = line.1 := by
      rw [take_of_length_le (Nat.le_sub_one_of_lt hshort)]
    have hslot : (if maxSavedLines ≤ (historyOf lines).totalSaved then 0
        else (historyOf lines).totalSaved) = lines.length % maxSavedLines := by
      rw [hrecent.total]
      unfold sinceFilled maxSavedLines
      rcases lines with _ | ⟨first, rest⟩
      · rfl
      · rw [if_neg (cons_ne_nil _ _), length_cons]
        split_ifs <;> omega
    have hlt : lines.length % maxSavedLines < 32 := Nat.mod_lt _ (by decide)
    rw [historyOf, foldl_append]
    change Recent (historyAdd (historyOf lines) line) _
    simp only [historyAdd, if_neg hne, hslot, hsaved]
    rw [Nat.mod_eq_of_lt (by omega : lines.length % maxSavedLines + 1 < 256)]
    refine ⟨?_, fun _ => rfl, fun i hi => ?_⟩
    · simp [sinceFilled]
    · dsimp only at hi ⊢
      rw [reverse_append, reverse_singleton, singleton_append, assign_apply]
      split_ifs with hi'
      · simp [hi']
      · have htotal : (historyOf lines).totalSaved = lines.length % maxSavedLines := by
          split_ifs at hslot <;> omega
        have hold := hrecent.slots i (by omega)
        rw [htotal] at hold
        rw [← hold, show lines.length % maxSavedLines + 1 - 1 - i =
          lines.length % maxSavedLines - 1 - i + 1 by omega, List.getElem?_cons_succ]

/-- The line that the next call of `history_get_next` gives. -/
def History.slot (h : History) : ℕ :=
  if maxSavedLines ≤ h.currentLine then (h.totalSaved + 255) % 256 else h.currentLine

/-- Each press of the up key goes one slot back, around the saved lines. -/
theorem slot_afterNext {h : History} {total : ℕ} (htotal : h.totalSaved = total) (hpos : 0 < total)
    (hle : total ≤ maxSavedLines) (hcur : h.currentLine + 1 = total) (k : ℕ) :
    (h.afterNext k).slot = total - 1 - k % total ∧ (h.afterNext k).totalSaved = total ∧
      (h.afterNext k).lines = h.lines := by
  unfold maxSavedLines at hle
  induction k with
  | zero =>
    refine ⟨?_, htotal, rfl⟩
    rw [History.afterNext, History.slot, if_neg (by unfold maxSavedLines; omega), Nat.zero_mod]
    omega
  | succ k ih =>
    obtain ⟨hslot, hsaved, hlines⟩ := ih
    have hnext : historyGetNext (h.afterNext k) = ({ h.afterNext k with
        currentLine := ((h.afterNext k).slot + 255) % 256 }, some ((h.afterNext k).lines
          (h.afterNext k).slot)) := if_neg (by omega)
    rw [History.afterNext, hnext]
    refine ⟨?_, hsaved, hlines⟩
    have hmod := Nat.mod_lt k hpos
    have hsucc : (k + 1) % total = if k % total + 1 = total then 0 else k % total + 1 := by
      rw [← Nat.mod_add_mod]
      split_ifs with heq
      · rw [heq, Nat.mod_self]
      · rw [Nat.mod_eq_of_lt (by omega)]
    rw [History.slot]
    dsimp only
    rw [hslot, hsaved, hsucc]
    unfold maxSavedLines
    split_ifs <;> omega

/-- The answer to each press, counted from the newest line. -/
theorem historyGetNext_historyOf (hne : lines ≠ [])
    (hlines : ∀ line ∈ lines, line.1 ≠ [] ∧ line.1.length < historyLineLen) (k : ℕ) :
    (historyGetNext ((historyOf lines).afterNext k)).2 =
      lines.reverse[k % sinceFilled lines.length]? := by
  have hrecent := recent_historyOf hlines
  have htotal := hrecent.total
  rw [if_neg hne] at htotal
  have hpos : 0 < sinceFilled lines.length := Nat.succ_pos _
  have hle : sinceFilled lines.length ≤ maxSavedLines := Nat.mod_lt _ (by decide)
  obtain ⟨hslot, hsaved, hsame⟩ := slot_afterNext htotal hpos hle
    ((hrecent.current hne).trans htotal) k
  have hmod := Nat.mod_lt k hpos
  have hread := hrecent.slots _ (by rw [hslot]; omega : ((historyOf lines).afterNext k).slot < _)
  rw [hslot, htotal, show sinceFilled lines.length - 1 - (sinceFilled lines.length - 1 -
    k % sinceFilled lines.length) = k % sinceFilled lines.length by omega] at hread
  rw [hread, historyGetNext, if_neg (by omega), hsame, ← hslot]
  rfl

/-- The `k`-th recall gives the `k`-th newest line, for as many lines as the ring holds, exactly
when the lines added before the ring was last filled are repeated by the newer ones. -/
theorem history_recalls_iff (hne : lines ≠ [])
    (hlines : ∀ line ∈ lines, line.1 ≠ [] ∧ line.1.length < historyLineLen) :
    (∀ k < min lines.length maxSavedLines,
      (historyGetNext ((historyOf lines).afterNext k)).2 = lines.reverse[k]?) ↔
    ∀ k < min lines.length maxSavedLines, sinceFilled lines.length ≤ k →
      lines.reverse[k % sinceFilled lines.length]? = lines.reverse[k]? := by
  simp only [historyGetNext_historyOf hne hlines]
  refine ⟨fun h k hk _ => h k hk, fun h k hk => ?_⟩
  rcases lt_or_ge k (sinceFilled lines.length) with hlt | hge
  · rw [Nat.mod_eq_of_lt hlt]
  · exact h k hk hge

/-- A line of some letters `a`. -/
def letters (n : ℕ) : Text := ⟨List.replicate n 97, fun hb =>
  absurd (eq_of_mem_replicate hb) (by decide)⟩

theorem older_line_is_recalled :
    (historyGetNext ((historyOf [letters 1, letters 2]).afterNext 1)).2 = some (letters 1) :=
  (history_recalls_iff (by simp) (by decide)).mpr (by decide) 1 (by decide)

/-- The thirty-third line starts the ring again, and the newest line is recalled twice. -/
theorem line_before_full_ring_is_lost :
    (historyGetNext ((historyOf ((List.range 33).map fun i => letters (i + 1))).afterNext 1)).2 =
      some (letters 33) ∧ letters 33 ≠ letters 32 := by
  decide +kernel

end Taavi.User
