import Taavi.Gui.Clipping

/-!
# What is repainted

`fb_scroll_down` moves the rows of a rectangle upwards. `gui_move_window` erases the old place as if
the lines of the screen had no padding, and copies with the padding.
-/

namespace Taavi.Gui

open Lib List

section

variable {word : ℕ → ℕ} {x y width height stride r c : ℕ}

theorem paint_apply (word : ℕ → ℕ) (indices : List ℕ) (color k : ℕ) :
    paint word indices color k = if k ∈ indices then color else word k := by
  induction indices generalizing word with
  | nil => simp [paint]
  | cons i indices ih =>
    rw [paint, foldl_cons, ← paint, ih, assign_apply]
    by_cases hk : k ∈ indices <;> simp [hk]

/-- A span of one row has the pixels of that row only. -/
theorem in_row_iff {row : ℕ} (hx : x + width ≤ stride) (hc : c < stride) :
    row * stride + x ≤ r * stride + c ∧ r * stride + c < row * stride + x + width ↔
      r = row ∧ x ≤ c ∧ c < x + width := by
  constructor
  · rintro ⟨hle, hlt⟩
    have hrow : r = row := by
      rcases lt_trichotomy r row with hless | heq | hmore
      · have := Nat.mul_le_mul_right stride (Nat.succ_le_of_lt hless)
        rw [Nat.succ_mul] at this
        omega
      · exact heq
      · have := Nat.mul_le_mul_right stride (Nat.succ_le_of_lt hmore)
        rw [Nat.succ_mul] at this
        omega
    subst hrow
    omega
  · rintro ⟨rfl, hle, hlt⟩
    omega

/-- After some passes the rows that were moved have the words of the rows below them. -/
theorem moveRows_apply (hx : x + width ≤ stride)
    (hsmall : ∀ row < height, (y + row) * stride + x < 2 ^ 32) {n : ℕ}
    (hn : n + fontHeight ≤ height) (r : ℕ) (hc : c < stride) :
    (List.range n).foldl (fun word row => moveRow word (((y + row) * stride + x) % 2 ^ 32)
      (((y + (row + fontHeight)) * stride + x) % 2 ^ 32) width) word (r * stride + c) =
      if x ≤ c ∧ c < x + width ∧ y ≤ r ∧ r < y + n then word ((r + fontHeight) * stride + c)
      else word (r * stride + c) := by
  induction n generalizing r with
  | zero => simp
  | succ n ih =>
    rw [range_succ, foldl_append, foldl_cons, foldl_nil,
      Nat.mod_eq_of_lt (hsmall n (by omega)), Nat.mod_eq_of_lt (hsmall _ (by omega)), moveRow]
    simp only [in_row_iff hx hc]
    split_ifs with hmoved hnew hnew
    · obtain ⟨rfl, hle, hlt⟩ := hmoved
      -- The row below is not moved yet.
      rw [show (y + (n + fontHeight)) * stride + x + ((y + n) * stride + c - ((y + n) * stride + x)) =
        (y + n + fontHeight) * stride + c by rw [← add_assoc]; omega, ih (by omega),
        if_neg (by omega)]
    · omega
    · rw [ih (by omega), if_pos (by omega)]
    · rw [ih (by omega), if_neg (by omega)]

/-- The pixels that are cleared are those of the last text line. -/
theorem mem_blank_iff (hx : x + width ≤ stride)
    (hsmall : ∀ row < height, ∀ col < stride, (y + row) * stride + col < 2 ^ 32)
    (hheight : fontHeight < height) (hc : c < stride) :
    r * stride + c ∈ ((List.range' (height - fontHeight) fontHeight).flatMap fun row =>
      (List.range width).map fun col => ((y + row) * stride + (x + col)) % 2 ^ 32) ↔
      x ≤ c ∧ c < x + width ∧ y + height ≤ r + fontHeight ∧ r < y + height := by
  simp only [mem_flatMap, mem_map, mem_range, mem_range'_1]
  constructor
  · rintro ⟨row, hrow, col, hcol, heq⟩
    rw [Nat.mod_eq_of_lt (hsmall row (by omega) _ (by omega))] at heq
    have hin := (in_row_iff hx hc).mp (by omega :
      (y + row) * stride + x ≤ r * stride + c ∧ r * stride + c < (y + row) * stride + x + width)
    omega
  · rintro ⟨hle, hlt, hbelow, hlast⟩
    refine ⟨r - y, by omega, c - x, by omega, ?_⟩
    rw [Nat.mod_eq_of_lt (hsmall _ (by omega) _ (by omega))]
    rw [show y + (r - y) = r by omega, show x + (c - x) = c by omega]

variable {fb : Framebuffer} {s : State} {params : GuiParams} {pid : ℕ}

/-- An accepted request draws in the pixels of its window only. -/
theorem scrollWindow_accepted (hacc : (scrollWindow s params pid).2 = true) :
    ∃ entry, s.windows params.structKey = some entry ∧ ¬rectInvalid params entry = true ∧
      ∃ drawing, drawing = fbScrollDown entry.pixels.word params.x params.y params.width
          params.height entry.width params.bgColor ∧
        (scrollWindow s params pid).1.log =
          drawing.touched.map (.pixels entry.pixels.size) ++ .table params.structKey :: s.log ∧
        (scrollWindow s params pid).1.windows params.structKey = some { entry with
          pixels := { entry.pixels with word := drawing.word }
          dirtyFlag := 1 } := by
  have hacc' := hacc
  unfold scrollWindow onWindow at hacc'
  dsimp only at hacc'
  split at hacc'
  · cases hacc'
  · rename_i entry hentry
    split_ifs at hacc' with howner hinvalid
    refine ⟨entry, hentry, hinvalid, _, rfl, ?_⟩
    exact onWindow_draw hentry (not_not.mp howner) (if_neg hinvalid)

/-- For a window on the screen and a rectangle that `scroll_window` accepts: each of its pixels gets
the one a line of text below, or the background colour, and no other pixel changes. -/
theorem scroll_is_exact (hwindows : ∀ i entry, s.windows i = some entry → entry.Fits fb)
    (hfb : fb.Usual) (haccepted : (scrollWindow s params pid).2 = true)
    (hheight : fontHeight < params.height) :
    ∃ entry word, s.windows params.structKey = some entry ∧
      (scrollWindow s params pid).1.windows params.structKey = some { entry with
        pixels := { entry.pixels with word }
        dirtyFlag := 1 } ∧
      (∀ r < entry.height, ∀ c < entry.width, word (r * entry.width + c) =
        if params.x ≤ c ∧ c < params.x + params.width ∧ params.y ≤ r ∧ r < params.y + params.height
        then if r + fontHeight < params.y + params.height
          then entry.pixels.word ((r + fontHeight) * entry.width + c) else params.bgColor
        else entry.pixels.word (r * entry.width + c)) ∧
      WritesOnly s (scrollWindow s params pid).1 params.structKey entry (· < entry.pixels.size) := by
  obtain ⟨entry, hentry, hvalid, _, rfl, hlog, hnew⟩ := scrollWindow_accepted haccepted
  have hfit := hwindows _ entry hentry
  have hsides := hfit.sides_lt hfb
  obtain ⟨hx, hy⟩ := of_rectInvalid hsides.1 hsides.2 hvalid
  have hsmall : ∀ row < params.height, ∀ col < entry.width,
      (params.y + row) * entry.width + col < 2 ^ 32 := by
    intro row hrow col hcol
    have hlt : (params.y + row) * entry.width + col < entry.height * entry.width :=
      index_lt (by omega) hcol
    have harea : entry.height * entry.width ≤ fb.height * fb.width :=
      Nat.mul_le_mul (by have := hfit.bottom; omega) (by have := hfit.right; omega)
    have := hfb.small
    rw [mul_comm fb.width] at this
    omega
  have hleft : params.x < entry.width := by
    simp only [rectInvalid, decide_eq_true_eq, not_or, not_le] at hvalid
    exact hvalid.2.2.1
  refine ⟨entry, _, hentry, hnew, fun r _ c hc => ?_, _, hlog, fun i hi => ?_⟩
  · rw [fbScrollDown, if_neg (by omega)]
    dsimp only
    rw [paint_apply, moveRows_apply hx (fun row hrow => hsmall row hrow _ hleft) (by omega) r hc]
    simp only [mem_blank_iff hx hsmall hheight hc]
    split_ifs <;> first | rfl | omega
  · rw [hfit.size, mul_comm]
    exact fbScrollDown_lt hx hy hi

/-- A table with one window that fits. -/
theorem fits_setWindow {screen : ℕ → ℕ} {i : ℕ} {entry : Blueprint} (hfit : entry.Fits fb) :
    ∀ j other, ((State.init screen).setWindow i (some entry)).windows j = some other →
      other.Fits fb := by
  intro j other hother
  by_cases hj : j = i
  · subst hj
    cases (assign_same _ _ _).symm.trans hother
    exact hfit
  · cases (assign_of_ne _ _ hj).symm.trans hother

/-- The whole of a small window. -/
def scrollAll : GuiParams :=
  { WindowSystem.plainParams .scrollDown 0 with x := 0, y := 0, width := 16, height := 32, bgColor := 7 }

theorem last_line_is_blank : ∃ entry word, oneWindow.windows 0 = some entry ∧
    (scrollWindow oneWindow scrollAll 5).1.windows 0 = some { entry with
      pixels := { entry.pixels with word }
      dirtyFlag := 1 } ∧ word (20 * entry.width + 3) = 7 := by
  have haccepted : (scrollWindow oneWindow scrollAll 5).2 = true := by decide
  obtain ⟨entry, word, hentry, hnew, hpixels, -⟩ :=
    scroll_is_exact (fits_setWindow oneWindow_fits) ⟨by decide, by decide⟩ haccepted (by decide)
  refine ⟨entry, word, hentry, hnew, ?_⟩
  cases hentry
  exact hpixels 20 (by decide) 3 (by decide)

end

variable {fb : Framebuffer} {s : State} {entry : Blueprint} {req : Request}
  {bgColor width height r c : ℕ} {dst src : ℕ → ℕ} {pairs : List (ℕ × ℕ)}

theorem copyWords_of_notMem {k : ℕ} (hk : ∀ p ∈ pairs, p.1 ≠ k) :
    copyWords dst src pairs k = dst k := by
  induction pairs generalizing dst with
  | nil => rfl
  | cons q pairs ih =>
    rw [copyWords, foldl_cons, ← copyWords, ih fun p hp => hk p (mem_cons_of_mem _ hp)]
    exact assign_of_ne _ _ (hk q mem_cons_self).symm

/-- A word that is copied once arrives. -/
theorem copyWords_of_mem {p : ℕ × ℕ} (hp : p ∈ pairs)
    (hsame : ∀ q ∈ pairs, q.1 = p.1 → q.2 = p.2) : copyWords dst src pairs p.1 = src p.2 := by
  induction pairs generalizing dst p with
  | nil => cases hp
  | cons q pairs ih =>
    rw [copyWords, foldl_cons, ← copyWords]
    by_cases hlater : ∃ p' ∈ pairs, p'.1 = p.1
    · obtain ⟨p', hp', heq⟩ := hlater
      have hsnd := hsame p' (mem_cons_of_mem _ hp') heq
      rw [← heq, ← hsnd]
      exact ih hp' fun q' hq' h =>
        (hsame q' (mem_cons_of_mem _ hq') (h.trans heq)).trans hsnd.symm
    · obtain rfl := (mem_cons.mp hp).resolve_right fun h => hlater ⟨p, h, rfl⟩
      rw [copyWords_of_notMem fun p' hp' h => hlater ⟨p', hp', h⟩, assign_same]

/-- A pixel of the screen lies in a rectangle. -/
def InRect (x y width height c r : ℕ) : Prop := (x ≤ c ∧ c < x + width) ∧ y ≤ r ∧ r < y + height

instance (x y width height c r : ℕ) : Decidable (InRect x y width height c r) :=
  inferInstanceAs (Decidable (_ ∧ _))

/-- A word that a pixel of the window has if a line of the screen has as many words as pixels. -/
def Unpadded (fb : Framebuffer) (entry : Blueprint) (k : ℕ) : Prop :=
  ∃ row < entry.height, ∃ col < entry.width,
    k = (entry.screenY + row) * fb.width + (entry.screenX + col)

/-- The new rectangle shows the window, the rest of the old one the background. -/
def MoveExact (fb : Framebuffer) (bgColor : ℕ) (entry : Blueprint) (req : Request)
    (before after : ℕ → ℕ) : Prop :=
  ∀ r c, c < fb.pitch / 4 → after (r * (fb.pitch / 4) + c) =
    if InRect req.x req.y entry.width entry.height c r
    then entry.pixels.word ((r - req.y) * entry.width + (c - req.x))
    else if InRect entry.screenX entry.screenY entry.width entry.height c r then bgColor
    else before (r * (fb.pitch / 4) + c)

/-- A move paints the old place and copies the window to the new one. -/
theorem screen_guiMoveWindow (hmoved : (guiMoveWindow fb bgColor s req).2 = true) :
    ∃ entry, s.windows req.structKey = some entry ∧ entry.width + req.x ≤ fb.width ∧
      entry.height + req.y ≤ fb.height ∧ (guiMoveWindow fb bgColor s req).1.screen =
        copyWords (paint s.screen (rectIndices entry.screenX entry.screenY entry.width entry.height
          fb.width) bgColor) entry.pixels.word
          (copyPairs fb { entry with screenX := req.x, screenY := req.y }) := by
  have hmoved' := hmoved
  unfold guiMoveWindow at hmoved'
  dsimp only at hmoved'
  split at hmoved'
  · cases hmoved'
  · rename_i entry hentry
    split_ifs at hmoved' with howner hoverlap
    split at hmoved'
    · cases hmoved'
    · rename_i indices hfill
      have hindices := hfill
      unfold fbFillRect at hindices
      split_ifs at hindices
      cases hindices
      simp only [not_or, not_lt, not_le] at hoverlap
      refine ⟨entry, hentry, hoverlap.2.2.1, hoverlap.2.2.2, ?_⟩
      have hentry' : (s.note [.table req.structKey]).windows req.structKey = some entry := hentry
      have hinside : ¬(fb.width ≤ req.x ∨ fb.height ≤ req.y ∨ fb.width < entry.width + req.x ∨
          fb.height < entry.height + req.y) := by omega
      simp only [guiMoveWindow, hentry', if_neg howner, if_neg hinside, hfill]
      rfl

theorem place_lt {x y stride row col : ℕ} (hx : x + width ≤ stride)
    (hsmall : (y + height) * stride ≤ 2 ^ 32) (hrow : row < height) (hcol : col < width) :
    (y + row) * stride + (x + col) < 2 ^ 32 :=
  (index_lt (Nat.add_lt_add_left hrow y) (by omega)).trans_le hsmall

/-- The copy takes every pixel of the window to its place on the screen. -/
theorem mem_copyPairs (hright : entry.screenX + entry.width ≤ fb.pitch / 4)
    (hsmall : (entry.screenY + entry.height) * (fb.pitch / 4) ≤ 2 ^ 32) {p : ℕ × ℕ} :
    p ∈ copyPairs fb entry ↔ ∃ row < entry.height, ∃ col < entry.width,
      p = ((entry.screenY + row) * (fb.pitch / 4) + (entry.screenX + col),
        row * entry.width + col) := by
  have hmod {row : ℕ} (hrow : row < entry.height) {col : ℕ} (hcol : col < entry.width) :
      ((entry.screenY + row) * (fb.pitch / 4) + entry.screenX) % 2 ^ 32 + col =
        (entry.screenY + row) * (fb.pitch / 4) + (entry.screenX + col) := by
    have hlt := place_lt hright hsmall hrow hcol
    rw [Nat.mod_eq_of_lt (by omega), add_assoc]
  simp only [copyPairs, mem_grid]
  constructor
  all_goals
    rintro ⟨row, hrow, col, hcol, rfl⟩
    exact ⟨row, hrow, col, hcol, by rw [hmod hrow hcol]⟩

/-- The copy uses the pitch, so it is exact on every row. -/
theorem copied_apply (hright : entry.screenX + entry.width ≤ fb.pitch / 4)
    (hsmall : (entry.screenY + entry.height) * (fb.pitch / 4) ≤ 2 ^ 32) (hc : c < fb.pitch / 4) :
    copyWords dst src (copyPairs fb entry) (r * (fb.pitch / 4) + c) =
      if InRect entry.screenX entry.screenY entry.width entry.height c r
      then src ((r - entry.screenY) * entry.width + (c - entry.screenX))
      else dst (r * (fb.pitch / 4) + c) := by
  have hplace {row col : ℕ} (hcol : col < entry.width)
      (heq : (entry.screenY + row) * (fb.pitch / 4) + (entry.screenX + col) =
        r * (fb.pitch / 4) + c) : r = entry.screenY + row ∧ c = entry.screenX + col := by
    have hrow := (in_row_iff hright hc).mp (by omega :
      (entry.screenY + row) * (fb.pitch / 4) + entry.screenX ≤ r * (fb.pitch / 4) + c ∧
        r * (fb.pitch / 4) + c <
          (entry.screenY + row) * (fb.pitch / 4) + entry.screenX + entry.width)
    obtain ⟨rfl, -⟩ := hrow
    omega
  split_ifs with hin
  · obtain ⟨⟨hx, hx'⟩, hy, hy'⟩ := hin
    have hmem : (r * (fb.pitch / 4) + c, (r - entry.screenY) * entry.width + (c - entry.screenX)) ∈
        copyPairs fb entry := by
      refine (mem_copyPairs hright hsmall).mpr ⟨r - entry.screenY, by omega, c - entry.screenX,
        by omega, ?_⟩
      rw [show entry.screenY + (r - entry.screenY) = r by omega,
        show entry.screenX + (c - entry.screenX) = c by omega]
    refine copyWords_of_mem hmem fun q hq heq => ?_
    obtain ⟨row, -, col, hcol, rfl⟩ := (mem_copyPairs hright hsmall).mp hq
    obtain ⟨rfl, rfl⟩ := hplace hcol heq
    simp
  · refine copyWords_of_notMem fun p hp heq => hin ?_
    obtain ⟨row, hrow, col, hcol, rfl⟩ := (mem_copyPairs hright hsmall).mp hp
    obtain ⟨rfl, rfl⟩ := hplace hcol heq
    exact ⟨by omega, by omega⟩

/-- The painting uses the width as its stride. -/
theorem mem_rectIndices (hright : entry.screenX + entry.width ≤ fb.width)
    (hsmall : (entry.screenY + entry.height) * fb.width ≤ 2 ^ 32) {k : ℕ} :
    k ∈ rectIndices entry.screenX entry.screenY entry.width entry.height fb.width ↔
      Unpadded fb entry k := by
  simp only [rectIndices, mem_grid]
  constructor
  · rintro ⟨col, hcol, row, hrow, rfl⟩
    exact ⟨row, hrow, col, hcol, Nat.mod_eq_of_lt (place_lt hright hsmall hrow hcol)⟩
  · rintro ⟨row, hrow, col, hcol, rfl⟩
    exact ⟨col, hcol, row, hrow, Nat.mod_eq_of_lt (place_lt hright hsmall hrow hcol)⟩

/-- A MOVE request that succeeds is exact if and only if every word outside the new rectangle is a
pixel of the old one exactly when it is without the padding, or has the background colour already. -/
theorem move_is_exact_iff (hwindows : ∀ i entry, s.windows i = some entry → entry.Fits fb)
    (hpitch : fb.width ≤ fb.pitch / 4) (hspace : fb.height * (fb.pitch / 4) ≤ 2 ^ 32)
    (hmoved : (guiMoveWindow fb bgColor s req).2 = true) :
    ∃ entry, s.windows req.structKey = some entry ∧
      (MoveExact fb bgColor entry req s.screen (guiMoveWindow fb bgColor s req).1.screen ↔
        ∀ r c, c < fb.pitch / 4 → ¬InRect req.x req.y entry.width entry.height c r →
          (Unpadded fb entry (r * (fb.pitch / 4) + c) ↔
            InRect entry.screenX entry.screenY entry.width entry.height c r) ∨
          s.screen (r * (fb.pitch / 4) + c) = bgColor) := by
  obtain ⟨entry, hentry, hright, hbottom, hscreen⟩ := screen_guiMoveWindow hmoved
  have hfit := hwindows _ entry hentry
  have hold : (entry.screenY + entry.height) * fb.width ≤ 2 ^ 32 :=
    (Nat.mul_le_mul hfit.bottom hpitch).trans hspace
  have hnew : (req.y + entry.height) * (fb.pitch / 4) ≤ 2 ^ 32 :=
    (Nat.mul_le_mul_right _ (by omega)).trans hspace
  refine ⟨entry, hentry, forall_congr' fun r => forall_congr' fun c => forall_congr' fun hc => ?_⟩
  have hright' : req.x + entry.width ≤ fb.pitch / 4 := by omega
  rw [hscreen, @copied_apply fb { entry with screenX := req.x, screenY := req.y } r c _ _ hright' hnew hc]
  by_cases hin : InRect req.x req.y entry.width entry.height c r
  · simp [hin]
  · rw [if_neg hin, if_neg hin, paint_apply]
    simp only [hin, not_false_eq_true, true_imp_iff]
    have hmem := @mem_rectIndices fb entry hfit.right hold (r * (fb.pitch / 4) + c)
    split_ifs with hk hrect hrect
    · simp [hmem.mp hk, hrect]
    · simp [hmem.mp hk, hrect, eq_comm]
    · simp [mt hmem.mpr hk, hrect]
    · simp [mt hmem.mpr hk, hrect]

/-- A window of one pixel in the second line. -/
def secondLine : State :=
  (State.init fun _ => 0).setWindow 0 (some ⟨⟨1, fun _ => 9⟩, 5, 1, 1, 0, 1, 0⟩)

/-- It is to move to the first line. -/
def moveUp : Request := { Request.zero with requestType := .move, callerPid := 5, structKey := 0 }

/-- Lines of four words for four pixels. -/
theorem unpadded_move_is_exact : ∃ entry, secondLine.windows 0 = some entry ∧
    MoveExact ⟨16, 4, 2⟩ 3 entry moveUp secondLine.screen
      (guiMoveWindow ⟨16, 4, 2⟩ 3 secondLine moveUp).1.screen := by
  have hwindows := @fits_setWindow ⟨16, 4, 2⟩ (fun _ => 0) 0 ⟨⟨1, fun _ => 9⟩, 5, 1, 1, 0, 1, 0⟩
    ⟨by decide, by decide, by decide, by decide, rfl⟩
  have hmoved : (guiMoveWindow ⟨16, 4, 2⟩ 3 secondLine moveUp).2 = true := by decide
  obtain ⟨entry, hentry, hiff⟩ := move_is_exact_iff hwindows (by decide) (by decide) hmoved
  refine ⟨entry, hentry, hiff.mpr fun r c hc _ => .inl ?_⟩
  cases hentry
  change c < 4 at hc
  change (∃ row < 1, ∃ col < 1, r * 4 + c = (1 + row) * 4 + (0 + col)) ↔
    (0 ≤ c ∧ c < 0 + 1) ∧ 1 ≤ r ∧ r < 1 + 1
  constructor
  · rintro ⟨row, hrow, col, hcol, heq⟩
    omega
  · rintro ⟨hcol, hrow⟩
    exact ⟨0, by decide, 0, by decide, by omega⟩

/-- With one word of padding in a line, the old pixel is not erased. -/
theorem padded_move_leaves_pixel : (guiMoveWindow ⟨20, 4, 2⟩ 3 secondLine moveUp).2 = true ∧
    ∃ entry, secondLine.windows 0 = some entry ∧
      ¬MoveExact ⟨20, 4, 2⟩ 3 entry moveUp secondLine.screen
        (guiMoveWindow ⟨20, 4, 2⟩ 3 secondLine moveUp).1.screen := by
  refine ⟨by decide, _, rfl, fun hexact => ?_⟩
  exact absurd (hexact 1 0 (by decide)) (by decide)

theorem copyWords_keepPairs (hr : r < height) (hc : c < width) :
    copyWords dst src (keepPairs entry width height) (r * width + c) =
      if r < entry.height ∧ c < entry.width then src (r * entry.width + c)
      else dst (r * width + c) := by
  have hplace {row col : ℕ} (hcol : col + 1 ≤ width) (heq : row * width + col = r * width + c) :
      r = row ∧ c = col := by
    obtain ⟨rfl, -⟩ := (in_row_iff hcol hc).mp ⟨heq.le, Nat.lt_succ_of_le heq.ge⟩
    omega
  have hmem {p : ℕ × ℕ} : p ∈ keepPairs entry width height ↔ ∃ row < min entry.height height,
      ∃ col < min entry.width width, (row * width + col, row * entry.width + col) = p := mem_grid
  split_ifs with hin
  · refine copyWords_of_mem (hmem.mpr ⟨r, by omega, c, by omega, rfl⟩) fun q hq heq => ?_
    obtain ⟨row, -, col, hcol, rfl⟩ := hmem.mp hq
    obtain ⟨rfl, rfl⟩ := hplace (by omega) heq
    rfl
  · refine copyWords_of_notMem fun p hp heq => hin ?_
    obtain ⟨row, hrow, col, hcol, rfl⟩ := hmem.mp hp
    obtain ⟨rfl, rfl⟩ := hplace (by omega) heq
    omega

/-- The request for one line more in the window. -/
def tallerRequest : Request := { tinyRequest with requestType := .resize, height := 3 }

end Taavi.Gui
