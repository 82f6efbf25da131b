import Taavi.Gui.Isolation

/-!
# What is drawn in a window

Where the words that a text and a sprite write lie in the buffer of their window. `draw_string`
checks one corner only, and `fb_fill_rect` adds with wrap-around.
-/

namespace Taavi.Gui

open Lib List

variable {fb : Framebuffer} {s : State} {entry : Blueprint} {params : GuiParams} {font : Font}
  {pid x y width fg bg : ℕ} {str : List UInt8}

section

/-- The words that an operation on a window wrote have a property. -/
def WritesOnly (s t : State) (key : ℕ) (entry : Blueprint) (P : ℕ → Prop) : Prop :=
  ∃ written : List ℕ, t.log = written.map (.pixels entry.pixels.size) ++ .table key :: s.log ∧
    ∀ i ∈ written, P i

variable {draw : Blueprint → Option Drawing} {writes : List (ℕ × ℕ)} {key : ℕ}

theorem onWindow_draw {drawing : Drawing} (hentry : s.windows key = some entry)
    (howner : entry.ownerPid = pid) (hdraw : draw entry = some drawing) :
    (onWindow s key pid draw).1.log =
        drawing.touched.map (.pixels entry.pixels.size) ++ .table key :: s.log ∧
      (onWindow s key pid draw).1.windows key = some { entry with
        pixels := { entry.pixels with word := drawing.word }
        dirtyFlag := 1 } := by
  have hentry' : (s.note [.table key]).windows key = some entry := hentry
  have howner' : ¬entry.ownerPid ≠ pid := not_not.mpr howner
  simp only [onWindow, hentry', if_neg howner', hdraw]
  exact ⟨rfl, assign_same _ _ _⟩

theorem writesOnly_iff {P : ℕ → Prop} (hentry : s.windows key = some entry)
    (howner : entry.ownerPid = pid) (hdraw : draw entry = some (.write entry.pixels.word writes)) :
    WritesOnly s (onWindow s key pid draw).1 key entry P ↔ ∀ p ∈ writes, P p.1 := by
  obtain ⟨hlog, -⟩ := onWindow_draw hentry howner hdraw
  constructor
  · rintro ⟨written, hwrote, hall⟩ p hp
    have hmaps := append_cancel_right (hwrote.symm.trans hlog)
    obtain rfl := (map_injective_iff.mpr fun _ _ => by simp) hmaps
    exact hall p.1 (mem_map_of_mem hp)
  · intro hall
    refine ⟨_, hlog, fun i hi => ?_⟩
    obtain ⟨p, hp, rfl⟩ := mem_map.mp hi
    exact hall p hp

theorem row_column {row col : ℕ} (hcol : col < width) :
    (row * width + col) / width = row ∧ (row * width + col) % width = col := by
  rw [mul_comm, Nat.mul_add_div (by omega), Nat.div_eq_of_lt hcol, Nat.mul_add_mod,
    Nat.mod_eq_of_lt hcol]
  exact ⟨rfl, rfl⟩

end

/-- The words of a window in the rows of a line of text, from its first column on. -/
def InLine (entry : Blueprint) (x y i : ℕ) : Prop :=
  i < entry.pixels.size ∧ y ≤ i / entry.width ∧ i / entry.width < y + fontHeight ∧
    x ≤ i % entry.width

def Drawn (c : UInt8) : Prop := c ≠ 10 ∧ c ≠ 9

def columnOf (x k : ℕ) : ℕ := (x + fontWidth * k) % 2 ^ 32

theorem mem_fbDrawChar {c : UInt8} {i : ℕ} :
    (∃ color, (i, color) ∈ fbDrawChar font x y width c fg bg) ↔
      c ≠ 0 ∧ Drawn c ∧ x < width ∧ ∃ row < fontHeight, ∃ col < fontWidth,
        i = ((y + row) * width + (x + col)) % 2 ^ 32 := by
  unfold fbDrawChar Drawn
  split_ifs with hskip
  · simp only [not_mem_nil, exists_false, false_iff]
    rintro ⟨hzero, ⟨hline, htab⟩, hx, -⟩
    rcases hskip with h | h | h | h
    · exact hzero h
    · exact hline h
    · exact htab h
    · omega
  · simp only [not_or, not_le] at hskip
    simp only [mem_flatMap, mem_map, mem_range, Prod.mk.injEq]
    constructor
    · rintro ⟨color, row, hrow, col, hcol, rfl, -⟩
      exact ⟨hskip.1, ⟨hskip.2.1, hskip.2.2.1⟩, hskip.2.2.2, row, hrow, col, hcol, rfl⟩
    · rintro ⟨-, -, -, row, hrow, col, hcol, rfl⟩
      exact ⟨_, row, hrow, col, hcol, rfl, rfl⟩

theorem mem_fbDrawString (hx : x < 2 ^ 32) {p : ℕ × ℕ} :
    p ∈ fbDrawString font x y width str fg bg ↔ ∃ (k : ℕ) (c : UInt8),
      (textOf str)[k]? = some c ∧ p ∈ fbDrawChar font (columnOf x k) y width c fg bg := by
  induction str generalizing x with
  | nil => simp [fbDrawString, textOf]
  | cons c str ih =>
    unfold fbDrawString
    split_ifs with hzero
    · simp [textOf, hzero]
    · have htext : textOf (c :: str) = c :: textOf str := by simp [textOf, hzero]
      have hfst : columnOf x 0 = x := by
        unfold columnOf
        omega
      have hnext : ∀ k, columnOf ((x + fontWidth) % 2 ^ 32) k = columnOf x (k + 1) := by
        intro k
        unfold columnOf fontWidth
        omega
      rw [mem_append, ih (Nat.mod_lt _ (by decide)), htext]
      simp only [hnext]
      constructor
      · rintro (hp | ⟨k, d, hd, hp⟩)
        · exact ⟨0, c, rfl, hfst.symm ▸ hp⟩
        · exact ⟨k + 1, d, hd, hp⟩
      · rintro ⟨_ | k, d, hd, hp⟩
        · cases hd
          exact .inl (hfst ▸ hp)
        · exact .inr ⟨k, d, hd, hp⟩

theorem Blueprint.Fits.glyph_lt (hfit : entry.Fits fb) (hfb : fb.Usual)
    (hwidth : entry.width < 2 ^ 16) (hy : y < entry.height) {row col : ℕ} (hrow : row < fontHeight)
    (hcol : col < entry.width + fontWidth) : (y + row) * entry.width + col < 2 ^ 32 := by
  have hsmall := hfb.small
  have harea := hfit.area_le
  have hrows : (y + row) * entry.width ≤ (entry.height + 15) * entry.width :=
    Nat.mul_le_mul_right _ (by unfold fontHeight at hrow; omega)
  rw [add_mul entry.height, mul_comm entry.height] at hrows
  unfold fontWidth at hcol
  omega

theorem ne_zero_of_textOf {k : ℕ} {c : UInt8} (h : (textOf str)[k]? = some c) : c ≠ 0 := by
  have hall := all_eq_true.mp
    (all_takeWhile (p := fun c : UInt8 => decide (c ≠ 0)) (l := str))
  exact of_decide_eq_true (hall c (mem_of_getElem? h))

/-- What `draw_string` writes lies in the window, in the rows of the text and not left of it,
exactly if every glyph that begins in the window does. -/
theorem text_stays_iff (hfit : entry.Fits fb) (hfb : fb.Usual) (hwidth : entry.width < 2 ^ 16)
    (hentry : s.windows params.structKey = some entry) (howner : entry.ownerPid = pid)
    (hbuf : params.buf = some str) (hx : params.x < entry.width) (hy : params.y < entry.height) :
    WritesOnly s (drawString font s params pid).1 params.structKey entry
        (InLine entry params.x params.y) ↔
      ∀ (k : ℕ) (c : UInt8), (textOf str)[k]? = some c → Drawn c →
        columnOf params.x k < entry.width →
          params.x ≤ columnOf params.x k ∧ columnOf params.x k + fontWidth ≤ entry.width ∧
            params.y + fontHeight ≤ entry.height := by
  have hsmall : params.x < 2 ^ 32 := by omega
  have hpos := hfit.width_pos
  -- the words of a glyph that begins in the window
  have hword : ∀ {k row col : ℕ}, columnOf params.x k < entry.width → row < fontHeight →
      col < fontWidth → ((params.y + row) * entry.width + (columnOf params.x k + col)) % 2 ^ 32 =
        (params.y + row) * entry.width + (columnOf params.x k + col) := by
    intro k row col hk hrow hcol
    exact Nat.mod_eq_of_lt (hfit.glyph_lt hfb hwidth hy hrow (by omega))
  refine (writesOnly_iff hentry howner (?_ : _ = some (Drawing.write _ (fbDrawString font params.x
    params.y entry.width str params.fgColor params.bgColor)))).trans ⟨?_, ?_⟩
  · rw [hbuf]
    exact if_neg (by omega)
  · intro hall k c hc hdrawn hk
    have hin : ∀ row < fontHeight, ∀ col < fontWidth, InLine entry params.x params.y
        ((params.y + row) * entry.width + (columnOf params.x k + col)) := by
      intro row hrow col hcol
      obtain ⟨color, hmem⟩ := mem_fbDrawChar.mpr
        ⟨ne_zero_of_textOf hc, hdrawn, hk, row, hrow, col, hcol, (hword hk hrow hcol).symm⟩
      exact hall _ ((mem_fbDrawString hsmall).mpr ⟨k, c, hc, hmem⟩)
    obtain ⟨-, -, -, hleft⟩ := hin 0 (by decide) 0 (by decide)
    obtain ⟨hsize, -, hrow, -⟩ := hin 15 (by decide) 7 (by decide)
    rw [add_zero, add_zero, (row_column hk).2] at hleft
    rw [Nat.div_lt_iff_lt_mul hpos] at hrow
    rw [hfit.size, mul_comm entry.width] at hsize
    have hright : columnOf params.x k + 7 < entry.width := by
      have hnext : (params.y + fontHeight) * entry.width =
          (params.y + 15) * entry.width + entry.width := Nat.succ_mul ..
      omega
    have hbottom : params.y + 15 < entry.height := by
      refine Nat.lt_of_mul_lt_mul_right (a := entry.width) ?_
      omega
    unfold fontWidth fontHeight
    omega
  · intro hfits p hp
    obtain ⟨k, c, hc, hmem⟩ := (mem_fbDrawString hsmall).mp hp
    obtain ⟨-, hdrawn, hk, row, hrow, col, hcol, hi⟩ := mem_fbDrawChar.mp ⟨p.2, hmem⟩
    obtain ⟨hleft, hright, hbottom⟩ := hfits k c hc hdrawn hk
    rw [hi, hword hk hrow hcol]
    have hcolumn : columnOf params.x k + col < entry.width := by omega
    refine ⟨?_, ?_⟩
    · rw [hfit.size, mul_comm entry.width]
      exact index_lt (by omega) hcolumn
    · rw [(row_column hcolumn).1, (row_column hcolumn).2]
      omega

def oneWindow : State :=
  (State.init fun _ => 0).setWindow 0 (some ⟨⟨16 * 32, fun _ => 0⟩, 5, 16, 32, 0, 0, 0⟩)

theorem oneWindow_fits : Blueprint.Fits ⟨64, 16, 32⟩ ⟨⟨16 * 32, fun _ => 0⟩, 5, 16, 32, 0, 0, 0⟩ :=
  ⟨by decide, by decide, by decide, by decide, rfl⟩

/-- A text of one character at a column of the first row. -/
def oneGlyph (x : ℕ) : GuiParams :=
  { WindowSystem.plainParams .writeAt 0 with buf := some [65, 0], x, y := 0 }

/-- A glyph in the last columns. -/
theorem last_glyph_stays : ∃ entry, oneWindow.windows 0 = some entry ∧
    WritesOnly oneWindow (drawString (fun _ _ => 0) oneWindow (oneGlyph 8) 5).1 0 entry
      (InLine entry 8 0) := by
  refine ⟨_, rfl, (text_stays_iff oneWindow_fits ⟨by decide, by decide⟩ (by decide) rfl rfl rfl
    (by decide) (by decide)).mpr fun k c hc _ hk => ?_⟩
  obtain rfl : k = 0 := by
    by_contra hne
    obtain ⟨k, rfl⟩ := Nat.exists_eq_succ_of_ne_zero hne
    cases hc
  decide

/-- A glyph that runs over the right edge changes the left columns. -/
theorem glyph_over_edge : ∃ entry, oneWindow.windows 0 = some entry ∧
    ¬WritesOnly oneWindow (drawString (fun _ _ => 0) oneWindow (oneGlyph 12) 5).1 0 entry
      (InLine entry 12 0) := by
  refine ⟨_, rfl, fun hstays => ?_⟩
  obtain ⟨written, hlog, hall⟩ := hstays
  have hmem : Access.pixels 512 16 ∈
      (drawString (fun _ _ => 0) oneWindow (oneGlyph 12) 5).1.log := by decide
  rw [hlog] at hmem
  have hwritten : 16 ∈ written := by simpa [oneWindow, State.init, State.setWindow] using hmem
  exact absurd (hall 16 hwritten).2.2.2 (by decide)

variable {word : ℕ → ℕ} {writes : List (ℕ × ℕ)} {i color : ℕ} {sprite : List UInt32}

theorem Drawing.write_of_not_mem (h : ∀ p ∈ writes, p.1 ≠ i) :
    (Drawing.write word writes).word i = word i := by
  unfold Drawing.write
  induction writes generalizing word with
  | nil => rfl
  | cons p writes ih =>
    rw [forall_mem_cons] at h
    exact (ih h.2).trans (assign_of_ne _ _ (Ne.symm h.1))

theorem Drawing.write_of_mem (hmem : ∃ p ∈ writes, p.1 = i)
    (hsame : ∀ p ∈ writes, p.1 = i → p.2 = color) : (Drawing.write word writes).word i = color := by
  induction writes generalizing word with
  | nil => simp at hmem
  | cons p writes ih =>
    rw [forall_mem_cons] at hsame
    by_cases hrest : ∃ q ∈ writes, q.1 = i
    · exact ih hrest hsame.2
    · have hfst : p.1 = i := by simpa [hrest] using hmem
      have hlast : (Drawing.write (assign word p.1 p.2) writes).word i = assign word p.1 p.2 i :=
        Drawing.write_of_not_mem fun q hq hqi => hrest ⟨q, hq, hqi⟩
      refine hlast.trans ?_
      rw [← hsame.1 hfst, ← hfst, assign_same]

def cellColor (params : GuiParams) (sprite : List UInt32) (row col : ℕ) : ℕ :=
  (sprite.getD ((row * params.width + col) % 2 ^ 32) 0).toNat

def BlockInside (params : GuiParams) (width height row col : ℕ) : Prop :=
  params.x + (col + 1) * params.scale ≤ width ∧ params.y + (row + 1) * params.scale ≤ height

/-- The test of `fb_fill_rect` for the block of a cell. -/
def BlockAccepted (params : GuiParams) (width height row col : ℕ) : Prop :=
  (params.x + (col + 1) * params.scale) % 2 ^ 32 ≤ width ∧
    (params.y + (row + 1) * params.scale) % 2 ^ 32 ≤ height

instance (params : GuiParams) (width height row col : ℕ) :
    Decidable (BlockInside params width height row col) := inferInstanceAs (Decidable (_ ∧ _))

def spritePixel (params : GuiParams) (sprite : List UInt32) (entry : Blueprint) (px py : ℕ) : ℕ :=
  let col := (px - params.x) / params.scale
  let row := (py - params.y) / params.scale
  if params.x ≤ px ∧ params.y ≤ py ∧ col < params.width ∧ row < params.height ∧
      cellColor params sprite row col ≠ transparent ∧
      BlockInside params entry.width entry.height row col then cellColor params sprite row col
  else entry.pixels.word (py * entry.width + px)

/-- A sprite is drawn in a window, and if its cells have a size, it is drawn exactly. -/
def SpriteExact (s t : State) (params : GuiParams) (sprite : List UInt32) (entry : Blueprint) :
    Prop :=
  WritesOnly s t params.structKey entry (· < entry.pixels.size) ∧
    (1 ≤ params.scale → ∃ entry', t.windows params.structKey = some entry' ∧
      ∀ px < entry.width, ∀ py < entry.height,
        entry'.pixels.word (py * entry.width + px) = spritePixel params sprite entry px py)

theorem mem_fillWindow {w h : ℕ} {p : ℕ × ℕ} : p ∈ fillWindow entry x y w h color ↔
    ((x + w) % 2 ^ 32 ≤ entry.width ∧ (y + h) % 2 ^ 32 ≤ entry.height) ∧ p.2 = color ∧
      ∃ a < w, ∃ b < h, p.1 = ((y + b) * entry.width + (x + a)) % 2 ^ 32 := by
  unfold fillWindow fbFillRect
  split_ifs with hout
  · simp only [Option.getD_none, map_nil, not_mem_nil, false_iff]
    rintro ⟨hin, -⟩
    omega
  · rw [not_or, not_lt, not_lt] at hout
    simp only [Option.getD_some, rectIndices, mem_map, mem_grid]
    constructor
    · rintro ⟨i, ⟨a, ha, b, hb, rfl⟩, rfl⟩
      exact ⟨hout, rfl, a, ha, b, hb, rfl⟩
    · rintro ⟨-, hcolor, a, ha, b, hb, hi⟩
      exact ⟨p.1, ⟨a, ha, b, hb, hi.symm⟩, Prod.ext rfl hcolor.symm⟩

theorem mem_spriteWrites {p : ℕ × ℕ} : p ∈ spriteWrites params sprite entry ↔
    ∃ row < params.height, ∃ col < params.width, p.2 = cellColor params sprite row col ∧
      p.2 ≠ transparent ∧ BlockAccepted params entry.width entry.height row col ∧
      ∃ a < params.scale, ∃ b < params.scale, p.1 =
        (((params.y + row * params.scale) % 2 ^ 32 + b) * entry.width +
          ((params.x + col * params.scale) % 2 ^ 32 + a)) % 2 ^ 32 := by
  have hcell : ∀ row col, (p ∈ if cellColor params sprite row col = transparent then [] else
      fillWindow entry ((params.x + col * params.scale) % 2 ^ 32)
        ((params.y + row * params.scale) % 2 ^ 32) params.scale params.scale
        (cellColor params sprite row col)) ↔
      p.2 = cellColor params sprite row col ∧ p.2 ≠ transparent ∧
        BlockAccepted params entry.width entry.height row col ∧
        ∃ a < params.scale, ∃ b < params.scale, p.1 =
          (((params.y + row * params.scale) % 2 ^ 32 + b) * entry.width +
            ((params.x + col * params.scale) % 2 ^ 32 + a)) % 2 ^ 32 := by
    intro row col
    split_ifs with hclear
    · simp only [not_mem_nil, false_iff]
      rintro ⟨hcolor, hne, -⟩
      exact hne (hcolor.trans hclear)
    · rw [mem_fillWindow, Nat.mod_add_mod, Nat.mod_add_mod, add_assoc, add_assoc,
        ← Nat.succ_mul, ← Nat.succ_mul]
      constructor
      · rintro ⟨hacc, hcolor, hword⟩
        exact ⟨hcolor, hcolor ▸ hclear, hacc, hword⟩
      · rintro ⟨hcolor, -, hacc, hword⟩
        exact ⟨hacc, hcolor, hword⟩
  simp only [spriteWrites, mem_flatMap, mem_range]
  exact exists_congr fun row => and_congr_right fun _ => exists_congr fun col =>
    and_congr_right fun _ => hcell row col

theorem blockWord (hfit : entry.Fits fb) (hfb : fb.Usual) {row col a b : ℕ}
    (hinside : BlockInside params entry.width entry.height row col) (ha : a < params.scale)
    (hb : b < params.scale) :
    params.x + col * params.scale + a < entry.width ∧
      params.y + row * params.scale + b < entry.height ∧
      (((params.y + row * params.scale) % 2 ^ 32 + b) * entry.width +
        ((params.x + col * params.scale) % 2 ^ 32 + a)) % 2 ^ 32 =
      (params.y + row * params.scale + b) * entry.width + (params.x + col * params.scale + a) := by
  obtain ⟨hright, hbottom⟩ := hinside
  rw [Nat.succ_mul] at hright hbottom
  obtain ⟨hw, hh⟩ := hfit.sides_lt hfb
  have hx : params.x + col * params.scale + a < entry.width := by omega
  have hy : params.y + row * params.scale + b < entry.height := by omega
  have harea := hfit.area_le
  have hindex := index_lt hy hx
  have hsmall := hfb.small
  rw [mul_comm] at harea
  have hleft : (params.x + col * params.scale) % 2 ^ 32 = params.x + col * params.scale :=
    Nat.mod_eq_of_lt (by omega)
  have htop : (params.y + row * params.scale) % 2 ^ 32 = params.y + row * params.scale :=
    Nat.mod_eq_of_lt (by omega)
  rw [hleft, htop, Nat.mod_eq_of_lt (by omega)]
  exact ⟨hx, hy, rfl⟩

theorem sprite_exact (hfit : entry.Fits fb) (hfb : fb.Usual)
    (hentry : s.windows params.structKey = some entry) (howner : entry.ownerPid = pid)
    (hsprite : params.pixels = some sprite)
    (hblocks : ∀ row < params.height, ∀ col < params.width,
      BlockAccepted params entry.width entry.height row col →
        BlockInside params entry.width entry.height row col) :
    SpriteExact s (drawSprite s params pid).1 params sprite entry := by
  have hdraw : params.pixels.map (fun sprite =>
      Drawing.write entry.pixels.word (spriteWrites params sprite entry)) =
      some (Drawing.write entry.pixels.word (spriteWrites params sprite entry)) := by
    rw [hsprite, Option.map_some]
  refine ⟨(writesOnly_iff hentry howner hdraw).mpr fun p hp => ?_, fun hscale =>
    ⟨_, (onWindow_draw hentry howner hdraw).2, fun px hpx py hpy => ?_⟩⟩
  · obtain ⟨row, hrow, col, hcol, -, -, hacc, a, ha, b, hb, hi⟩ := mem_spriteWrites.mp hp
    obtain ⟨hx, hy, hword⟩ := blockWord hfit hfb (hblocks row hrow col hcol hacc) ha hb
    rw [hi, hword, hfit.size, mul_comm entry.width]
    exact index_lt hy hx
  -- the cell of a write to the pixel
  have hcell : ∀ p ∈ spriteWrites params sprite entry, p.1 = py * entry.width + px →
      params.x ≤ px ∧ params.y ≤ py ∧ (px - params.x) / params.scale < params.width ∧
        (py - params.y) / params.scale < params.height ∧
        p.2 = cellColor params sprite ((py - params.y) / params.scale)
          ((px - params.x) / params.scale) ∧ p.2 ≠ transparent ∧
        BlockInside params entry.width entry.height ((py - params.y) / params.scale)
          ((px - params.x) / params.scale) := by
    intro p hp hpixel
    obtain ⟨row, hrow, col, hcol, hcolor, hclear, hacc, a, ha, b, hb, hi⟩ :=
      mem_spriteWrites.mp hp
    have hinside := hblocks row hrow col hcol hacc
    obtain ⟨hx, hy, hword⟩ := blockWord hfit hfb hinside ha hb
    have hsame := hword.symm.trans (hi.symm.trans hpixel)
    have hpy : params.y + row * params.scale + b = py :=
      (row_column hx).1.symm.trans ((congrArg (· / entry.width) hsame).trans (row_column hpx).1)
    have hpx' : params.x + col * params.scale + a = px :=
      (row_column hx).2.symm.trans ((congrArg (· % entry.width) hsame).trans (row_column hpx).2)
    have hcol' : (px - params.x) / params.scale = col := by
      rw [← hpx', add_assoc, Nat.add_sub_cancel_left, (row_column ha).1]
    have hrow' : (py - params.y) / params.scale = row := by
      rw [← hpy, add_assoc, Nat.add_sub_cancel_left, (row_column hb).1]
    rw [hcol', hrow']
    exact ⟨by omega, by omega, hcol, hrow, hcolor, hclear, hinside⟩
  unfold spritePixel
  dsimp only
  split_ifs with hshown
  · obtain ⟨hx, hy, hcol, hrow, hclear, hinside⟩ := hshown
    refine Drawing.write_of_mem ⟨(py * entry.width + px, _), mem_spriteWrites.mpr
      ⟨_, hrow, _, hcol, rfl, hclear, ?_, (px - params.x) % params.scale, Nat.mod_lt _ hscale,
        (py - params.y) % params.scale, Nat.mod_lt _ hscale, ?_⟩, rfl⟩
      fun p hp hpixel => (hcell p hp hpixel).2.2.2.2.1
    · exact ⟨(Nat.mod_le _ _).trans hinside.1, (Nat.mod_le _ _).trans hinside.2⟩
    · rw [(blockWord hfit hfb hinside (Nat.mod_lt _ hscale) (Nat.mod_lt _ hscale)).2.2,
        add_assoc, add_assoc, Nat.div_add_mod', Nat.div_add_mod', Nat.add_sub_of_le hx,
        Nat.add_sub_of_le hy]
  · refine Drawing.write_of_not_mem fun p hp hpixel => hshown ?_
    obtain ⟨hx, hy, hcol, hrow, hcolor, hclear, hinside⟩ := hcell p hp hpixel
    exact ⟨hx, hy, hcol, hrow, hcolor ▸ hclear, hinside⟩

theorem getD_oneCell (n k : ℕ) :
    (List.replicate n (0 : UInt32) ++ [1]).getD k 0 = if k = n then 1 else 0 := by
  rcases lt_trichotomy k n with hk | rfl | hk
  · simp [List.getElem?_append, hk, hk.ne]
  · simp
  · have hbehind : (List.replicate n (0 : UInt32) ++ [1]).length ≤ k := by
      rw [length_append, length_replicate]
      exact hk
    simp [List.getElem?_eq_none hbehind, hk.ne']

/-- For all 32-bit numbers of a request, a sprite that fits into memory is drawn in the window and
exactly, if and only if no block of a cell passes the test of `fb_fill_rect` by wrap-around. -/
theorem sprite_exact_iff {window : Blueprint} (hfit : window.Fits fb) (hfb : fb.Usual)
    (hcells : params.width * params.height ≤ 2 ^ 32) :
    (∀ (s : State) (entry : Blueprint) (sprite : List UInt32),
        s.windows params.structKey = some entry → entry.Fits fb → entry.ownerPid = pid →
        entry.width = window.width → entry.height = window.height →
        SpriteExact s (drawSprite s { params with pixels := some sprite } pid).1
          { params with pixels := some sprite } sprite entry) ↔
      params.scale = 0 ∨ ∀ row < params.height, ∀ col < params.width,
        BlockAccepted params window.width window.height row col →
          BlockInside params window.width window.height row col := by
  constructor
  · intro hexact
    by_contra hnot
    simp only [not_or, not_forall] at hnot
    obtain ⟨hscale, row, hrow, col, hcol, haccepted, hinside⟩ := hnot
    have hpos : 0 < params.scale := Nat.pos_of_ne_zero hscale
    -- a sprite with one visible cell, in an empty window
    let n := row * params.width + col
    have hn : n < 2 ^ 32 := (index_lt hrow hcol).trans_le (by rwa [mul_comm])
    let sprite : List UInt32 := List.replicate n 0 ++ [1]
    let entry : Blueprint :=
      { window with pixels := ⟨window.pixels.size, fun _ => 0⟩, ownerPid := pid }
    let request : GuiParams := { params with pixels := some sprite }
    let s : State := (State.init fun _ => 0).setWindow params.structKey (some entry)
    have hwindow : s.windows params.structKey = some entry := assign_same _ _ _
    obtain ⟨hwrites, hpixels⟩ := hexact s entry sprite hwindow
      { hfit with } rfl rfl rfl
    have hdraw : request.pixels.map (fun sprite =>
        Drawing.write entry.pixels.word (spriteWrites request sprite entry)) =
        some (Drawing.write entry.pixels.word (spriteWrites request sprite entry)) := rfl
    have hcolor : ∀ r c, cellColor request sprite r c =
        if (r * params.width + c) % 2 ^ 32 = n then 1 else 0 := by
      intro r c
      unfold cellColor
      rw [getD_oneCell]
      split_ifs <;> rfl
    have hcell : cellColor request sprite row col = 1 := by
      rw [hcolor, if_pos (Nat.mod_eq_of_lt hn)]
    have hone : ∀ p ∈ spriteWrites request sprite entry, p.2 = 1 := by
      intro p hp
      obtain ⟨r, -, c, -, hp, hclear, -⟩ := mem_spriteWrites.mp hp
      rw [hp, hcolor] at hclear ⊢
      split_ifs at hclear ⊢
      · rfl
      · exact absurd rfl hclear
    obtain ⟨i, hi⟩ : ∃ i, (i, 1) ∈ spriteWrites request sprite entry :=
      ⟨_, mem_spriteWrites.mpr ⟨row, hrow, col, hcol, hcell.symm, Nat.one_ne_zero, haccepted, 0, hpos,
        0, hpos, rfl⟩⟩
    have hlt : i < window.width * window.height :=
      hfit.size ▸ (writesOnly_iff hwindow rfl hdraw).mp hwrites (i, 1) hi
    obtain ⟨entry', hentry', hword⟩ := hpixels hpos
    cases hentry'.symm.trans (onWindow_draw hwindow rfl hdraw).2
    have hpixel := hword (i % window.width) (Nat.mod_lt _ hfit.width_pos) (i / window.width)
      (Nat.div_lt_of_lt_mul hlt)
    rw [Nat.div_add_mod'] at hpixel
    have hdrawn := hpixel.symm.trans (Drawing.write_of_mem ⟨_, hi, rfl⟩ fun p hp _ => hone p hp)
    -- no cell is to be seen at the pixel
    unfold spritePixel at hdrawn
    dsimp only at hdrawn
    split_ifs at hdrawn with hshown
    obtain ⟨-, -, hc, hr, hclear, hblock⟩ := hshown
    rw [hcolor] at hclear
    split_ifs at hclear with hindex
    · rw [Nat.mod_eq_of_lt ((index_lt hr hc).trans_le (by rwa [mul_comm]))] at hindex
      have hr' := (row_column hc).1.symm.trans
        ((congrArg (· / params.width) hindex).trans (row_column hcol).1)
      have hc' := (row_column hc).2.symm.trans
        ((congrArg (· % params.width) hindex).trans (row_column hcol).2)
      rw [hr', hc'] at hblock
      exact hinside hblock
    · exact hclear rfl
  · rintro (hscale | hblocks) s entry sprite hentry hfit' howner hwidth hheight
    · refine ⟨(writesOnly_iff hentry howner rfl).mpr fun p hp => ?_, fun h => ?_⟩
      · obtain ⟨row, -, col, -, -, -, -, a, ha, -⟩ := mem_spriteWrites.mp hp
        exact absurd (hscale ▸ ha) (Nat.not_lt_zero a)
      · exact absurd (hscale ▸ h) (by decide)
    · rw [← hwidth, ← hheight] at hblocks
      exact sprite_exact hfit' hfb hentry howner rfl hblocks

/-- A sprite of two by two cells near the corner of the window. -/
theorem small_sprite_is_exact :
    (WindowSystem.plainParams .draw 0).scale = 1 ∧ ∀ s entry sprite,
      s.windows 0 = some entry → entry.Fits ⟨64, 16, 32⟩ → entry.ownerPid = 5 →
      entry.width = 16 → entry.height = 32 →
      SpriteExact s (drawSprite s { WindowSystem.plainParams .draw 0 with pixels := some sprite } 5).1
        { WindowSystem.plainParams .draw 0 with pixels := some sprite } sprite entry := by
  have hblocks : ∀ row < 2, ∀ col < 2, BlockAccepted (WindowSystem.plainParams .draw 0) 16 32 row col →
      BlockInside (WindowSystem.plainParams .draw 0) 16 32 row col := by
    intro row hrow col hcol _
    simp only [BlockInside, WindowSystem.plainParams]
    omega
  have hcells : (WindowSystem.plainParams .draw 0).width * (WindowSystem.plainParams .draw 0).height ≤
      2 ^ 32 := by decide
  exact ⟨rfl, (sprite_exact_iff oneWindow_fits ⟨by decide, by decide⟩ hcells).mpr (.inr hblocks)⟩

/-- One cell of two by two pixels that begins left of the window by wrap-around. -/
def wrappedSprite : GuiParams :=
  { WindowSystem.plainParams .draw 0 with
    pixels := some [7], width := 1, height := 1, x := 2 ^ 32 - 1, y := 0, scale := 2 }

/-- The cell is drawn before the beginning of the pixel buffer. -/
theorem sprite_before_window : ∃ entry, oneWindow.windows 0 = some entry ∧
    ¬SpriteExact oneWindow (drawSprite oneWindow wrappedSprite 5).1 wrappedSprite [7] entry := by
  refine ⟨_, rfl, fun hexact => ?_⟩
  obtain ⟨written, hlog, hall⟩ := hexact.1
  have hmem : Access.pixels 512 (2 ^ 32 - 1) ∈ (drawSprite oneWindow wrappedSprite 5).1.log := by
    decide +kernel
  rw [hlog] at hmem
  have hwritten : 2 ^ 32 - 1 ∈ written := by
    simpa [oneWindow, State.init, State.setWindow] using hmem
  exact absurd (hall _ hwritten) (by decide)

end Taavi.Gui
