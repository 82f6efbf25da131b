import Taavi.Kernel.Protocol

/-!
# Regions of a viewport

`gfx_register_region` and `gfx_fill_rect` of `userspace/library/gfx/render.c` fit a rectangle into a
viewport, with sums that wrap around.
-/

namespace Taavi.User

open Lib

/-- `gfx_region_t`. -/
structure GfxRegion where
  id : ℕ
  str : Option (List UInt8)
  width : ℕ
  height : ℕ
  cursorX : ℕ
  cursorY : ℕ
  offsetX : ℕ
  offsetY : ℕ
  paddingX : ℕ
  paddingY : ℕ
  borderWidth : ℕ
  borderColor : ℕ
  fgColor : ℕ
  bgColor : ℕ

def maxRegions : ℕ := 255

def primaryViewportId : ℕ := 0

def colorDarkerGray : ℕ := 0x202020

/-- A difference of 32-bit numbers. -/
def sub32 (a b : ℕ) : ℕ := (a + 2 ^ 32 - b) % 2 ^ 32

/-- The tests of a length against the border, for a position and the side of the viewport. -/
def clampLength (side border pos len : ℕ) : ℕ :=
  if sub32 side border ≤ pos then 0
  else if sub32 side border < (pos + len) % 2 ^ 32 then sub32 (sub32 side border) pos
  else len

/-- `max_w` and `max_h`. -/
def maxLength (side border : ℕ) : ℕ :=
  if border * 2 % 2 ^ 32 < side then side - border * 2 % 2 ^ 32 else 0

/-- A side of the rectangle as `gfx_fill_rect` fits it: its position and its length. -/
def fillSide (side border pos len : ℕ) : ℕ × ℕ :=
  let pos := if pos < border then border else pos
  let len := clampLength side border pos len
  (pos, if maxLength side border < len then maxLength side border else len)

/-- A side as `gfx_register_region` fits it. -/
def regionSide (side border pos len : ℕ) : ℕ × ℕ :=
  let pos := if pos < border then border else pos
  let len := clampLength side border pos len
  (pos, if maxLength side border ≤ len then maxLength side border else len)

def gfxHomeCursor (entry : GfxRegion) : GfxRegion :=
  let home (offset padding : ℕ) := (offset + entry.borderWidth + padding) % 2 ^ 32
  let last (offset length : ℕ) := (offset + (length - 1)) % 2 ^ 32
  { entry with
    cursorX := min (last entry.offsetX entry.width) (home entry.offsetX entry.paddingX)
    cursorY := min (last entry.offsetY entry.height) (home entry.offsetY entry.paddingY) }

section

variable (regions : ℕ → Option GfxRegion) (x y width height : ℕ)

/-- `gfx_register_region`: the slot, if there is one, for given outcomes of the calls of `malloc`. -/
def gfxRegisterRegion (fgColor bgColor : ℕ) (str : Option (List UInt8)) (okEntry okStr : Bool) :
    (ℕ → Option GfxRegion) × Option ℕ :=
  match (List.range maxRegions).find? fun i => (regions i).isNone, regions primaryViewportId with
  | some slot, some parent =>
    if okEntry = false ∨ (str.isSome ∧ okStr = false) then (regions, none)
    else
      let side := regionSide parent.width parent.borderWidth x width
      let side' := regionSide parent.height parent.borderWidth y height
      let entry : GfxRegion :=
        { id := parent.id, str, width := side.2, height := side'.2, cursorX := 0, cursorY := 0
          offsetX := side.1, offsetY := side'.1, paddingX := 0, paddingY := 0, borderWidth := 0
          borderColor := colorDarkerGray, fgColor, bgColor }
      (assign regions slot (some (gfxHomeCursor entry)), some slot)
  | _, _ => (regions, none)

/-- `gfx_fill_rect`: what it passes to `sys_conwi`. -/
def gfxFillRect (color : ℕ) : Option GuiParams :=
  (regions primaryViewportId).map fun entry =>
    let side := fillSide entry.width entry.borderWidth x width
    let side' := fillSide entry.height entry.borderWidth y height
    { buf := none, pixels := none, bufferSize := 0, width := side.2, height := side'.2
      x := side.1, y := side'.1, fgColor := entry.fgColor, bgColor := color, scale := 0
      structKey := entry.id, opcode := .paintWindow }

end

variable {side border pos len : ℕ}

/-- A side lies inside the border. -/
def InBorder (side border pos len : ℕ) : Prop := border ≤ pos ∧ pos + len ≤ side - border

/-- The end of a side wraps around to a place inside the border. -/
def Wraps (side border pos len : ℕ) : Prop :=
  border < pos ∧ pos < side - border ∧ 2 ^ 32 ≤ pos + len ∧ pos + len ≤ 2 ^ 32 + (side - border)

/-- What `gfx_fill_rect` and `gfx_register_region` do to a side. -/
theorem fitted_side (hside : 2 * border < side) (hsmall : side < 65536) (hpos : pos < 2 ^ 32)
    (hlen : len < 2 ^ 32) {r : ℕ × ℕ}
    (hr : r = fillSide side border pos len ∨ r = regionSide side border pos len) :
    (r.2 = 0 ↔ len = 0 ∨ side - border ≤ pos) ∧
      (Wraps side border pos len ↔ r.2 ≠ 0 ∧ ¬InBorder side border r.1 r.2) ∧
      (InBorder side border pos len → r = (pos, len)) := by
  have hmax : maxLength side border = side - 2 * border := by
    unfold maxLength
    split_ifs <;> omega
  have hlimit : sub32 side border = side - border := by
    unfold sub32
    omega
  have hcases : r.1 = max border pos ∧
      r.2 = min (side - 2 * border) (clampLength side border (max border pos) len) := by
    have hpos' : (if pos < border then border else pos) = max border pos := by
      split_ifs <;> omega
    rcases hr with rfl | rfl
    all_goals
      simp only [fillSide, regionSide, hpos', hmax, true_and]
      split_ifs <;> omega
  have hleft : max border pos < side - border →
      sub32 (side - border) (max border pos) = side - border - max border pos := by
    unfold sub32
    omega
  obtain ⟨start, length⟩ := r
  obtain ⟨rfl, hlength⟩ := hcases
  unfold clampLength at hlength
  rw [hlimit] at hlength
  unfold Wraps InBorder
  refine ⟨?_, ?_, fun hin => Prod.ext ?_ ?_⟩
  all_goals
    dsimp only at hlength ⊢
    split_ifs at hlength <;> omega

/-- A rectangle for a request has no area or lies inside the border of the viewport, and it is the
one that was asked for if that lies there. -/
def Clamped (parent : GfxRegion) (x y width height x' y' width' height' : ℕ) : Prop :=
  (width' = 0 ∨ height' = 0 ∨ InBorder parent.width parent.borderWidth x' width' ∧
    InBorder parent.height parent.borderWidth y' height') ∧
  (InBorder parent.width parent.borderWidth x width →
    InBorder parent.height parent.borderWidth y height →
    (x', width') = (x, width) ∧ (y', height') = (y, height))

/-- No side wraps around, unless the other one leaves no area. -/
def Unwrapped (parent : GfxRegion) (x y width height : ℕ) : Prop :=
  (Wraps parent.width parent.borderWidth x width →
    height = 0 ∨ parent.height - parent.borderWidth ≤ y) ∧
  (Wraps parent.height parent.borderWidth y height →
    width = 0 ∨ parent.width - parent.borderWidth ≤ x)

variable {regions : ℕ → Option GfxRegion} {parent : GfxRegion} {x y width height : ℕ}

/-- For every viewport that is larger than its border and every request: the rectangles are right if
and only if no side wraps around to a place inside the border, unless there is no area anyway. -/
theorem regions_are_clamped_iff (hparent : regions primaryViewportId = some parent)
    (hwidth : 2 * parent.borderWidth < parent.width) (hwidth' : parent.width < 65536)
    (hheight : 2 * parent.borderWidth < parent.height) (hheight' : parent.height < 65536)
    (hx : x < 2 ^ 32) (hy : y < 2 ^ 32) (hw : width < 2 ^ 32) (hh : height < 2 ^ 32) :
    ((∀ color params, gfxFillRect regions x y width height color = some params →
        Clamped parent x y width height params.x params.y params.width params.height) ∧
      ∀ fg bg str okEntry okStr slot entry,
        (gfxRegisterRegion regions x y width height fg bg str okEntry okStr).2 = some slot →
        (gfxRegisterRegion regions x y width height fg bg str okEntry okStr).1 slot = some entry →
        Clamped parent x y width height entry.offsetX entry.offsetY entry.width entry.height) ↔
    Unwrapped parent x y width height := by
  have hclamped {r r' : ℕ × ℕ}
      (hr : r = fillSide parent.width parent.borderWidth x width ∨
        r = regionSide parent.width parent.borderWidth x width)
      (hr' : r' = fillSide parent.height parent.borderWidth y height ∨
        r' = regionSide parent.height parent.borderWidth y height) :
      Clamped parent x y width height r.1 r'.1 r.2 r'.2 ↔
        Unwrapped parent x y width height := by
    obtain ⟨hzero, hwraps, hsame⟩ := fitted_side hwidth hwidth' hx hw hr
    obtain ⟨hzero', hwraps', hsame'⟩ := fitted_side hheight hheight' hy hh hr'
    unfold Clamped Unwrapped
    rw [← hzero, ← hzero', hwraps, hwraps', and_iff_left fun h h' => ⟨hsame h, hsame' h'⟩]
    grind
  constructor
  · rintro ⟨hfill, -⟩
    obtain ⟨params, hparams⟩ : ∃ params, gfxFillRect regions x y width height 0 = some params :=
      ⟨_, by rw [gfxFillRect, hparent]; rfl⟩
    have hrect := hfill 0 params hparams
    rw [gfxFillRect, hparent] at hparams
    cases hparams
    exact (hclamped (.inl rfl) (.inl rfl)).mp hrect
  · intro hcond
    refine ⟨fun color params hparams => ?_, fun fg bg str okEntry okStr slot entry hslot hentry => ?_⟩
    · rw [gfxFillRect, hparent] at hparams
      cases hparams
      exact (hclamped (.inl rfl) (.inl rfl)).mpr hcond
    · unfold gfxRegisterRegion at hslot hentry
      rw [hparent] at hslot hentry
      cases hfree : (List.range maxRegions).find? fun i => (regions i).isNone with
      | none =>
        rw [hfree] at hslot
        cases hslot
      | some i =>
        rw [hfree] at hslot hentry
        dsimp only at hslot hentry
        split_ifs at hslot hentry
        cases hslot
        cases (assign_same _ _ _).symm.trans hentry
        exact (hclamped (.inr rfl) (.inr rfl)).mpr hcond

/-- A viewport of 100 by 100 pixels with a border of two. -/
def viewport : GfxRegion := ⟨0, none, 100, 100, 2, 2, 0, 0, 0, 0, 2, 0, 0, 0⟩

theorem small_region_is_clamped : ∃ params,
    gfxFillRect (fun _ => some viewport) 90 10 20 5 0 = some params ∧
      Clamped viewport 90 10 20 5 params.x params.y params.width params.height := by
  have hiff := @regions_are_clamped_iff (fun _ => some viewport) viewport 90 10 20 5 rfl (by decide)
    (by decide) (by decide) (by decide) (by decide) (by decide) (by decide) (by decide)
  refine ⟨_, rfl, (hiff.mpr ?_).1 0 _ rfl⟩
  unfold Unwrapped Wraps
  decide

/-- A width that wraps around becomes that of the whole viewport. -/
theorem wide_region_leaves_viewport : ∃ params,
    gfxFillRect (fun _ => some viewport) 50 10 (2 ^ 32 - 1) 5 0 = some params ∧
      params.x = 50 ∧ params.width = 96 ∧
      ¬Clamped viewport 50 10 (2 ^ 32 - 1) 5 params.x params.y params.width params.height := by
  refine ⟨_, rfl, by decide, by decide, ?_⟩
  unfold Clamped InBorder
  decide

end Taavi.User
