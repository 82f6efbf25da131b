import Taavi.Gui.Windows
import Taavi.Lib.Runs

/-!
# The geometry of windows

Every window lies on the screen and has a buffer of its size, whatever was requested. So what is
copied and erased is inside the buffers and the framebuffer.
-/

namespace Taavi.Gui

open Lib List

/-- A framebuffer whose lines hold its width, and whose pixels have less than `2 ^ 31` bytes. -/
structure Framebuffer.Usual (fb : Framebuffer) : Prop where
  pitch : fb.width ≤ fb.pitch / 4
  small : fb.width * fb.height * 4 < 2 ^ 31

/-- A window lies on the screen and has a pixel buffer of its size. -/
structure Blueprint.Fits (fb : Framebuffer) (entry : Blueprint) : Prop where
  width_pos : 0 < entry.width
  height_pos : 0 < entry.height
  right : entry.screenX + entry.width ≤ fb.width
  bottom : entry.screenY + entry.height ≤ fb.height
  size : entry.pixels.size = entry.width * entry.height

/-- All windows fit, and everything that was touched exists. -/
structure Sound (fb : Framebuffer) (s : State) : Prop where
  windows : ∀ i entry, s.windows i = some entry → entry.Fits fb
  log : ∀ a ∈ s.log, a.Inside fb

variable {fb : Framebuffer} {s : State} {entry : Blueprint} {req : Request} {bgColor : ℕ}

section

variable {height i x y w h stride width : ℕ} {p : ℕ × ℕ}

theorem index_lt {row rows col cols : ℕ} (hrow : row < rows) (hcol : col < cols) :
    row * cols + col < rows * cols :=
  calc row * cols + col < row * cols + cols := Nat.add_lt_add_left hcol _
    _ = (row + 1) * cols := (Nat.succ_mul row cols).symm
    _ ≤ rows * cols := Nat.mul_le_mul_right cols hrow

theorem mem_grid {α : Type*} {f : ℕ → ℕ → α} {a b : ℕ} {p : α} :
    p ∈ (List.range a).flatMap (fun i => (List.range b).map (f i)) ↔
      ∃ i < a, ∃ j < b, f i j = p := by
  simp only [mem_flatMap, mem_map, mem_range]

theorem rectIndices_lt (hx : x + w ≤ stride) (hy : y + h ≤ height)
    (hi : i ∈ rectIndices x y w h stride) : i < height * stride := by
  obtain ⟨col, hcol, row, hrow, rfl⟩ := mem_grid.mp hi
  exact (Nat.mod_le _ _).trans_lt (index_lt (by omega) (by omega))

theorem mem_fbFillRect {indices : List ℕ} (hx : x + w ≤ stride)
    (hy : y + h ≤ height) (hfill : fbFillRect x y w h stride height = some indices)
    (hi : i ∈ indices) : i < height * stride := by
  unfold fbFillRect at hfill
  split_ifs at hfill
  cases hfill
  exact rectIndices_lt hx hy hi

theorem Framebuffer.Usual.screen_lt (hfb : fb.Usual) (hi : i < fb.height * fb.width) :
    i < fb.pitch / 4 * fb.height := by
  rw [mul_comm]
  exact hi.trans_le (Nat.mul_le_mul_left _ hfb.pitch)

theorem Blueprint.Fits.area_le (hfit : entry.Fits fb) :
    entry.width * entry.height ≤ fb.width * fb.height :=
  Nat.mul_le_mul (by have := hfit.right; omega) (by have := hfit.bottom; omega)

theorem Blueprint.Fits.copyPairs (hfit : entry.Fits fb) (hfb : fb.Usual)
    (hp : p ∈ copyPairs fb entry) : p.1 < fb.pitch / 4 * fb.height ∧ p.2 < entry.pixels.size := by
  obtain ⟨row, hrow, col, hcol, rfl⟩ := mem_grid.mp hp
  have hright := hfit.right
  have hbottom := hfit.bottom
  have hpitch := hfb.pitch
  constructor
  · have hin : (entry.screenY + row) * (fb.pitch / 4) + (entry.screenX + col) <
        fb.height * (fb.pitch / 4) := index_lt (by omega) (by omega)
    rw [mul_comm (fb.pitch / 4)]
    dsimp only
    omega
  · rw [hfit.size, mul_comm entry.width]
    exact index_lt hrow hcol

theorem mem_keepPairs (hp : p ∈ keepPairs entry width height) :
    p.1 < height * width ∧ p.2 < entry.height * entry.width := by
  obtain ⟨row, hrow, col, hcol, rfl⟩ := mem_grid.mp hp
  exact ⟨index_lt (by omega) (by omega), index_lt (by omega) (by omega)⟩

theorem of_kmallocPixels (hfb : fb.Usual) {ok : Bool} {pixels : Pixels}
    (hwidth : width ≤ fb.width) (hheight : height ≤ fb.height)
    (h : kmallocPixels (width * height * 4 % 2 ^ 32) ok = some pixels) :
    0 < width ∧ 0 < height ∧ pixels.size = width * height := by
  have harea : width * height ≤ fb.width * fb.height := Nat.mul_le_mul hwidth hheight
  have hsmall := hfb.small
  unfold kmallocPixels at h
  split_ifs at h with hnone
  cases h
  have hpos : 0 < width * height := by
    rw [not_or] at hnone
    omega
  refine ⟨Nat.pos_of_mul_pos_right hpos, Nat.pos_of_mul_pos_left hpos, ?_⟩
  dsimp only
  omega

end

section

variable (h : Sound fb s)

include h

theorem Sound.note {accesses : List Access} (ha : ∀ a ∈ accesses, a.Inside fb) :
    Sound fb (s.note accesses) := by
  refine ⟨h.windows, fun a hmem => ?_⟩
  rcases mem_append.mp hmem with hnew | hold
  · exact ha a hnew
  · exact h.log a hold

theorem Sound.lookup {key : ℕ} (hkey : key < maxTasks) : Sound fb (s.note [.table key]) :=
  h.note fun a ha => by
    obtain rfl := mem_singleton.mp ha
    exact hkey

theorem Sound.setWindow {i : ℕ} {w : Option Blueprint}
    (hw : ∀ entry, w = some entry → entry.Fits fb) : Sound fb (s.setWindow i w) := by
  refine ⟨fun j entry hj => ?_, h.log⟩
  have hj' : assign s.windows i w j = some entry := hj
  rw [assign_apply] at hj'
  split_ifs at hj'
  · exact hw entry hj'
  · exact h.windows j entry hj'

theorem Sound.paintScreen {indices : List ℕ} (color : ℕ)
    (hin : ∀ i ∈ indices, i < fb.pitch / 4 * fb.height) :
    Sound fb (s.paintScreen indices color) := by
  have hnoted : Sound fb (s.note (indices.map .screen)) := h.note fun a ha => by
    obtain ⟨i, hi, rfl⟩ := mem_map.mp ha
    exact hin i hi
  exact ⟨h.windows, hnoted.log⟩

theorem Sound.copyPixelsToScreen (hfb : fb.Usual) (hfit : entry.Fits fb) :
    Sound fb (copyPixelsToScreen fb s entry) := by
  have hnoted : Sound fb (s.note ((copyPairs fb entry).flatMap fun p =>
      [.screen p.1, .pixels entry.pixels.size p.2])) := h.note fun a ha => by
    obtain ⟨p, hp, ha⟩ := mem_flatMap.mp ha
    obtain ⟨hscreen, hpixels⟩ := hfit.copyPairs hfb hp
    rcases mem_pair.mp ha with rfl | rfl
    · exact hscreen
    · exact hpixels
  exact ⟨h.windows, hnoted.log⟩

theorem Sound.erase (hfb : fb.Usual) (hfit : entry.Fits fb) {indices : List ℕ}
    (hfill : fbFillRect entry.screenX entry.screenY entry.width entry.height fb.width fb.height =
      some indices) (color : ℕ) : Sound fb (s.paintScreen indices color) :=
  h.paintScreen color fun _ hi => hfb.screen_lt (mem_fbFillRect hfit.right hfit.bottom hfill hi)

theorem Sound.guiFlushPixels (hfb : fb.Usual) : Sound fb (guiFlushPixels fb s) := by
  refine List.foldlRecOn _ _ h fun s h i _ => ?_
  unfold flushWindow
  split
  · exact h
  · rename_i entry hentry
    have hfit := h.windows i entry hentry
    split_ifs
    · refine (h.copyPixelsToScreen hfb hfit).setWindow ?_
      rintro _ ⟨⟩
      exact { hfit with }
    · exact h

theorem Sound.guiDeleteWindow (hfb : fb.Usual) (targetPid : ℕ) :
    Sound fb (guiDeleteWindow fb bgColor s targetPid).1 := by
  unfold Gui.guiDeleteWindow
  split
  · exact h
  · rename_i i _
    split
    · exact h
    · rename_i entry hentry
      have hfit := h.windows i entry hentry
      split
      · exact h
      · rename_i indices hfill
        have hnoted : Sound fb (s.note (indices.map (.pixels entry.pixels.size))) := by
          refine h.note fun a ha => ?_
          obtain ⟨j, hj, rfl⟩ := mem_map.mp ha
          have hlt := mem_fbFillRect (zero_add _).le (zero_add _).le hfill hj
          show j < entry.pixels.size
          rwa [hfit.size, mul_comm]
        refine (hnoted.copyPixelsToScreen hfb ?_).setWindow (by simp)
        exact { hfit with }

theorem Sound.guiCreateWindowEntry (hfb : fb.Usual) (req : Request) (mem : Memory) :
    Sound fb (guiCreateWindowEntry fb s req mem).1 := by
  unfold Gui.guiCreateWindowEntry
  split_ifs with hinvalid
  · exact h
  split
  · exact h
  split
  · exact h
  split
  · exact h
  · rename_i pixels hpixels
    simp only [createInvalid, decide_eq_true_eq, not_or, not_lt] at hinvalid
    obtain ⟨hwidth, hheight, -, -, hright, hbottom, -, -⟩ := hinvalid
    obtain ⟨hw, hh, hsize⟩ := of_kmallocPixels hfb hwidth hheight hpixels
    refine h.setWindow ?_
    rintro _ ⟨⟩
    exact ⟨hw, hh, hright, hbottom, hsize⟩

theorem Sound.guiResizeWindow (hfb : fb.Usual) (hkey : req.structKey < maxTasks)
    (mem : Memory) : Sound fb (guiResizeWindow fb bgColor s req mem).1 := by
  have hnoted := h.lookup hkey
  unfold Gui.guiResizeWindow
  dsimp only
  split
  · exact hnoted
  · rename_i entry hentry
    have hfit := h.windows _ entry hentry
    split_ifs with howner hinvalid
    · exact hnoted
    · exact hnoted
    · simp only [not_or, not_lt] at hinvalid
      obtain ⟨hwidth, hheight, hright, hbottom⟩ := hinvalid
      split
      · exact hnoted
      · rename_i pixels hpixels
        obtain ⟨hw, hh, hsize⟩ := of_kmallocPixels hfb hwidth hheight hpixels
        split
        · exact hnoted
        · rename_i indices hfill
          have herased := hnoted.erase hfb hfit hfill bgColor
          have hkept : Sound fb ((((s.note [.table req.structKey]).paintScreen indices bgColor)).note
              ((keepPairs entry req.width req.height).flatMap
                fun p => [.pixels pixels.size p.1, .pixels entry.pixels.size p.2])) := by
            refine herased.note fun a ha => ?_
            obtain ⟨p, hp, ha⟩ := mem_flatMap.mp ha
            obtain ⟨hnew, hold⟩ := mem_keepPairs hp
            rcases mem_pair.mp ha with rfl | rfl
            · show p.1 < pixels.size
              rwa [hsize, mul_comm]
            · show p.2 < entry.pixels.size
              rwa [hfit.size, mul_comm]
          refine (hkept.setWindow ?_).copyPixelsToScreen hfb ⟨hw, hh, hright, hbottom, hsize⟩
          rintro _ ⟨⟩
          exact ⟨hw, hh, hright, hbottom, hsize⟩

theorem Sound.guiMoveWindow (hfb : fb.Usual) (hkey : req.structKey < maxTasks) :
    Sound fb (guiMoveWindow fb bgColor s req).1 := by
  have hnoted := h.lookup hkey
  unfold Gui.guiMoveWindow
  dsimp only
  split
  · exact hnoted
  · rename_i entry hentry
    have hfit := h.windows _ entry hentry
    split_ifs with howner hinvalid
    · exact hnoted
    · exact hnoted
    · simp only [not_or, not_lt, not_le] at hinvalid
      obtain ⟨-, -, hright, hbottom⟩ := hinvalid
      split
      · exact hnoted
      · rename_i indices hfill
        have hmoved : ({ entry with screenX := req.x, screenY := req.y } : Blueprint).Fits fb :=
          ⟨hfit.width_pos, hfit.height_pos, (add_comm ..).trans_le hright,
            (add_comm ..).trans_le hbottom, hfit.size⟩
        refine ((hnoted.erase hfb hfit hfill bgColor).setWindow ?_).copyPixelsToScreen hfb hmoved
        rintro _ ⟨⟩
        exact hmoved

theorem Sound.guiHandleRequest (hfb : fb.Usual) (hkey : req.structKey < maxTasks)
    (mem : Memory) : Sound fb (guiHandleRequest fb bgColor s req mem).1 := by
  unfold Gui.guiHandleRequest
  split
  · exact h.guiCreateWindowEntry hfb req mem
  · exact h.guiDeleteWindow hfb req.targetPid
  · exact h.guiResizeWindow hfb hkey mem
  · exact h.guiMoveWindow hfb hkey
  · exact h

end

/-- What the clerk does: it handles a request, or it shows the windows that were drawn. -/
inductive ClerkEvent where
  | handle (req : Request) (mem : Memory)
  | flush

def ClerkEvent.KeyInRange : ClerkEvent → Prop
  | .handle req _ => req.structKey < maxTasks
  | .flush => True

def ClerkStep (fb : Framebuffer) (bgColor : ℕ) (s : State) (e : ClerkEvent) (t : State) : Prop :=
  e.KeyInRange ∧
    match e with
    | .handle req mem => (guiHandleRequest fb bgColor s req mem).1 = t
    | .flush => guiFlushPixels fb s = t

theorem Sound.of_run {screen : ℕ → ℕ} {es : List ClerkEvent} (hfb : fb.Usual)
    (hrun : Run (ClerkStep fb bgColor) (State.init screen) es s) : Sound fb s := by
  have hinit : Sound fb (State.init screen) := ⟨fun _ _ => by rintro ⟨⟩, fun _ => by rintro ⟨⟩⟩
  have hkeep : ∀ s e t, Sound fb s → ClerkStep fb bgColor s e t → Sound fb t := by
    rintro s e t h ⟨hkey, hstep⟩
    cases e with
    | handle req mem => exact hstep ▸ h.guiHandleRequest hfb hkey mem
    | flush => exact hstep ▸ h.guiFlushPixels hfb
  exact Run.invariant hkeep hrun hinit

/-- Whatever requests the clerk handles after `gui_init`, every window lies on the screen, and
everything read and written is inside the pixel buffers and the framebuffer. -/
theorem windows_fit {screen : ℕ → ℕ} {es : List ClerkEvent} (hpitch : fb.width ≤ fb.pitch / 4)
    (hsmall : fb.width * fb.height * 4 < 2 ^ 31)
    (hrun : Run (ClerkStep fb bgColor) (State.init screen) es s) :
    (∀ i entry, s.windows i = some entry →
      0 < entry.width ∧ 0 < entry.height ∧ entry.screenX + entry.width ≤ fb.width ∧
        entry.screenY + entry.height ≤ fb.height ∧
        entry.pixels.size = entry.width * entry.height) ∧
      ∀ a ∈ s.log, a.Inside fb := by
  have h := Sound.of_run ⟨hpitch, hsmall⟩ hrun
  refine ⟨fun i entry hentry => ?_, h.log⟩
  obtain ⟨hw, hh, hright, hbottom, hsize⟩ := h.windows i entry hentry
  exact ⟨hw, hh, hright, hbottom, hsize⟩

def tinyScreen : Framebuffer := { pitch := 16, width := 4, height := 4 }

/-- The request for a window of two by two pixels. -/
def tinyRequest : Request :=
  { Request.zero with requestType := .create, callerPid := 5, width := 2, height := 2, x := 1, y := 1 }

/-- A window is made. -/
theorem tiny_window_fits : ∃ s,
    Run (ClerkStep tinyScreen 0) (State.init fun _ => 0) [.handle tinyRequest ⟨some 0, true⟩] s ∧
      (s.windows 0).isSome = true ∧
      ∀ i entry, s.windows i = some entry → entry.pixels.size = entry.width * entry.height := by
  have hkey : tinyRequest.structKey < maxTasks := by decide
  have hrun : Run (ClerkStep tinyScreen 0) (State.init fun _ => 0)
      [.handle tinyRequest ⟨some 0, true⟩]
      (guiHandleRequest tinyScreen 0 (State.init fun _ => 0) tinyRequest ⟨some 0, true⟩).1 :=
    .cons ⟨hkey, rfl⟩ (.nil _)
  have hsome : ((guiHandleRequest tinyScreen 0 (State.init fun _ => 0) tinyRequest
      ⟨some 0, true⟩).1.windows 0).isSome = true := by decide +kernel
  have hfit := (windows_fit (by decide) (by decide) hrun).1
  exact ⟨_, hrun, hsome, fun i entry hentry => (hfit i entry hentry).2.2.2.2⟩

end Taavi.Gui
