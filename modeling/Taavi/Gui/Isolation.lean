import Taavi.Gui.Drawing

/-!
# Windows of other tasks

A task names a window by a key that is not checked against the table, texts are checked at one
corner only, and sprites are placed with wrap-around. Within these bounds a call acts on a window of
its task or on none.
-/

namespace Taavi.Gui

open Lib List

/-- Nothing, or a window of the task is made, changed or deleted. -/
inductive Acts (pid : ℕ) (s t : State) : Bool → Prop
  | failed : t.windows = s.windows → Acts pid s t false
  | created {i : ℕ} {entry : Blueprint} : s.windows i = none → t.windows i = some entry →
      entry.ownerPid = pid → (∀ j, j ≠ i → t.windows j = s.windows j) → Acts pid s t true
  | changed {i : ℕ} {entry : Blueprint} : s.windows i = some entry → entry.ownerPid = pid →
      (∀ j, j ≠ i → t.windows j = s.windows j) → Acts pid s t true

variable {fb : Framebuffer} {s t : State} {entry : Blueprint} {req : Request} {params : GuiParams}
  {bgColor pid key : ℕ} {font : Font} {ok : Bool}

theorem Acts.other (h : Acts pid s t ok) {i : ℕ} (hentry : s.windows i = some entry)
    (howner : entry.ownerPid ≠ pid) : t.windows i = some entry := by
  cases h with
  | failed hsame => rw [hsame, hentry]
  | @created j _ hempty _ _ hother =>
    have hij : i ≠ j := by
      rintro rfl
      rw [hempty] at hentry
      cases hentry
    rw [hother i hij, hentry]
  | @changed j _ hj hpid hother =>
    have hij : i ≠ j := by
      rintro rfl
      cases hj.symm.trans hentry
      exact howner hpid
    rw [hother i hij, hentry]

theorem Acts.setWindow {i : ℕ} {w : Option Blueprint} (hentry : s.windows i = some entry)
    (howner : entry.ownerPid = pid) (ht : t.windows = assign s.windows i w) : Acts pid s t true :=
  .changed hentry howner fun j hj => by rw [ht, assign_of_ne _ _ hj]

theorem acts_guiDeleteWindow (targetPid : ℕ) :
    Acts targetPid s (guiDeleteWindow fb bgColor s targetPid).1
      (guiDeleteWindow fb bgColor s targetPid).2 := by
  unfold guiDeleteWindow
  split
  · exact .failed rfl
  · rename_i i hfst
    obtain ⟨-, hany, -⟩ := firstSlot_eq_some.mp hfst
    split
    · exact .failed rfl
    · rename_i entry hentry
      rw [hentry] at hany
      have howner : entry.ownerPid = targetPid := by simpa using hany
      split
      · exact .failed rfl
      · exact Acts.setWindow hentry howner rfl

theorem acts_guiCreateWindowEntry (req : Request) (mem : Memory) :
    Acts req.callerPid s (guiCreateWindowEntry fb s req mem).1
      (guiCreateWindowEntry fb s req mem).2.2 := by
  unfold guiCreateWindowEntry
  split_ifs
  · exact .failed rfl
  split
  · exact .failed rfl
  · rename_i slot hfst
    obtain ⟨-, hnone, -⟩ := firstSlot_eq_some.mp hfst
    split
    · exact .failed rfl
    split
    · exact .failed rfl
    · exact .created (by simpa using hnone) (assign_same _ _ _) rfl fun j hj =>
        assign_of_ne _ _ hj

theorem acts_guiResizeWindow (req : Request) (mem : Memory) :
    Acts req.callerPid s (guiResizeWindow fb bgColor s req mem).1
      (guiResizeWindow fb bgColor s req mem).2 := by
  unfold guiResizeWindow
  dsimp only
  split
  · exact .failed rfl
  · rename_i entry hentry
    split_ifs with howner
    · exact .failed rfl
    · exact .failed rfl
    split
    · exact .failed rfl
    split
    · exact .failed rfl
    · exact Acts.setWindow hentry (not_not.mp howner) rfl

theorem acts_guiMoveWindow (req : Request) :
    Acts req.callerPid s (guiMoveWindow fb bgColor s req).1 (guiMoveWindow fb bgColor s req).2 := by
  unfold guiMoveWindow
  dsimp only
  split
  · exact .failed rfl
  · rename_i entry hentry
    split_ifs with howner
    · exact .failed rfl
    · exact .failed rfl
    split
    · exact .failed rfl
    · exact Acts.setWindow hentry (not_not.mp howner) rfl

theorem acts_guiHandleRequest (htarget : req.targetPid = req.callerPid) (mem : Memory) :
    Acts req.callerPid s (guiHandleRequest fb bgColor s req mem).1
      (decide ((guiHandleRequest fb bgColor s req mem).2.status = .complete)) := by
  have hanswer : ∀ (r : Request) (ok : Bool),
      decide ((Request.answer r ok).status = .complete) = ok := by
    intro r ok
    cases ok <;> rfl
  unfold guiHandleRequest
  split
  · rw [hanswer]
    exact acts_guiCreateWindowEntry req mem
  · rw [hanswer, ← htarget]
    exact acts_guiDeleteWindow req.targetPid
  · rw [hanswer]
    exact acts_guiResizeWindow req mem
  · rw [hanswer]
    exact acts_guiMoveWindow req
  · rw [hanswer]
    exact .failed rfl

section

variable {x y width height color : ℕ} {p : ℕ × ℕ} {word : ℕ → ℕ}

theorem acts_onWindow (draw : Blueprint → Option Drawing) :
    Acts pid s (onWindow s key pid draw).1 (onWindow s key pid draw).2 := by
  unfold onWindow
  dsimp only
  split
  · exact .failed rfl
  · rename_i entry hentry
    split_ifs with howner
    · exact .failed rfl
    split
    · exact .failed rfl
    · exact Acts.setWindow hentry (not_not.mp howner) rfl

def textOf (str : List UInt8) : List UInt8 := str.takeWhile fun c => c ≠ 0

/-- What the code does not check: the key is one of the table, a text lies in the window, and the
places of a sprite are 32-bit numbers. -/
structure Contained (s : State) (pid : ℕ) (params : GuiParams) : Prop where
  key : params.structKey < maxTasks
  text : params.opcode = .writeAt → ∀ entry str, s.windows params.structKey = some entry →
    entry.ownerPid = pid → params.buf = some str → params.x < entry.width →
    params.y < entry.height →
    params.y + fontHeight ≤ entry.height ∧ params.x + fontWidth * (textOf str).length ≤ entry.width
  sprite : params.opcode = .draw → params.x + params.width * params.scale < 2 ^ 32 ∧
    params.y + params.height * params.scale < 2 ^ 32

theorem fbDrawString_lt {str : List UInt8} {fg bg : ℕ}
    (hwidth : width < 2 ^ 32) (hy : y + fontHeight ≤ height)
    (hx : x + fontWidth * (textOf str).length ≤ width)
    (hp : p ∈ fbDrawString font x y width str fg bg) : p.1 < height * width := by
  induction str generalizing x with
  | nil => cases hp
  | cons c str ih =>
    unfold fbDrawString at hp
    split_ifs at hp with hzero
    · cases hp
    have hlen : (textOf (c :: str)).length = (textOf str).length + 1 := by
      simp [textOf, hzero]
    rw [hlen] at hx
    unfold fontWidth at hx
    rcases mem_append.mp hp with hp | hp
    · unfold fbDrawChar at hp
      split_ifs at hp
      · cases hp
      obtain ⟨row, hrow, col, hcol, rfl⟩ := mem_grid.mp hp
      unfold fontWidth at hcol
      exact (Nat.mod_le _ _).trans_lt (index_lt (by omega) (by omega))
    · rw [fontWidth, Nat.mod_eq_of_lt (by omega)] at hp
      exact ih (by unfold fontWidth; omega) hp

theorem fillWindow_lt {w h : ℕ} (hx : x + w < 2 ^ 32) (hy : y + h < 2 ^ 32)
    (hp : p ∈ fillWindow entry x y w h color) : p.1 < entry.height * entry.width := by
  unfold fillWindow at hp
  obtain ⟨i, hi, rfl⟩ := mem_map.mp hp
  cases hfill : fbFillRect x y w h entry.width entry.height with
  | none =>
    rw [hfill] at hi
    cases hi
  | some indices =>
    rw [hfill] at hi
    have hchecked := hfill
    unfold fbFillRect at hchecked
    split_ifs at hchecked with hoverlap
    rw [Nat.mod_eq_of_lt hx, Nat.mod_eq_of_lt hy, not_or, not_lt, not_lt] at hoverlap
    exact mem_fbFillRect hoverlap.1 hoverlap.2 hfill hi

theorem fbScrollDown_lt {stride rows i : ℕ}
    (hx : x + width ≤ stride) (hy : y + height ≤ rows)
    (hi : i ∈ (fbScrollDown word x y width height stride color).touched) : i < rows * stride := by
  have hrow : ∀ row < height, ∀ j ∈ List.range' (((y + row) * stride + x) % 2 ^ 32) width,
      j < rows * stride := by
    intro row hlt j hj
    rw [mem_range'_1] at hj
    have hin : (y + row) * stride + (x + (width - 1)) < rows * stride :=
      index_lt (by omega) (by omega)
    omega
  unfold fbScrollDown at hi
  split_ifs at hi with hsmall
  · cases hi
  rcases mem_append.mp hi with hi | hi
  · obtain ⟨row, hlt, hi⟩ := mem_flatMap.mp hi
    obtain ⟨col, hcol, rfl⟩ := mem_map.mp hi
    rw [mem_range'_1] at hlt
    rw [mem_range] at hcol
    exact (Nat.mod_le _ _).trans_lt (index_lt (by omega) (by omega))
  · obtain ⟨row, hlt, hi⟩ := mem_flatMap.mp hi
    rw [mem_range] at hlt
    rcases mem_append.mp hi with hi | hi
    · exact hrow row (by omega) i hi
    · exact hrow (row + fontHeight) (by omega) i hi

theorem of_rectInvalid (hwidth : entry.width < 2 ^ 31) (hheight : entry.height < 2 ^ 31)
    (h : ¬rectInvalid params entry = true) :
    params.x + params.width ≤ entry.width ∧ params.y + params.height ≤ entry.height := by
  simp only [rectInvalid, decide_eq_true_eq, not_or, not_lt, not_le] at h
  obtain ⟨hw, hh, hx, hy, hright, hbottom, -, -⟩ := h
  rw [Nat.mod_eq_of_lt (by omega)] at hright hbottom
  exact ⟨hright, hbottom⟩

theorem Blueprint.Fits.sides_lt (hfit : entry.Fits fb) (hfb : fb.Usual) :
    entry.width < 2 ^ 31 ∧ entry.height < 2 ^ 31 := by
  have hsmall := hfb.small
  have hright := hfit.right
  have hbottom := hfit.bottom
  have hw := hfit.width_pos
  have hh := hfit.height_pos
  have harea := hfit.area_le
  have hwidth : entry.width ≤ entry.width * entry.height := Nat.le_mul_of_pos_right _ hh
  have hheight : entry.height ≤ entry.width * entry.height := Nat.le_mul_of_pos_left _ hw
  omega

/-- What is drawn lies in the window. -/
def Drawing.Within (drawing : Drawing) (entry : Blueprint) : Prop :=
  ∀ i ∈ drawing.touched, i < entry.height * entry.width

theorem Drawing.within_write {writes : List (ℕ × ℕ)}
    (h : ∀ p ∈ writes, p.1 < entry.height * entry.width) :
    (Drawing.write word writes).Within entry := by
  intro i hi
  obtain ⟨p, hp, rfl⟩ := mem_map.mp hi
  exact h p hp

theorem sysWindow_cases (hfb : fb.Usual) (hcont : Contained s pid params)
    (h : sysWindow font s params pid = some (t, ok)) :
    ∃ draw, onWindow s params.structKey pid draw = (t, ok) ∧
      ∀ entry drawing, entry.Fits fb → s.windows params.structKey = some entry →
        entry.ownerPid = pid → draw entry = some drawing → drawing.Within entry := by
  unfold sysWindow at h
  split at h
  case h_5 => cases h
  all_goals refine ⟨_, Option.some.inj h, fun entry drawing hfit hentry howner hdraw => ?_⟩
  · rename_i hop
    cases hbuf : params.buf with
    | none => simp [hbuf] at hdraw
    | some str =>
      simp only [hbuf] at hdraw
      split_ifs at hdraw with hout
      cases hdraw
      rw [not_or, not_le, not_le] at hout
      obtain ⟨hy, hx⟩ := hcont.text hop entry str hentry howner hbuf hout.1 hout.2
      have hsides := hfit.sides_lt hfb
      exact Drawing.within_write fun p hp => fbDrawString_lt (by omega) hy hx hp
  · split_ifs at hdraw with hinvalid
    cases hdraw
    have hsides := hfit.sides_lt hfb
    obtain ⟨hx, hy⟩ := of_rectInvalid hsides.1 hsides.2 hinvalid
    exact Drawing.within_write fun p hp => fillWindow_lt (by omega) (by omega) hp
  · rename_i hop
    obtain ⟨sprite, -, rfl⟩ := Option.map_eq_some_iff.mp hdraw
    obtain ⟨hx, hy⟩ := hcont.sprite hop
    refine Drawing.within_write fun p hp => ?_
    obtain ⟨row, hrow, hp⟩ := mem_flatMap.mp hp
    obtain ⟨col, hcol, hp⟩ := mem_flatMap.mp hp
    rw [mem_range] at hrow hcol
    dsimp only at hp
    split_ifs at hp
    · cases hp
    · have hright : (col + 1) * params.scale ≤ params.width * params.scale :=
        Nat.mul_le_mul_right _ hcol
      have hbottom : (row + 1) * params.scale ≤ params.height * params.scale :=
        Nat.mul_le_mul_right _ hrow
      rw [Nat.succ_mul] at hright hbottom
      exact fillWindow_lt (by omega) (by omega) hp
  · split_ifs at hdraw with hinvalid
    cases hdraw
    have hsides := hfit.sides_lt hfb
    obtain ⟨hx, hy⟩ := of_rectInvalid hsides.1 hsides.2 hinvalid
    exact fun i hi => fbScrollDown_lt hx hy hi

theorem Sound.sysWindow (h : Sound fb s) (hfb : fb.Usual) (hcont : Contained s pid params)
    (hcall : sysWindow font s params pid = some (t, ok)) : Sound fb t ∧ Acts pid s t ok := by
  obtain ⟨draw, heq, hdraw⟩ := sysWindow_cases hfb hcont hcall
  have hacts : Acts pid s (onWindow s params.structKey pid draw).1
    (onWindow s params.structKey pid draw).2 := acts_onWindow draw
  rw [heq] at hacts
  refine ⟨?_, hacts⟩
  have hnoted := h.lookup hcont.key
  unfold onWindow at heq
  dsimp only at heq
  split at heq
  · exact (Prod.mk.inj heq).1 ▸ hnoted
  · rename_i entry hentry
    have hfit := h.windows _ entry hentry
    split_ifs at heq with howner
    · exact (Prod.mk.inj heq).1 ▸ hnoted
    split at heq
    · exact (Prod.mk.inj heq).1 ▸ hnoted
    · rename_i drawing hdrawing
      have hwithin := hdraw entry drawing hfit hentry (not_not.mp howner) hdrawing
      obtain ⟨rfl, -⟩ := Prod.mk.inj heq
      refine Sound.setWindow ?_ ?_
      · refine hnoted.note fun a ha => ?_
        obtain ⟨i, hi, rfl⟩ := mem_map.mp ha
        show i < entry.pixels.size
        rw [hfit.size, mul_comm]
        exact hwithin i hi
      · rintro _ ⟨⟩
        exact { hfit with }

end

/-- The windows, and the requests for them that the clerk has not handled yet. -/
structure WindowSystem where
  gui : State
  pending : List Request

inductive WindowEvent where
  /-- A task calls `sys_window`. The ledger may have no room for its request. -/
  | call (pid : ℕ) (params : GuiParams) (accepted : Bool)
  | serve (i : ℕ) (mem : Memory)
  | release (targetPid : ℕ)
  | flush

namespace WindowSystem

/-- One event, and for which task an operation ended with what result. -/
def step (fb : Framebuffer) (bgColor : ℕ) (font : Font) (s : WindowSystem) :
    WindowEvent → WindowSystem × Option (ℕ × Bool)
  | .call pid params accepted =>
    match sysWindow font s.gui params pid with
    | some (gui, ok) => ({ s with gui }, some (pid, ok))
    | none =>
      if accepted then ({ s with pending := s.pending ++ [guiRequest params pid] }, none)
      else (s, some (pid, false))
  | .serve i mem =>
    match s.pending[i]? with
    | none => (s, none)
    | some req =>
      let r := guiHandleRequest fb bgColor s.gui req mem
      ({ gui := r.1, pending := s.pending.eraseIdx i },
        some (req.callerPid, decide (r.2.status = .complete)))
  | .release targetPid => ({ s with gui := (guiDeleteWindow fb bgColor s.gui targetPid).1 }, none)
  | .flush => ({ s with gui := guiFlushPixels fb s.gui }, none)

/-- The condition on a call: it comes from a task and stays within the bounds that are not checked. -/
def CallContained (s : WindowSystem) : WindowEvent → Prop
  | .call pid params _ => pid < maxTasks ∧ Contained s.gui pid params
  | _ => True

abbrev ContainedStep (fb : Framebuffer) (bgColor : ℕ) (font : Font) :
    WindowSystem → WindowEvent → WindowSystem → Prop :=
  Guarded CallContained fun s e t => (s.step fb bgColor font e).1 = t

def init (screen : ℕ → ℕ) : WindowSystem := { gui := State.init screen, pending := [] }

/-- All windows are sound, and requests are aimed at their callers. -/
structure Safe (fb : Framebuffer) (s : WindowSystem) : Prop where
  sound : Sound fb s.gui
  keys : ∀ req ∈ s.pending, req.structKey < maxTasks
  targets : ∀ req ∈ s.pending, req.targetPid = req.callerPid

variable {s t : WindowSystem} {e : WindowEvent}

theorem Safe.step (h : Safe fb s) (hfb : fb.Usual) (he : s.CallContained e)
    {answer : Option (ℕ × Bool)} (hstep : s.step fb bgColor font e = (t, answer)) :
    Safe fb t ∧ ∀ pid ok, answer = some (pid, ok) → Acts pid s.gui t.gui ok := by
  cases e with
  | call pid params accepted =>
    obtain ⟨-, hcont⟩ := he
    unfold WindowSystem.step at hstep
    dsimp only at hstep
    split at hstep
    · rename_i gui ok hcall
      cases hstep
      obtain ⟨hsound, hacts⟩ := h.sound.sysWindow hfb hcont hcall
      refine ⟨⟨hsound, h.keys, h.targets⟩, ?_⟩
      rintro _ _ ⟨⟩
      exact hacts
    · split_ifs at hstep
      · cases hstep
        refine ⟨⟨h.sound, fun req hreq => ?_, fun req hreq => ?_⟩, by rintro _ _ ⟨⟩⟩
        · rcases mem_append.mp hreq with hold | hnew
          · exact h.keys req hold
          · obtain rfl := mem_singleton.mp hnew
            exact hcont.key
        · rcases mem_append.mp hreq with hold | hnew
          · exact h.targets req hold
          · obtain rfl := mem_singleton.mp hnew
            rfl
      · cases hstep
        refine ⟨h, ?_⟩
        rintro _ _ ⟨⟩
        exact .failed rfl
  | serve i mem =>
    unfold WindowSystem.step at hstep
    dsimp only at hstep
    split at hstep
    · cases hstep
      exact ⟨h, by rintro _ _ ⟨⟩⟩
    · rename_i req hreq
      cases hstep
      have hmem : req ∈ s.pending := mem_of_getElem? hreq
      refine ⟨⟨h.sound.guiHandleRequest hfb (h.keys req hmem) mem, ?_, ?_⟩, ?_⟩
      · exact fun r hr => h.keys r (mem_of_mem_eraseIdx hr)
      · exact fun r hr => h.targets r (mem_of_mem_eraseIdx hr)
      · rintro _ _ ⟨⟩
        exact acts_guiHandleRequest (h.targets req hmem) mem
  | release targetPid =>
    cases hstep
    exact ⟨⟨h.sound.guiDeleteWindow hfb targetPid, h.keys, h.targets⟩, by rintro _ _ ⟨⟩⟩
  | flush =>
    have hsound := h.sound.guiFlushPixels hfb
    unfold WindowSystem.step at hstep
    generalize guiFlushPixels fb s.gui = gui at hstep hsound
    cases hstep
    exact ⟨⟨hsound, h.keys, h.targets⟩, by rintro _ _ ⟨⟩⟩

theorem safe_init (screen : ℕ → ℕ) : Safe fb (init screen) :=
  ⟨⟨fun _ _ => by rintro ⟨⟩, fun _ => by rintro ⟨⟩⟩, fun _ => by rintro ⟨⟩, fun _ => by rintro ⟨⟩⟩

/-- In every run after `gui_init` all of whose calls meet the condition, a call of a task fails and
changes no window, or acts on a window of the task only, and touches nothing outside the buffers. -/
theorem windows_are_isolated {screen : ℕ → ℕ} {es : List WindowEvent}
    (hpitch : fb.width ≤ fb.pitch / 4) (hsmall : fb.width * fb.height * 4 < 2 ^ 31)
    (hrun : Run (ContainedStep fb bgColor font) (init screen) es s) (he : s.CallContained e)
    {pid : ℕ} {ok : Bool} (hstep : s.step fb bgColor font e = (t, some (pid, ok))) :
    Acts pid s.gui t.gui ok ∧
      (∀ i entry, s.gui.windows i = some entry → entry.ownerPid ≠ pid →
        t.gui.windows i = some entry) ∧
      ∀ a ∈ t.gui.log, a.Inside fb := by
  have hfb : fb.Usual := ⟨hpitch, hsmall⟩
  have hkeep : ∀ s e t, Safe fb s → ContainedStep fb bgColor font s e t → Safe fb t := by
    rintro s e t h ⟨he, rfl⟩
    exact (h.step hfb he rfl).1
  have h := Run.invariant hkeep hrun (safe_init screen)
  obtain ⟨hsafe, hacts⟩ := h.step hfb he hstep
  have hact := hacts pid ok rfl
  exact ⟨hact, fun i entry hentry howner => hact.other hentry howner, hsafe.sound.log⟩

/-- The parameters of a call without text and pixels. -/
def plainParams (opcode : Operation) (key : ℕ) : GuiParams :=
  { buf := none, pixels := none, bufferSize := 0, width := 2, height := 2, x := 1, y := 1
    fgColor := 0, bgColor := 7, scale := 1, structKey := key, opcode }

def asked : WindowSystem :=
  { gui := State.init fun _ => 0, pending := [guiRequest (plainParams .create 0) 5] }

/-- A task makes a window through the clerk. -/
theorem task_gets_window : ∃ t,
    Run (ContainedStep tinyScreen 0 fun _ _ => 0) (init fun _ => 0)
      [.call 5 (plainParams .create 0) true] asked ∧
      asked.step tinyScreen 0 (fun _ _ => 0) (.serve 0 ⟨some 0, true⟩) = (t, some (5, true)) ∧
      Acts 5 asked.gui t.gui true := by
  have hcontained : CallContained (init fun _ => 0) (.call 5 (plainParams .create 0) true) :=
    ⟨by decide, ⟨by decide, by rintro ⟨⟩, by rintro ⟨⟩⟩⟩
  have hrun : Run (ContainedStep tinyScreen 0 fun _ _ => 0) (init fun _ => 0)
      [.call 5 (plainParams .create 0) true] asked := .cons ⟨hcontained, rfl⟩ (.nil _)
  have hanswer : (asked.step tinyScreen 0 (fun _ _ => 0) (.serve 0 ⟨some 0, true⟩)).2 =
      some (5, true) := by decide +kernel
  have hserve : asked.CallContained (.serve 0 ⟨some 0, true⟩) := trivial
  have hstep : asked.step tinyScreen 0 (fun _ _ => 0) (.serve 0 ⟨some 0, true⟩) =
      ((asked.step tinyScreen 0 (fun _ _ => 0) (.serve 0 ⟨some 0, true⟩)).1, some (5, true)) :=
    Prod.ext rfl hanswer
  exact ⟨_, hrun, hstep, (windows_are_isolated (by decide) (by decide) hrun hserve hstep).1⟩

/-- A task that names a window behind the table makes the kernel look there. -/
theorem key_behind_table : ∃ s,
    Run (fun s e t => (step tinyScreen 0 (fun _ _ => 0) s e).1 = t) (init fun _ => 0)
      [.call 5 (plainParams .paintWindow maxTasks) true] s ∧
      ∃ a ∈ s.gui.log, ¬a.Inside tinyScreen :=
  ⟨_, .cons rfl (.nil _), .table maxTasks, by decide, by decide⟩

end WindowSystem

end Taavi.Gui
