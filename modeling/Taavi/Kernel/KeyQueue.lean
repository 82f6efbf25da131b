import Mathlib.Data.List.Nodup
import Mathlib.Data.List.Perm.Subperm
import Taavi.Kernel.Tasks
import Taavi.Lib.Ring
import Taavi.Lib.Runs

/-!
# The keyboard as a queue

The buffer is a ring whose counters wrap around at 32 bits. From outside it is a queue of bounded
length that a change of the focus empties, and only the task with the focus takes from it.
-/

namespace Taavi

open Lib

inductive Seen where
  | accepted (c : ℕ)
  | dropped (c : ℕ)
  | focused (pid : ℕ)
  | taken (pid c : ℕ)
  | refused (pid : ℕ)
  deriving DecidableEq, Repr

/-- The characters in their order, and the task with the focus. -/
structure KeyQueue where
  keys : List ℕ
  focus : Option ℕ
  deriving DecidableEq, Repr

inductive KeyQueue.Step (capacity : ℕ) : KeyQueue → Seen → KeyQueue → Prop
  | accept {q : KeyQueue} {c : ℕ} : q.keys.length < capacity →
      Step capacity q (.accepted c) ⟨q.keys ++ [c], q.focus⟩
  | drop {q : KeyQueue} {c : ℕ} : q.keys.length = capacity → Step capacity q (.dropped c) q
  | focus {q : KeyQueue} {pid : ℕ} : Step capacity q (.focused pid) ⟨[], some pid⟩
  | take {pid c : ℕ} {rest : List ℕ} :
      Step capacity ⟨c :: rest, some pid⟩ (.taken pid c) ⟨rest, some pid⟩
  | refuse {q : KeyQueue} {pid : ℕ} : (q.focus = some pid → q.keys = []) →
      Step capacity q (.refused pid) q

section

variable {capacity : ℕ} {seen : List Seen}

/-- The character that entered the queue. -/
def Seen.accepted? : Seen → Option ℕ
  | .accepted c => some c
  | _ => none

/-- The character that was taken out of the queue, and the task. -/
def Seen.taken? : Seen → Option (ℕ × ℕ)
  | .taken pid c => some (pid, c)
  | _ => none

/-- The characters that left the queue, with the task that took each, or nothing for a lost one. -/
structure Fates (seen : List Seen) (q : KeyQueue) (fates : List (ℕ × Option ℕ)) : Prop where
  accepted : seen.filterMap Seen.accepted? = fates.map Prod.fst ++ q.keys
  taken : seen.filterMap Seen.taken? = fates.filterMap fun fate => fate.2.map (·, fate.1)

theorem KeyQueue.Step.fates {q q' : KeyQueue} {a : Seen}
    (h : ∃ fates, Fates seen q fates) (hstep : KeyQueue.Step capacity q a q') :
    ∃ fates, Fates (seen ++ [a]) q' fates := by
  obtain ⟨fates, hacc, htaken⟩ := h
  cases hstep with
  | accept _ | drop _ | refuse _ =>
    refine ⟨fates, ?_, ?_⟩
    · simp [hacc, Seen.accepted?]
    · simp [htaken, Seen.taken?]
  | focus =>
    -- what is in the queue is lost
    refine ⟨fates ++ q.keys.map (·, none), ?_, ?_⟩
    · simp [hacc, Seen.accepted?, Function.comp_def]
    · simp [htaken, Seen.taken?, List.filterMap_map]
  | @take pid c rest =>
    refine ⟨fates ++ [(c, some pid)], ?_, ?_⟩
    · simp [hacc, Seen.accepted?]
    · simp [htaken, Seen.taken?]

theorem KeyQueue.exists_fates {focus : Option ℕ} {q : KeyQueue}
    (hrun : Run (KeyQueue.Step capacity) ⟨[], focus⟩ seen q) : ∃ fates, Fates seen q fates := by
  have hstart : ∃ fates, Fates [] ⟨[], focus⟩ fates := ⟨[], rfl, rfl⟩
  have hkeep : ∀ done q a q', (∃ fates, Fates done q fates) → KeyQueue.Step capacity q a q' →
      ∃ fates, Fates (done ++ [a]) q' fates := fun done q a q' h hstep => hstep.fates h
  exact hrun.trace hkeep hstart

end

section

inductive KeyCall where
  | handler (scancode : ℕ)
  | readFromBuffer (pid : ℕ)
  | replaceCurForegroundPid (newPid : ℕ)
  | setForegroundPid (pid : Option ℕ)
  | setOperatorPid (pid : ℕ)
  deriving DecidableEq, Repr

variable (kbd : Keyboard)

def Keyboard.queue : KeyQueue :=
  ⟨queued keyboardBufferSize (2 ^ 32) kbd.buf kbd.read kbd.write, kbd.foregroundPid⟩

def isModifier (scancode : ℕ) : Bool :=
  scancode ∈ [0x2A, 0x36, 0xAA, 0xB6, 0xE0, 0x1D, 0x9D, 0x3A]

/-- The character of a key event, under the modifiers. -/
def typed (scancode : ℕ) : Option ℕ :=
  if isModifier scancode then none
  else if kbd.extendedPrefix then arrowKey scancode
  else if kbd.ctrlPressed ∧ scancode = 0x18 then none
  else if scancode < scancodeToAscii.length ∧ scancode < 0x80 ∧ characterOf kbd scancode ≠ 0 then
    some (characterOf kbd scancode)
  else none

/-- The key event gives the focus to the operator. -/
def callsOperator (scancode : ℕ) : Bool :=
  !isModifier scancode && !kbd.extendedPrefix && kbd.ctrlPressed && scancode == 0x18

def entering (c : ℕ) : Seen :=
  if kbd.queue.keys.length = keyboardBufferSize then .dropped c else .accepted c

/-- What is seen of a change of the focus, which only a pid below the number of tasks can get. -/
def focusing (pid : Option ℕ) : List Seen :=
  match pid with
  | none => []
  | some pid => if pid < maxTasks then [.focused pid] else []

def KeyCall.perform : KeyCall → Keyboard × List Seen
  | .handler scancode =>
    ((keyboardHandler kbd scancode).1,
      match typed kbd scancode with
      | some c => [entering kbd c]
      | none => if callsOperator kbd scancode then focusing kbd.operatorPid else [])
  | .readFromBuffer pid =>
    let res := keyboardReadFromBuffer kbd pid
    (res.1, (if kbd.foregroundPid = none then focusing (some pid) else []) ++
      match res.2 with
      | some c => [.taken pid c]
      | none => [.refused pid])
  | .replaceCurForegroundPid newPid =>
    ((keyboardReplaceCurForegroundPid kbd (some newPid)).1, focusing (some newPid))
  | .setForegroundPid pid =>
    (keyboardSetForegroundPid kbd pid,
      focusing (pid.or (kbd.operatorPid.or kbd.waitingQueue.head?)))
  | .setOperatorPid pid => ((keyboardSetOperatorPid kbd pid).1, [])

/-- The steps of the driver. A reader is a task. -/
def KeyStep (kbd : Keyboard) (step : KeyCall × List Seen) (kbd' : Keyboard) : Prop :=
  (∀ pid, step.1 = .readFromBuffer pid → pid < maxTasks) ∧ step.1.perform kbd = (kbd', step.2)

end

section

variable {kbd : Keyboard}

variable {pid : ℕ} {kbd' : Keyboard}

/-- The driver between two calls. -/
structure Keyboard.Orderly (kbd : Keyboard) : Prop where
  ring : Ring keyboardBufferSize (2 ^ 32) kbd.read kbd.write
  nodup : kbd.waitingQueue.Nodup
  waiting : ∀ pid ∈ kbd.waitingQueue, pid < maxTasks

/-- The driver is in order again, and the queue makes the steps that are seen. -/
structure Follows (kbd : Keyboard) (seen : List Seen) (kbd' : Keyboard) : Prop where
  orderly : kbd'.Orderly
  steps : Run (KeyQueue.Step keyboardBufferSize) kbd.queue seen kbd'.queue

theorem orderly_keyboardInit : keyboardInit.Orderly := by
  refine ⟨⟨⟨2 ^ 24, by decide⟩, by decide, by decide, by decide, by decide⟩, List.nodup_nil, ?_⟩
  exact fun pid hpid => absurd hpid List.not_mem_nil

theorem Keyboard.Orderly.length_waitingQueue_le (h : kbd.Orderly) :
    kbd.waitingQueue.length ≤ maxTasks := by
  have hsub : kbd.waitingQueue ⊆ List.range maxTasks := fun pid hpid =>
    List.mem_range.mpr (h.waiting pid hpid)
  have hle := (List.subperm_of_subset h.nodup hsub).length_le
  rwa [List.length_range] at hle

theorem follows_keyboardWriteToBuffer (h : kbd.Orderly) (c : ℕ) :
    Follows kbd [entering kbd c] (keyboardWriteToBuffer kbd c) := by
  have hlen : kbd.queue.keys.length = (kbd.write + 2 ^ 32 - kbd.read) % 2 ^ 32 := length_queued
  unfold entering keyboardWriteToBuffer
  rw [hlen]
  split_ifs with hfull
  · exact ⟨h, .cons (.drop (hlen.trans hfull)) (.nil _)⟩
  · have hroom : pending (2 ^ 32) kbd.read kbd.write < keyboardBufferSize :=
      Nat.lt_of_le_of_ne h.ring.pending_le hfull
    have hqueue := h.ring.queued_push kbd.buf hroom c
    refine ⟨⟨h.ring.push hroom, h.nodup, h.waiting⟩, .cons ?_ (.nil _)⟩
    have hstep : KeyQueue.Step keyboardBufferSize kbd.queue (.accepted c)
        ⟨kbd.queue.keys ++ [c], kbd.queue.focus⟩ := .accept (hlen.trans_lt hroom)
    rw [Keyboard.queue, ← hqueue] at hstep
    exact hstep

theorem follows_keyboardReplaceCurForegroundPid (h : kbd.Orderly) (pid : Option ℕ) :
    Follows kbd (focusing pid) (keyboardReplaceCurForegroundPid kbd pid).1 := by
  cases pid with
  | none => exact ⟨h, .nil _⟩
  | some pid =>
    unfold focusing keyboardReplaceCurForegroundPid
    by_cases hpid : pid < maxTasks
    · have hsmall : ¬256 ≤ pid := Nat.not_le_of_lt hpid
      simp only [if_pos hpid, if_neg hsmall]
      refine ⟨⟨h.ring.clear, h.nodup, h.waiting⟩, .cons ?_ (.nil _)⟩
      have hstep : KeyQueue.Step keyboardBufferSize kbd.queue (.focused pid) ⟨[], some pid⟩ := .focus
      rw [← h.ring.queued_clear kbd.buf] at hstep
      exact hstep
    · have hlarge : 256 ≤ pid := Nat.le_of_not_lt hpid
      simp only [if_neg hpid, if_pos hlarge]
      exact ⟨h, .nil _⟩

theorem Keyboard.Orderly.follows_nil (h : kbd.Orderly)
    (hring : kbd'.buf = kbd.buf ∧ kbd'.read = kbd.read ∧ kbd'.write = kbd.write)
    (hfocus : kbd'.foregroundPid = kbd.foregroundPid) (hnodup : kbd'.waitingQueue.Nodup)
    (hwaiting : ∀ pid ∈ kbd'.waitingQueue, pid < maxTasks) : Follows kbd [] kbd' := by
  obtain ⟨hbuf, hread, hwrite⟩ := hring
  have hqueue : kbd'.queue = kbd.queue := by
    simp only [Keyboard.queue, hbuf, hread, hwrite, hfocus]
  refine ⟨⟨?_, hnodup, hwaiting⟩, ?_⟩
  · rw [hread, hwrite]
    exact h.ring
  · rw [hqueue]
    exact .nil _

theorem follows_keyboardSetForegroundPid (h : kbd.Orderly) (pid : Option ℕ) :
    Follows kbd (focusing (pid.or (kbd.operatorPid.or kbd.waitingQueue.head?)))
      (keyboardSetForegroundPid kbd pid) := by
  cases pid with
  | some pid => exact follows_keyboardReplaceCurForegroundPid h (some pid)
  | none =>
    unfold keyboardSetForegroundPid
    cases hop : kbd.operatorPid with
    | some operator => exact follows_keyboardReplaceCurForegroundPid h (some operator)
    | none =>
      cases hqueue : kbd.waitingQueue with
      | nil => exact follows_keyboardReplaceCurForegroundPid h none
      | cons first rest =>
        have hnodup := h.nodup
        have hwaiting := h.waiting
        rw [hqueue] at hnodup hwaiting
        have hrest : Keyboard.Orderly { kbd with operatorPid := none, waitingQueue := rest } :=
          ⟨h.ring, hnodup.of_cons, fun pid hpid => hwaiting pid (List.mem_cons_of_mem _ hpid)⟩
        obtain ⟨horderly, hsteps⟩ := follows_keyboardReplaceCurForegroundPid hrest (some first)
        exact ⟨horderly, hsteps⟩

theorem keyboardHandler_of_not_modifier {scancode : ℕ} (h : ¬isModifier scancode = true) :
    keyboardHandler kbd scancode =
      if kbd.extendedPrefix then
        match arrowKey scancode with
        | some c =>
          (keyboardWriteToBuffer { kbd with extendedPrefix := false } c, kbd.foregroundPid)
        | none => ({ kbd with extendedPrefix := false }, none)
      else if kbd.ctrlPressed ∧ scancode = 0x18 then
        match kbd.operatorPid with
        | some pid => ((keyboardReplaceCurForegroundPid kbd (some pid)).1, none)
        | none => (kbd, none)
      else if scancode < scancodeToAscii.length ∧ scancode < 0x80 ∧
          characterOf kbd scancode ≠ 0 then
        (keyboardWriteToBuffer kbd (characterOf kbd scancode), kbd.foregroundPid)
      else (kbd, none) := by
  simp only [isModifier, List.mem_cons, List.not_mem_nil, or_false, decide_eq_true_eq, not_or] at h
  obtain ⟨h₁, h₂, h₃, h₄, h₅, h₆, h₇, h₈⟩ := h
  simp only [keyboardHandler, h₁, h₂, h₃, h₄, h₅, h₆, h₇, h₈, or_self, if_false] <;> rfl

theorem follows_keyboardHandler (h : kbd.Orderly) (scancode : ℕ) :
    Follows kbd ((KeyCall.handler scancode).perform kbd).2 (keyboardHandler kbd scancode).1 := by
  have hquiet : ∀ kbd' : Keyboard, kbd'.buf = kbd.buf ∧ kbd'.read = kbd.read ∧
      kbd'.write = kbd.write → kbd'.foregroundPid = kbd.foregroundPid →
      kbd'.waitingQueue = kbd.waitingQueue → Follows kbd [] kbd' := by
    intro kbd' hring hfocus hqueue
    exact h.follows_nil hring hfocus (hqueue ▸ h.nodup) (hqueue ▸ h.waiting)
  by_cases hmodifier : isModifier scancode = true
  · have hseen : ((KeyCall.handler scancode).perform kbd).2 = [] := by
      simp [KeyCall.perform, typed, callsOperator, hmodifier]
    rw [hseen]
    simp only [isModifier, List.mem_cons, List.not_mem_nil, or_false, decide_eq_true_eq] at hmodifier
    rcases hmodifier with rfl | rfl | rfl | rfl | rfl | rfl | rfl | rfl <;>
      exact hquiet _ ⟨rfl, rfl, rfl⟩ rfl rfl
  · rw [keyboardHandler_of_not_modifier hmodifier]
    simp only [KeyCall.perform, typed, callsOperator, hmodifier]
    by_cases hext : kbd.extendedPrefix = true
    · simp only [hext, if_true]
      cases arrowKey scancode with
      | none => exact hquiet _ ⟨rfl, rfl, rfl⟩ rfl rfl
      | some c =>
        have horderly : Keyboard.Orderly { kbd with extendedPrefix := false } :=
          ⟨h.ring, h.nodup, h.waiting⟩
        obtain ⟨horderly', hsteps⟩ := follows_keyboardWriteToBuffer horderly c
        exact ⟨horderly', hsteps⟩
    · simp only [hext]
      by_cases hchord : kbd.ctrlPressed = true ∧ scancode = 0x18
      · simp only [hchord.1, hchord.2]
        cases hop : kbd.operatorPid with
        | none => exact hquiet _ ⟨rfl, rfl, rfl⟩ rfl rfl
        | some pid => exact follows_keyboardReplaceCurForegroundPid h (some pid)
      · have hcalls : (!false && !false && kbd.ctrlPressed && scancode == 0x18) = false := by
          simpa using hchord
        simp only [if_neg hchord, hcalls]
        by_cases hprinted : scancode < scancodeToAscii.length ∧ scancode < 0x80 ∧
            characterOf kbd scancode ≠ 0
        · simp only [if_pos hprinted]
          exact follows_keyboardWriteToBuffer h _
        · simp only [if_neg hprinted]
          exact hquiet _ ⟨rfl, rfl, rfl⟩ rfl rfl

/-- `keyboard_read_from_buffer` behind the test for a missing focus. -/
def readFocused (kbd : Keyboard) (pid : ℕ) : Keyboard × Option ℕ :=
  if kbd.foregroundPid ≠ some pid then (keyboardAddToWaitingQueue kbd pid, none)
  else if kbd.read = kbd.write then (kbd, none)
  else
    ({ kbd with read := (kbd.read + 1) % 2 ^ 32 }, some (kbd.buf (kbd.read % keyboardBufferSize)))

def reading (pid : ℕ) (out : Option ℕ) : Seen :=
  match out with
  | some c => .taken pid c
  | none => .refused pid

theorem follows_keyboardAddToWaitingQueue (h : kbd.Orderly) (hpid : pid < maxTasks) :
    Follows kbd [] (keyboardAddToWaitingQueue kbd pid) := by
  unfold keyboardAddToWaitingQueue
  split_ifs with hmem
  · exact ⟨h, .nil _⟩
  · refine h.follows_nil ⟨rfl, rfl, rfl⟩ rfl ?_ fun other hother => ?_
    · exact List.nodup_append.mpr ⟨h.nodup, List.nodup_singleton pid, fun a ha b hb => by
        rw [List.mem_singleton.mp hb]
        exact fun heq => hmem (heq ▸ ha)⟩
    · rcases List.mem_append.mp hother with hold | hnew
      · exact h.waiting other hold
      · rw [List.mem_singleton.mp hnew]
        exact hpid

theorem follows_readFocused (h : kbd.Orderly) (hpid : pid < maxTasks) :
    Follows kbd [reading pid (readFocused kbd pid).2] (readFocused kbd pid).1 := by
  unfold readFocused
  split_ifs with hfocus hempty
  · obtain ⟨horderly, hsteps⟩ := follows_keyboardAddToWaitingQueue h hpid
    refine ⟨horderly, .cons (.refuse fun hfocused => ?_) hsteps⟩
    exact absurd hfocused hfocus
  · have hnil := (h.ring.queued_eq_nil_iff kbd.buf).mpr hempty
    exact ⟨h, .cons (.refuse fun _ => hnil) (.nil _)⟩
  · have hfocused : kbd.foregroundPid = some pid := not_not.mp hfocus
    refine ⟨⟨h.ring.pop hempty, h.nodup, h.waiting⟩, .cons ?_ (.nil _)⟩
    have hqueue := h.ring.queued_pop kbd.buf hempty
    simp only [Keyboard.queue, hqueue, hfocused]
    exact .take

theorem follows_keyboardReadFromBuffer (h : kbd.Orderly) (hpid : pid < maxTasks) :
    Follows kbd ((KeyCall.readFromBuffer pid).perform kbd).2 (keyboardReadFromBuffer kbd pid).1 := by
  by_cases hfocus : kbd.foregroundPid = none
  · obtain ⟨horderly, hsteps⟩ := follows_keyboardReplaceCurForegroundPid h (some pid)
    obtain ⟨horderly', hsteps'⟩ := follows_readFocused horderly hpid
    have hread : keyboardReadFromBuffer kbd pid =
        readFocused (keyboardReplaceCurForegroundPid kbd (some pid)).1 pid := by
      simp only [keyboardReadFromBuffer, if_pos hfocus]
      rfl
    have hseen : ((KeyCall.readFromBuffer pid).perform kbd).2 = focusing (some pid) ++
        [reading pid (keyboardReadFromBuffer kbd pid).2] := by
      simp only [KeyCall.perform, if_pos hfocus]
      cases (keyboardReadFromBuffer kbd pid).2 <;> rfl
    rw [hseen, hread]
    exact ⟨horderly', hsteps.append hsteps'⟩
  · have hread : keyboardReadFromBuffer kbd pid = readFocused kbd pid := by
      simp only [keyboardReadFromBuffer, if_neg hfocus]
      rfl
    have hseen : ((KeyCall.readFromBuffer pid).perform kbd).2 =
        [reading pid (keyboardReadFromBuffer kbd pid).2] := by
      simp only [KeyCall.perform, if_neg hfocus]
      cases (keyboardReadFromBuffer kbd pid).2 <;> rfl
    rw [hseen, hread]
    exact follows_readFocused h hpid

theorem KeyStep.follows {step : KeyCall × List Seen} (h : kbd.Orderly)
    (hstep : KeyStep kbd step kbd') : Follows kbd step.2 kbd' := by
  obtain ⟨call, seen⟩ := step
  obtain ⟨hreader, hperform⟩ := hstep
  dsimp only at hreader hperform
  obtain rfl : (call.perform kbd).1 = kbd' := congrArg Prod.fst hperform
  obtain rfl : (call.perform kbd).2 = seen := congrArg Prod.snd hperform
  cases call with
  | handler scancode => exact follows_keyboardHandler h scancode
  | readFromBuffer pid => exact follows_keyboardReadFromBuffer h (hreader pid rfl)
  | replaceCurForegroundPid newPid => exact follows_keyboardReplaceCurForegroundPid h (some newPid)
  | setForegroundPid pid => exact follows_keyboardSetForegroundPid h pid
  | setOperatorPid pid =>
    show Follows kbd [] (keyboardSetOperatorPid kbd pid).1
    unfold keyboardSetOperatorPid
    split_ifs <;> exact h.follows_nil ⟨rfl, rfl, rfl⟩ rfl h.nodup h.waiting

end

/-- In every run of the driver, what is seen are steps of a bounded queue, in which a task takes the
first character when it has the focus. Every character leaves at most once and in order. -/
theorem keyboard_is_bounded_queue {steps : List (KeyCall × List Seen)} {kbd : Keyboard}
    (hrun : Run KeyStep keyboardInit steps kbd) :
    Run (KeyQueue.Step keyboardBufferSize) ⟨[], none⟩ (steps.flatMap Prod.snd) kbd.queue ∧
    (∃ fates, Fates (steps.flatMap Prod.snd) kbd.queue fates) ∧
    (kbd.write + 2 ^ 32 - kbd.read) % 2 ^ 32 ≤ keyboardBufferSize ∧
    kbd.waitingQueue.length ≤ maxTasks := by
  have hstart : keyboardInit.Orderly ∧
      Run (KeyQueue.Step keyboardBufferSize) ⟨[], none⟩
        (List.flatMap Prod.snd ([] : List (KeyCall × List Seen))) keyboardInit.queue :=
    ⟨orderly_keyboardInit, .nil _⟩
  have hkeep : ∀ (done : List (KeyCall × List Seen)) kbd step kbd',
      kbd.Orderly ∧ Run (KeyQueue.Step keyboardBufferSize) ⟨[], none⟩
        (done.flatMap Prod.snd) kbd.queue →
      KeyStep kbd step kbd' →
      kbd'.Orderly ∧ Run (KeyQueue.Step keyboardBufferSize) ⟨[], none⟩
        ((done ++ [step]).flatMap Prod.snd) kbd'.queue := by
    rintro done kbd step kbd' ⟨horderly, hsteps⟩ hstep
    obtain ⟨horderly', hsteps'⟩ := hstep.follows horderly
    refine ⟨horderly', ?_⟩
    rw [List.flatMap_append, List.flatMap_singleton]
    exact hsteps.append hsteps'
  obtain ⟨horderly, hsteps⟩ := hrun.trace hkeep hstart
  rw [List.nil_append] at hsteps
  exact ⟨hsteps, KeyQueue.exists_fates hsteps, horderly.ring.pending_le,
    horderly.length_waitingQueue_le⟩

/-- A task gets the focus, a key is pressed, and the task takes its character. -/
theorem key_goes_to_reader : ∃ kbd, Run KeyStep keyboardInit
    [(.readFromBuffer 5, [.focused 5, .refused 5]), (.handler 0x1E, [.accepted 97]),
      (.readFromBuffer 5, [.taken 5 97])] kbd ∧
    Run (KeyQueue.Step keyboardBufferSize) ⟨[], none⟩
      [.focused 5, .refused 5, .accepted 97, .taken 5 97] kbd.queue := by
  have hread : ∀ (kbd : Keyboard) (seen : List Seen), ((KeyCall.readFromBuffer 5).perform kbd).2 = seen →
      KeyStep kbd (.readFromBuffer 5, seen) ((KeyCall.readFromBuffer 5).perform kbd).1 := by
    rintro kbd _ rfl
    exact ⟨fun pid hpid => by cases hpid; decide, rfl⟩
  have hrun : Run KeyStep keyboardInit
      [(.readFromBuffer 5, [.focused 5, .refused 5]), (.handler 0x1E, [.accepted 97]),
        (.readFromBuffer 5, [.taken 5 97])] _ :=
    .cons (hread _ _ (by decide)) (.cons ⟨nofun, Prod.ext rfl (by decide)⟩
      (.cons (hread _ _ (by decide)) (.nil _)))
  exact ⟨_, hrun, (keyboard_is_bounded_queue hrun).1⟩

/-- The places of `waiting_queue` that a call writes, by adding at the end or by moving up. -/
def KeyCall.queueWrites (kbd : Keyboard) : KeyCall → List ℕ
  | .readFromBuffer pid =>
    let kbd := if kbd.foregroundPid = none then keyboardSetForegroundPid kbd (some pid) else kbd
    if kbd.foregroundPid ≠ some pid ∧ pid ∉ kbd.waitingQueue then [kbd.waitingQueue.length] else []
  | .setForegroundPid none =>
    if kbd.operatorPid = none then List.range (kbd.waitingQueue.length - 1) else []
  | _ => []

/-- In every run of the driver the waiting tasks are distinct, so there is a place for each of them. -/
theorem waiting_queue_never_overflows {steps : List (KeyCall × List Seen)} {kbd : Keyboard}
    (hrun : Run KeyStep keyboardInit steps kbd) :
    kbd.waitingQueue.Nodup ∧ (∀ pid ∈ kbd.waitingQueue, pid < maxTasks) ∧
    kbd.waitingQueue.length ≤ maxTasks ∧
    ∀ step kbd', KeyStep kbd step kbd' → ∀ i ∈ step.1.queueWrites kbd, i < maxTasks := by
  have hkeep : ∀ kbd step kbd', kbd.Orderly → KeyStep kbd step kbd' → kbd'.Orderly :=
    fun kbd step kbd' horderly hstep => (hstep.follows horderly).orderly
  have horderly := hrun.invariant hkeep orderly_keyboardInit
  refine ⟨horderly.nodup, horderly.waiting, horderly.length_waitingQueue_le, ?_⟩
  rintro ⟨call, seen⟩ kbd' ⟨hreader, -⟩ i hi
  cases call with
  | handler scancode => cases hi
  | readFromBuffer pid =>
    have hset : Keyboard.Orderly
        (if kbd.foregroundPid = none then keyboardSetForegroundPid kbd (some pid) else kbd) := by
      split_ifs
      · exact (follows_keyboardSetForegroundPid horderly (some pid)).orderly
      · exact horderly
    revert hi
    simp only [KeyCall.queueWrites]
    generalize (if kbd.foregroundPid = none then _ else kbd) = kbd at hset ⊢
    split_ifs with hadds
    · -- the queue with the new task also has distinct pids
      have hadded := (follows_keyboardAddToWaitingQueue hset (hreader pid rfl)).orderly
      have hle := hadded.length_waitingQueue_le
      rw [keyboardAddToWaitingQueue, if_neg hadds.2, List.length_append] at hle
      rintro hi
      rw [List.mem_singleton.mp hi]
      exact hle
    · intro hi
      cases hi
  | replaceCurForegroundPid newPid => cases hi
  | setForegroundPid pid =>
    have hle := horderly.length_waitingQueue_le
    cases pid with
    | some pid => cases hi
    | none =>
      simp only [KeyCall.queueWrites] at hi
      split_ifs at hi
      · have hlt := List.mem_range.mp hi
        omega
      · cases hi
  | setOperatorPid pid => cases hi

/-- A task that does not have the focus waits at the first place. -/
theorem second_reader_waits : ∃ kbd, Run KeyStep keyboardInit
    [(.readFromBuffer 5, [.focused 5, .refused 5]), (.readFromBuffer 6, [.refused 6])] kbd ∧
    kbd.waitingQueue = [6] ∧ kbd.waitingQueue.length ≤ maxTasks := by
  have hrun : Run KeyStep keyboardInit
      [(.readFromBuffer 5, [.focused 5, .refused 5]), (.readFromBuffer 6, [.refused 6])] _ :=
    .cons ⟨fun pid hpid => by cases hpid; decide, Prod.ext rfl (by decide)⟩
      (.cons ⟨fun pid hpid => by cases hpid; decide, Prod.ext rfl (by decide)⟩ (.nil _))
  exact ⟨_, hrun, by decide, (waiting_queue_never_overflows hrun).2.2.1⟩

variable {kbd : Keyboard} {codes : List ℕ}

/-- The driver after some calls of `keyboard_handler`. -/
def handled (kbd : Keyboard) (codes : List ℕ) : Keyboard :=
  codes.foldl (fun kbd scancode => (keyboardHandler kbd scancode).1) kbd

/-- A byte is read as an extended key exactly when the byte before it is the prefix. -/
def PrefixIsLocal (kbd : Keyboard) (codes : List ℕ) : Prop :=
  ∀ before code after, codes = before ++ code :: after →
    ((handled kbd before).extendedPrefix = true ↔ before.getLast? = some 0xE0) ∧
    (before.getLast? ≠ some 0xE0 → typed (handled kbd before) code =
      typed { handled kbd before with extendedPrefix := false } code)

theorem extendedPrefix_keyboardHandler (kbd : Keyboard) (scancode : ℕ) :
    (keyboardHandler kbd scancode).1.extendedPrefix =
      (scancode == 0xE0 || isModifier scancode && kbd.extendedPrefix) := by
  have hwrite (kbd : Keyboard) (c : ℕ) :
      (keyboardWriteToBuffer kbd c).extendedPrefix = kbd.extendedPrefix := by
    unfold keyboardWriteToBuffer
    split <;> rfl
  by_cases hmodifier : isModifier scancode = true
  · rw [hmodifier]
    simp only [isModifier, List.mem_cons, List.not_mem_nil, or_false, decide_eq_true_eq] at hmodifier
    rcases hmodifier with rfl | rfl | rfl | rfl | rfl | rfl | rfl | rfl <;> rfl
  · have hprefix : (scancode == 0xE0) = false := by
      rw [beq_eq_false_iff_ne]
      rintro rfl
      exact hmodifier (by decide)
    rw [keyboardHandler_of_not_modifier hmodifier, hprefix, Bool.eq_false_iff.mpr hmodifier]
    split_ifs with hset
    · split
      · exact hwrite _ _
      · rfl
    · have hclear : kbd.extendedPrefix = false := by simpa using hset
      split
      · unfold keyboardReplaceCurForegroundPid
        dsimp only
        split <;> exact hclear
      · exact hclear
    · exact (hwrite _ _).trans (by simpa using hset)
    · simpa using hset

theorem extendedPrefix_handled (kbd : Keyboard) (codes : List ℕ) (scancode : ℕ) :
    (handled kbd (codes ++ [scancode])).extendedPrefix =
      (scancode == 0xE0 || isModifier scancode && (handled kbd codes).extendedPrefix) := by
  rw [handled, List.foldl_append]
  exact extendedPrefix_keyboardHandler _ _

/-- The prefix affects exactly the next byte if and only if no other modifier that a byte follows
comes directly after a prefix. -/
theorem prefix_is_local_iff (hkbd : kbd.extendedPrefix = false) :
    PrefixIsLocal kbd codes ↔ ∀ before code next after,
      codes = before ++ 0xE0 :: code :: next :: after → isModifier code = true → code = 0xE0 := by
  constructor
  · rintro hlocal before code next after rfl hmodifier
    have hset : (handled kbd (before ++ [0xE0] ++ [code])).extendedPrefix = true := by
      rw [extendedPrefix_handled, extendedPrefix_handled, hmodifier]
      simp
    have hlast := (hlocal (before ++ [0xE0] ++ [code]) next after (by simp)).1.mp hset
    simpa using hlast
  · intro hcodes before code after heq
    have hflag : (handled kbd before).extendedPrefix = true ↔ before.getLast? = some 0xE0 := by
      induction before using List.reverseRecOn generalizing code after with
      | nil => simp [handled, hkbd]
      | append_singleton before last ih =>
        rw [extendedPrefix_handled, List.getLast?_concat]
        have hbefore := ih last (code :: after) (by simp [heq])
        simp only [Bool.or_eq_true, beq_iff_eq, Bool.and_eq_true, Option.some.injEq]
        refine ⟨fun hset => hset.elim id fun hkept => ?_, .inl⟩
        obtain ⟨init, hinit⟩ := List.getLast?_eq_some_iff.mp (hbefore.mp hkept.2)
        exact hcodes init last code after (by simp [heq, hinit]) hkept.1
    refine ⟨hflag, fun hne => ?_⟩
    have hclear : (handled kbd before).extendedPrefix = false := by
      simpa using mt hflag.mp hne
    rw [← hclear]

/-- An arrow key and a letter. -/
theorem arrow_then_letter : PrefixIsLocal keyboardInit [0xE0, 0x48, 0x1E] := by
  refine (prefix_is_local_iff rfl).mpr fun before code next after heq hmodifier => ?_
  have hlength := congrArg List.length heq
  simp only [List.length_append, List.length_cons, List.length_nil] at hlength
  obtain rfl : before = [] := List.eq_nil_of_length_eq_zero (by omega)
  cases heq
  exact absurd hmodifier (by decide)

/-- After the right control key, a letter is read as an extended key. -/
theorem letter_after_right_control : ¬PrefixIsLocal keyboardInit [0xE0, 0x1D, 0x1E] ∧
    typed (handled keyboardInit [0xE0, 0x1D, 0xE0, 0x9D]) 0x1E = none ∧
      typed keyboardInit 0x1E = some 97 := by
  refine ⟨fun hlocal => ?_, by decide, by decide⟩
  have hlast := (hlocal [0xE0, 0x1D] 0x1E [] rfl).1.mp (by decide)
  cases hlast

end Taavi
