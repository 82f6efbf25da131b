import Taavi.Kernel.System

/-!
# What the kernel does to tasks

Most functions of the kernel only change the states of tasks. A relation between kernels says so
once, and the scheduler gets one specification.
-/

namespace Taavi

open Lib

namespace Kernel

/-- Which task is in a slot: its serial number and its mode. -/
def identity (k : Kernel) (pid : ℕ) : Option (ℕ × TaskMode) :=
  (k.taskTable pid).map fun t => (t.serial, t.taskMode)

/-- Whether a slot holds a task that has been started. -/
def startedOf (k : Kernel) (pid : ℕ) : Bool := (k.taskTable pid).any Task.started

/-- Two kernels differ only in states and priorities, the scheduler's counters and the keyboard. -/
structure SameTasks (k k' : Kernel) : Prop where
  ledger : k'.ledger = k.ledger
  currentPid : k'.currentPid = k.currentPid
  nextSerial : k'.nextSerial = k.nextSerial
  identity : ∀ pid, k'.identity pid = k.identity pid
  startedOf : ∀ pid, k'.startedOf pid = k.startedOf pid

theorem SameTasks.refl (k : Kernel) : k.SameTasks k := ⟨rfl, rfl, rfl, fun _ => rfl, fun _ => rfl⟩

theorem SameTasks.trans {k₁ k₂ k₃ : Kernel} (h : k₁.SameTasks k₂) (h' : k₂.SameTasks k₃) :
    k₁.SameTasks k₃ :=
  ⟨h'.ledger.trans h.ledger, h'.currentPid.trans h.currentPid,
    h'.nextSerial.trans h.nextSerial, fun pid => (h'.identity pid).trans (h.identity pid),
    fun pid => (h'.startedOf pid).trans (h.startedOf pid)⟩

section

variable {k : Kernel} {pid q : ℕ} {f : Task → Task} {state : TaskState}

theorem identity_modifyTask (hser : ∀ t, (f t).serial = t.serial)
    (hmode : ∀ t, (f t).taskMode = t.taskMode) (q : ℕ) :
    (k.modifyTask pid f).identity q = k.identity q := by
  unfold identity
  rw [taskTable_modifyTask]
  split
  · rename_i heq
    rw [heq]
    cases k.taskTable pid <;> simp [hser, hmode]
  · rfl

theorem sameTasks_modifyTask (hser : ∀ t, (f t).serial = t.serial)
    (hmode : ∀ t, (f t).taskMode = t.taskMode) (hstart : ∀ t, (f t).started = t.started) :
    k.SameTasks (k.modifyTask pid f) := by
  refine ⟨rfl, rfl, rfl, identity_modifyTask hser hmode, fun q => ?_⟩
  unfold Kernel.startedOf
  rw [taskTable_modifyTask]
  split
  · rename_i heq
    rw [heq]
    cases k.taskTable pid <;> simp [hstart]
  · rfl

theorem sameTasks_setState : k.SameTasks (k.setState pid state) :=
  sameTasks_modifyTask (fun _ => rfl) (fun _ => rfl) fun _ => rfl

theorem stateOf_modifyTask :
    (k.modifyTask pid f).stateOf q =
      if q = pid then (k.taskTable pid).map fun t => (f t).state else k.stateOf q := by
  unfold stateOf
  rw [taskTable_modifyTask]
  split
  · cases k.taskTable pid <;> rfl
  · rfl

theorem stateOf_setState :
    (k.setState pid state).stateOf q =
      if q = pid then (k.stateOf pid).map fun _ => state else k.stateOf q := by
  unfold setState
  rw [stateOf_modifyTask]
  unfold stateOf
  cases k.taskTable pid <;> rfl

theorem stateOf_modifyTask_of_state (hstate : ∀ t, (f t).state = t.state) :
    (k.modifyTask pid f).stateOf q = k.stateOf q := by
  rw [stateOf_modifyTask]
  split
  · rename_i heq
    rw [heq]
    unfold stateOf
    cases k.taskTable pid <;> simp [hstate]
  · rfl

theorem isSome_stateOf : (k.stateOf pid).isSome = (k.taskTable pid).isSome := by
  unfold stateOf
  cases k.taskTable pid <;> rfl

theorem isSome_identity : (k.identity pid).isSome = (k.taskTable pid).isSome := by
  unfold identity
  cases k.taskTable pid <;> rfl

end

end Kernel

section

variable {k : Kernel} {pid q : ℕ} {state : TaskState}

variable {old : TaskState} {trip : RoundTrip} {priority : Priority}

theorem sameTasks_schedulerWakeTask : k.SameTasks (schedulerWakeTask k pid) := by
  unfold schedulerWakeTask
  split
  · exact .refl k
  · exact Kernel.sameTasks_setState

theorem stateOf_schedulerWakeTask :
    (schedulerWakeTask k pid).stateOf q =
      if q = pid ∧ pid < maxTasks then (k.stateOf pid).map fun _ => .ready else k.stateOf q := by
  unfold schedulerWakeTask
  by_cases hpid : maxTasks ≤ pid
  · rw [if_pos hpid, if_neg fun h => absurd h.2 (by omega)]
  · rw [if_neg hpid, Kernel.stateOf_setState]
    by_cases hq : q = pid
    · rw [if_pos hq, if_pos ⟨hq, by omega⟩]
    · rw [if_neg hq, if_neg fun h => hq h.1]

theorem stateOf_schedulerWakeTask_of_ne (h : q ≠ pid) :
    (schedulerWakeTask k pid).stateOf q = k.stateOf q := by
  rw [stateOf_schedulerWakeTask, if_neg fun hq => h hq.1]

theorem sameTasks_schedulerSetTaskState : k.SameTasks (schedulerSetTaskState k state) := by
  unfold schedulerSetTaskState
  split
  · exact .refl k
  · split
    · exact .refl k
    · split
      · exact Kernel.sameTasks_setState
      · split
        · exact Kernel.sameTasks_setState
        · exact .refl k
      · split
        · exact Kernel.sameTasks_setState
        · exact .refl k
      · exact Kernel.sameTasks_setState
      · exact .refl k

theorem stateOf_schedulerSetTaskState_of_ne (h : q ≠ k.currentPid) :
    (schedulerSetTaskState k state).stateOf q = k.stateOf q := by
  have hset : ∀ st, (k.setState k.currentPid st).stateOf q = k.stateOf q := by
    intro st
    rw [Kernel.stateOf_setState, if_neg h]
  unfold schedulerSetTaskState
  cases k.stateOf k.currentPid with
  | none => rfl
  | some old =>
    simp only
    split
    · rfl
    · cases state with
      | ready | blocked => by_cases hdead : old = .dead <;> simp [hdead, hset]
      | running => rfl
      | sleeping | dead => exact hset _

theorem stateOf_schedulerSetTaskState_blocked
    (h : k.stateOf k.currentPid = some old) :
    (schedulerSetTaskState k .blocked).stateOf k.currentPid =
      some (if old = .dead then .dead else .blocked) := by
  unfold schedulerSetTaskState
  rw [h]
  cases old <;> simp [Kernel.stateOf_setState, h]

theorem stateOf_schedulerSetTaskState_dead
    (h : k.stateOf k.currentPid = some old) :
    (schedulerSetTaskState k .dead).stateOf k.currentPid = some .dead := by
  unfold schedulerSetTaskState
  rw [h]
  cases old <;> simp [Kernel.stateOf_setState, h]

theorem sameTasks_block : k.SameTasks (trip.block k) := by
  unfold RoundTrip.block
  split
  · exact sameTasks_schedulerSetTaskState
  · exact Kernel.sameTasks_setState

theorem stateOf_block_of_ne (h : q ≠ k.currentPid) : (trip.block k).stateOf q = k.stateOf q := by
  unfold RoundTrip.block
  split
  · exact stateOf_schedulerSetTaskState_of_ne h
  · rw [Kernel.stateOf_setState, if_neg h]

theorem stateOf_block (h : k.stateOf k.currentPid = some old) :
    (trip.block k).stateOf k.currentPid =
      some (if trip.viaSetter ∧ old = .dead then .dead else .blocked) := by
  unfold RoundTrip.block
  by_cases hsetter : trip.viaSetter = true
  · rw [if_pos hsetter, stateOf_schedulerSetTaskState_blocked h]
    simp [hsetter]
  · rw [if_neg hsetter, Kernel.stateOf_setState, if_pos rfl, h]
    simp [hsetter]

theorem sameTasks_priority :
    k.SameTasks (k.modifyTask pid fun t => { t with priority := priority }) :=
  Kernel.sameTasks_modifyTask (fun _ => rfl) (fun _ => rfl) fun _ => rfl

theorem stateOf_priority :
    (k.modifyTask pid fun t => { t with priority := priority }).stateOf q = k.stateOf q :=
  Kernel.stateOf_modifyTask_of_state fun _ => rfl

theorem sameTasks_wakeClerk : k.SameTasks (wakeClerk k pid) := by
  unfold wakeClerk
  split
  · exact sameTasks_priority.trans sameTasks_schedulerWakeTask
  · exact sameTasks_schedulerWakeTask

theorem stateOf_wakeClerk_of_ne (h : q ≠ pid) : (wakeClerk k pid).stateOf q = k.stateOf q := by
  unfold wakeClerk
  split
  · exact (stateOf_schedulerWakeTask_of_ne h).trans stateOf_priority
  · exact stateOf_schedulerWakeTask_of_ne h

theorem changeKeyboardFocus_cases (k : Kernel) (targetPid : ℕ) :
    changeKeyboardFocus k targetPid = k ∨
      clerkCount ≤ targetPid ∧ (taskGet k targetPid).isSome ∧ ∃ keyboard,
        changeKeyboardFocus k targetPid =
          schedulerWakeTask (schedulerSetTaskState { k with keyboard := keyboard } .blocked)
            targetPid := by
  unfold changeKeyboardFocus
  split
  · exact .inl rfl
  · split
    · exact .inl rfl
    · rename_i hclerk hnone
      simp only
      split
      · refine .inr ⟨by omega, ?_, _, rfl⟩
        cases h : taskGet k targetPid with
        | none => simp [h] at hnone
        | some t => rfl
      · exact .inl rfl

theorem sameTasks_keyboard {kbd : Keyboard} : k.SameTasks { k with keyboard := kbd } :=
  ⟨rfl, rfl, rfl, fun _ => rfl, fun _ => rfl⟩

theorem sameTasks_changeKeyboardFocus (k : Kernel) (targetPid : ℕ) :
    k.SameTasks (changeKeyboardFocus k targetPid) := by
  rcases changeKeyboardFocus_cases k targetPid with heq | ⟨-, -, kbd, heq⟩
  · rw [heq]
    exact .refl _
  · rw [heq]
    exact sameTasks_keyboard.trans
      (sameTasks_schedulerSetTaskState.trans sameTasks_schedulerWakeTask)

end

end Taavi
