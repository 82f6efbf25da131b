import Taavi.Kernel.Moves

/-!
# What the clerks, the recovery and the keyboard do

The changes that touch both tasks and requests, each described once. Every change concerns the
thread of the current task and starts no other.
-/

namespace Taavi

open Lib

section

variable {k k' : Kernel} {c : Clerk} {i : ℕ} {r : Request} {pid : ℕ}

theorem sameTasks_handleRequest (reply : Reply) (hslot : k.ledger.slot c i = some r) :
    { k with ledger := k.ledger.modify c i fun r' => r'.settle (c.reply r reply) }.SameTasks
      (handleRequest k c i reply) := by
  unfold handleRequest settleRequest
  rw [hslot]
  dsimp only
  split
  · have hprio : k.SameTasks (k.modifyTask c.pid fun t => { t with priority := .normal }) :=
      sameTasks_priority
    obtain ⟨hled, hcur, hser, hident, hstart⟩ := hprio
    exact ⟨by rw [hled], hcur, hser, hident, hstart⟩
  · exact .refl _

theorem stateOf_handleRequest (reply : Reply) (q : ℕ) :
    (handleRequest k c i reply).stateOf q = k.stateOf q := by
  unfold handleRequest
  split
  · rfl
  · dsimp only
    split
    · exact stateOf_priority
    · rfl

theorem reaperKillTask_cases (k : Kernel) (targetPid : ℕ) (freed : Bool) :
    reaperKillTask k targetPid freed = (k, false) ∨
      (k.taskTable targetPid).isSome ∧ reaperKillTask k targetPid freed =
        ({ k with taskTable := assign k.taskTable targetPid none }, true) := by
  unfold reaperKillTask schedulerRemoveTask taskGet taskDestroy
  split
  · exact .inl rfl
  · split
    · exact .inl rfl
    · rename_i hget
      split
      · refine .inr ⟨?_, rfl⟩
        split at hget
        · simp [hget]
        · cases hget
      · exact .inl rfl

theorem reapRequest_spec (k : Kernel) (i : ℕ) (r : Request) (freed : Bool) :
    let res := reaperKillTask k r.targetPid freed
    reapRequest k i r freed =
      { res.1 with ledger := k.ledger.setStatus .reaper i (reapedStatus r res.2) } := by
  have hled : (reaperKillTask k r.targetPid freed).1.ledger = k.ledger := by
    rcases reaperKillTask_cases k r.targetPid freed with h | ⟨-, h⟩ <;> simp [h]
  unfold reapRequest
  simp only [hled]

/-- The task that a clerk wakes is the caller of its request, or any if the request is gone. -/
theorem Ledger.callerOf_cases (l : Ledger) (c : Clerk) (i ticket stale : ℕ) :
    (∃ r, l.slot c i = some r ∧ r.ticket = ticket ∧
        l.callerOf c i ticket stale = r.callerPid) ∨
      (∀ r, l.slot c i = some r → r.ticket ≠ ticket) ∧ l.callerOf c i ticket stale = stale := by
  unfold Ledger.callerOf
  cases hslot : l.slot c i with
  | none => exact .inr ⟨fun r h => (by cases h), rfl⟩
  | some r =>
    by_cases htick : r.ticket = ticket
    · exact .inl ⟨r, rfl, htick, if_pos htick⟩
    · refine .inr ⟨fun r' h => ?_, if_neg htick⟩
      cases h
      exact htick

theorem ledgerCheckRequest_cases (k : Kernel) (c : Clerk) :
    (ledgerCheckRequest k c.pid = k ∧ ∀ i, k.ledger.last c = some i → k.ledger.slot c i = none) ∨
      ∃ i r, k.ledger.last c = some i ∧ k.ledger.slot c i = some r ∧
        ledgerCheckRequest k c.pid =
          schedulerWakeTask { k with ledger := k.ledger.setStatus c i .terminated } r.callerPid := by
  unfold ledgerCheckRequest
  rw [ledgerGetQueue_pid]
  dsimp only
  cases hlast : k.ledger.last c with
  | none => exact .inl ⟨rfl, fun i h => by cases h⟩
  | some i =>
    dsimp only
    cases hslot : k.ledger.slot c i with
    | none =>
      refine .inl ⟨rfl, fun j h => ?_⟩
      cases h
      exact hslot
    | some r => exact .inr ⟨i, r, rfl, hslot, rfl⟩

/-- The task that `sys_exec` creates. -/
def newTask (serial : ℕ) : Task :=
  { state := .ready, priority := .normal, taskMode := .userTask, started := false
    serial := serial }

theorem createUserTask_spec (h : createUserTask k = some k') :
    ∃ slot, slot < maxTasks ∧ k.taskTable slot = none ∧ k' = { k with
        taskTable := assign k.taskTable slot (some (newTask k.nextSerial))
        nextSerial := k.nextSerial + 1 } := by
  unfold createUserTask at h
  obtain ⟨slot, hslot, rfl⟩ := Option.map_eq_some_iff.mp h
  obtain ⟨hbound, hempty, -⟩ := firstSlot_eq_some.mp hslot
  exact ⟨slot, hbound, by simpa using hempty, rfl⟩

end

namespace Sys

variable {s s₁ : Sys}

theorem key_cases (s : Sys) (scancode : ℕ) :
    ∃ kbd, (s.key scancode = { s with kernel := { s.kernel with keyboard := kbd } } ∧
        (keyboardHandler s.kernel.keyboard scancode).2 = none) ∨
      ∃ pid, (keyboardHandler s.kernel.keyboard scancode).2 = some pid ∧
        s.key scancode =
          { s with kernel := schedulerWakeTask { s.kernel with keyboard := kbd } pid } := by
  refine ⟨(keyboardHandler s.kernel.keyboard scancode).1, ?_⟩
  unfold key
  dsimp only
  cases hwoken : (keyboardHandler s.kernel.keyboard scancode).2 with
  | none => exact .inl ⟨rfl, rfl⟩
  | some pid => exact .inr ⟨pid, rfl, rfl⟩

theorem sameTasks_key (s : Sys) (scancode : ℕ) : s.kernel.SameTasks (s.key scancode).kernel := by
  obtain ⟨kbd, ⟨heq, -⟩ | ⟨target, -, heq⟩⟩ := key_cases s scancode
  · rw [heq]
    exact sameTasks_keyboard
  · rw [heq]
    exact sameTasks_keyboard.trans sameTasks_schedulerWakeTask

/-- A change of the system around the current task. -/
structure Local (s s₁ : Sys) : Prop where
  frame : s₁.frame = s.frame
  currentPid : s₁.kernel.currentPid = s.kernel.currentPid
  started : ∀ pid, pid ≠ s.kernel.currentPid → s₁.kernel.startedOf pid = true →
    s.kernel.startedOf pid = true

theorem Local.threads (h : Local s s₁) {pid : ℕ} {th : Thread} (hth : s₁.threadOf pid = some th) :
    pid = s.kernel.currentPid ∧ th = s₁.cpu ∨
      pid ≠ s.kernel.currentPid ∧ s.threadOf pid = some th := by
  unfold threadOf at hth ⊢
  rw [h.currentPid, h.frame] at hth
  by_cases hpid : pid = s.kernel.currentPid
  · rw [if_pos hpid] at hth
    exact .inl ⟨hpid, (Option.some.inj hth).symm⟩
  · rw [if_neg hpid] at hth
    split at hth
    · rename_i hstart
      have hstart' : Option.any Task.started (s.kernel.taskTable pid) = true :=
        h.started pid hpid hstart
      exact .inr ⟨hpid, by rw [if_neg hpid, if_pos hstart', hth]⟩
    · cases hth

@[simp] theorem threadOf_currentPid (s : Sys) : s.threadOf s.kernel.currentPid = some s.cpu :=
  if_pos rfl

end Sys

end Taavi
