import Taavi.Kernel.Effects

/-!
# What the scheduler does

`scheduler_switch` chooses a task that is ready or running and changes no blocked or dead one. Every
thread afterwards is one from before or the entry of the chosen task.
-/

namespace Taavi

open Lib

/-- The states in which a task waits to be woken, or for the reaper. -/
def TaskState.parked (state : TaskState) : Prop := state = .blocked ∨ state = .dead

/-- The same tasks are blocked and dead, but the idle task may have been woken. -/
def Kernel.KeepsParked (k k' : Kernel) : Prop :=
  (∀ q (state : TaskState), state.parked → k'.stateOf q = some state → k.stateOf q = some state) ∧
  ∀ q (state : TaskState), q ≠ idleTaskPid → state.parked → k.stateOf q = some state →
    k'.stateOf q = some state

section

variable {k k' : Kernel} {pid q next : ℕ} {f : Task → Task}

variable {priority : Priority}

theorem Kernel.KeepsParked.refl (k : Kernel) : k.KeepsParked k :=
  ⟨fun _ _ _ h => h, fun _ _ _ _ h => h⟩

theorem Kernel.KeepsParked.trans {k₁ k₂ k₃ : Kernel} (h : k₁.KeepsParked k₂)
    (h' : k₂.KeepsParked k₃) : k₁.KeepsParked k₃ :=
  ⟨fun q state hstate hq => h.1 q state hstate (h'.1 q state hstate hq),
    fun q state hidle hstate hq =>
      h'.2 q state hidle hstate (h.2 q state hidle hstate hq)⟩

theorem Kernel.keepsParked_modifyTask
    (hf : ∀ t state, TaskState.parked state → ((f t).state = state ↔ t.state = state)) :
    k.KeepsParked (k.modifyTask pid f) := by
  have hiff : ∀ q (state : TaskState), state.parked →
      ((k.modifyTask pid f).stateOf q = some state ↔ k.stateOf q = some state) := by
    intro q state hstate
    rw [Kernel.stateOf_modifyTask]
    split
    · rename_i heq
      rw [heq]
      unfold Kernel.stateOf
      cases k.taskTable pid with
      | none => simp
      | some t => simpa using hf t state hstate
    · rfl
  exact ⟨fun q state hstate => (hiff q state hstate).mp,
    fun q state _ hstate => (hiff q state hstate).mpr⟩

theorem sameTasks_rouseClerk : k.SameTasks (rouseClerk k pid priority) := by
  refine Kernel.sameTasks_modifyTask (fun t => ?_) (fun t => ?_) fun t => ?_ <;>
  · split <;> rfl

theorem keepsParked_rouseClerk : k.KeepsParked (rouseClerk k pid priority) := by
  refine Kernel.keepsParked_modifyTask fun t state hstate => ?_
  split
  · rename_i hsleeping
    rcases hstate with rfl | rfl <;> simp [hsleeping.2]
  · rfl

theorem rouseClerk_if (p : Prop) [Decidable p] :
    k.SameTasks (if p then rouseClerk k pid priority else k) ∧
      k.KeepsParked (if p then rouseClerk k pid priority else k) := by
  split
  · exact ⟨sameTasks_rouseClerk, keepsParked_rouseClerk⟩
  · exact ⟨.refl k, .refl k⟩

theorem rouseIdle_if (p : Prop) [Decidable p] :
    let k' := if p then k else k.modifyTask idleTaskPid fun t =>
      if t.taskMode ≠ .userTask then { t with state := .ready, priority := .low } else t
    k.SameTasks k' ∧ k.KeepsParked k' := by
  intro k'
  simp only [k']
  split
  · exact ⟨.refl k, .refl k⟩
  · refine ⟨Kernel.sameTasks_modifyTask (fun t => ?_) (fun t => ?_) fun t => ?_, ?_⟩
    · split <;> rfl
    · split <;> rfl
    · split <;> rfl
    · refine ⟨fun q state hstate hq => ?_, fun q state hidle _ hq => ?_⟩
      · rw [Kernel.stateOf_modifyTask] at hq
        split at hq
        · rename_i hidle
          rw [hidle]
          unfold Kernel.stateOf
          cases htask : k.taskTable idleTaskPid with
          | none => simp [htask] at hq
          | some t =>
            rw [htask, Option.map_some] at hq
            split at hq
            · rcases hstate with rfl | rfl <;> cases hq
            · exact hq
        · exact hq
      · rw [Kernel.stateOf_modifyTask, if_neg hidle]
        exact hq

theorem schedulerCheckClerks_keeps (dirty : Bool) :
    k.SameTasks (schedulerCheckClerks k dirty) ∧ k.KeepsParked (schedulerCheckClerks k dirty) := by
  unfold schedulerCheckClerks
  extract_lets k₁ k₂ k₃ k₄
  have h₁ : k.SameTasks k₁ ∧ k.KeepsParked k₁ := rouseClerk_if _
  have h₂ : k₁.SameTasks k₂ ∧ k₁.KeepsParked k₂ := rouseClerk_if _
  have h₃ : k₂.SameTasks k₃ ∧ k₂.KeepsParked k₃ := rouseClerk_if _
  have h₄ : k₃.SameTasks k₄ ∧ k₃.KeepsParked k₄ := rouseIdle_if _
  have hsame := ((h₁.1.trans h₂.1).trans h₃.1).trans h₄.1
  have hparked := ((h₁.2.trans h₂.2).trans h₃.2).trans h₄.2
  clear_value k₄
  split
  · have h₅ : k₄.SameTasks (rouseClerk k₄ Clerk.doc.pid .low) := sameTasks_rouseClerk
    obtain ⟨hled, hcur, hser, hident, hstart⟩ := hsame.trans h₅
    exact ⟨⟨hled, hcur, hser, hident, hstart⟩, hparked.trans keepsParked_rouseClerk⟩
  · exact ⟨{ hsame with },
      hparked⟩

theorem preemptCurrent_keeps : k.SameTasks (preemptCurrent k) ∧ k.KeepsParked (preemptCurrent k) := by
  unfold preemptCurrent
  split
  · refine ⟨Kernel.sameTasks_modifyTask (fun t => ?_) (fun t => ?_) fun t => ?_,
      Kernel.keepsParked_modifyTask fun t state hstate => ?_⟩
    · split <;> rfl
    · split <;> rfl
    · split <;> rfl
    · split
      · rename_i hruns
        rcases hstate with rfl | rfl <;> simp [hruns]
      · rfl
  · exact ⟨.refl k, .refl k⟩

theorem beforePick_keeps (dirty : Bool) :
    k.SameTasks (beforePick k dirty) ∧ k.KeepsParked (beforePick k dirty) :=
  ⟨preemptCurrent_keeps.1.trans (schedulerCheckClerks_keeps dirty).1,
    preemptCurrent_keeps.2.trans (schedulerCheckClerks_keeps dirty).2⟩

/-- A slot can run if its task is ready or running. -/
def Runnable (k : Kernel) (pid : ℕ) : Prop :=
  pid < maxTasks ∧ (k.stateOf pid = some .ready ∨ k.stateOf pid = some .running)

theorem runnable_of_schedulerSearchByPriority {startingPos : ℕ}
    (h : schedulerSearchByPriority k priority startingPos = some pid) : Runnable k pid := by
  unfold schedulerSearchByPriority at h
  have hmem := List.mem_of_find?_eq_some h
  have hrunnable := List.find?_some h
  obtain ⟨i, -, rfl⟩ := List.mem_map.mp hmem
  refine ⟨Nat.mod_lt _ (by decide), ?_⟩
  unfold runnableWith at hrunnable
  unfold Kernel.stateOf
  obtain ⟨t, htask, hrunnable⟩ := Option.any_eq_true _ _ |>.mp hrunnable
  simp only [decide_eq_true_eq] at hrunnable
  simpa [htask] using hrunnable.2

theorem schedulerFindNextTask_spec (k : Kernel) :
    (∃ count, (schedulerFindNextTask k).1 = { k with highPrioPickCount := count }) ∧
      ∀ pid, (schedulerFindNextTask k).2 = some pid → Runnable k pid := by
  unfold schedulerFindNextTask
  split
  · rename_i next hsearch
    refine ⟨⟨_, rfl⟩, fun pid hpid => ?_⟩
    obtain rfl : next = pid := by simpa using hpid
    split at hsearch
    · exact runnable_of_schedulerSearchByPriority hsearch
    · cases hsearch
  · -- one search for each priority
    iterate 4
      split
      · rename_i next hsearch
        exact ⟨⟨_, rfl⟩, fun pid hpid => runnable_of_schedulerSearchByPriority (hsearch.trans hpid)⟩
    exact ⟨⟨_, rfl⟩, fun pid hpid => by simp at hpid⟩

/-- What `scheduler_switch` does to the kernel. -/
structure Picked (k : Kernel) (next : ℕ) (k' : Kernel) : Prop where
  ledger : k'.ledger = k.ledger
  nextSerial : k'.nextSerial = k.nextSerial
  identity : ∀ pid, k'.identity pid = k.identity pid
  currentPid : k'.currentPid = next
  bound : next < maxTasks
  running : k'.stateOf next = some .running
  started : ∀ pid, k'.startedOf pid = (k.startedOf pid || decide (pid = next))
  parked : k.KeepsParked k'

theorem picked_runNext (h : Runnable k next) : Picked k next (runNext k next) := by
  obtain ⟨hbound, hstate⟩ := h
  obtain ⟨t, htask, htstate⟩ :
      ∃ t, k.taskTable next = some t ∧ (t.state = .ready ∨ t.state = .running) := by
    unfold Kernel.stateOf at hstate
    cases htask : k.taskTable next with
    | none => simp [htask] at hstate
    | some t => exact ⟨t, rfl, by simpa [htask] using hstate⟩
  have hother : ∀ pid, pid ≠ next → (runNext k next).taskTable pid = k.taskTable pid :=
    fun pid hpid => assign_of_ne _ _ hpid
  have hnext : (runNext k next).taskTable next = some { t with state := .running, started := true } := by
    unfold runNext
    rcases htstate with hready | hruns
    · simp [Kernel.modifyTask, htask, hready]
    · simp [Kernel.modifyTask, htask, hruns]
  have hparked : ∀ pid (state : TaskState), state.parked →
      ((runNext k next).stateOf pid = some state ↔ k.stateOf pid = some state) := by
    intro pid state hstate
    by_cases hpid : pid = next
    · rcases hstate with rfl | rfl <;> rcases htstate with h | h <;>
        simp [Kernel.stateOf, hpid, hnext, htask, h]
    · simp [Kernel.stateOf, hother pid hpid]
  refine ⟨rfl, rfl, fun pid => ?_, rfl, hbound, by simp [Kernel.stateOf, hnext], fun pid => ?_,
    fun pid state hstate => (hparked pid state hstate).mp,
    fun pid state _ hstate => (hparked pid state hstate).mpr⟩
  · by_cases hpid : pid = next
    · simp [Kernel.identity, hpid, hnext, htask]
    · simp [Kernel.identity, hother pid hpid]
  · by_cases hpid : pid = next
    · simp [Kernel.startedOf, hpid, hnext]
    · simp [Kernel.startedOf, hother pid hpid, hpid]

theorem picked_of_schedulerSwitch {dirty : Bool} (h : schedulerSwitch k dirty = some (next, k')) :
    Picked k next k' := by
  obtain ⟨hsame, hparked⟩ := beforePick_keeps (k := k) dirty
  obtain ⟨⟨count, hcount⟩, hfound⟩ := schedulerFindNextTask_spec (beforePick k dirty)
  unfold schedulerSwitch at h
  generalize beforePick k dirty = k₁ at h hsame hparked hcount hfound
  split at h
  · rename_i k₂ next' hfind
    obtain ⟨rfl, rfl⟩ : next' = next ∧ runNext k₂ next' = k' := by simpa using h
    rw [hfind] at hcount hfound
    obtain rfl : k₂ = _ := hcount
    have hrunnable : Runnable { k₁ with highPrioPickCount := count } next' := hfound next' rfl
    have hpick := picked_runNext hrunnable
    exact ⟨hpick.ledger.trans hsame.ledger, hpick.nextSerial.trans hsame.nextSerial,
      fun pid => (hpick.identity pid).trans (hsame.identity pid), rfl, hpick.bound,
      hpick.running, fun pid => (hpick.started pid).trans (by rw [← hsame.startedOf]; rfl),
      hparked.trans hpick.parked⟩
  · cases h

end

end Taavi
