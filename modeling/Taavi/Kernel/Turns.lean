import Taavi.Kernel.Picking

/-!
# Turns of the tasks

Runs of `scheduler_switch` in which anything may happen between two switches. High priority runs at
most three times in a row while a normal task waits. Its picks can move the search back, and then a
normal task is passed over again.
-/

namespace Taavi

open Lib

/-- What happens to the scheduler. -/
inductive SchedEvent where
  | other (change : Kernel → Kernel)
  | switch (dirty : Bool) (next : ℕ)

def SchedEvent.isSwitch : SchedEvent → Bool
  | other _ => false
  | switch _ _ => true

/-- One event, where it can happen. -/
def schedStep (k : Kernel) : SchedEvent → Option Kernel
  | .other change =>
    some { change k with
      currentPid := k.currentPid
      highPrioPickCount := k.highPrioPickCount }
  | .switch dirty next => ((schedulerSwitch k dirty).filter fun r => r.1 = next).map Prod.snd

abbrev SchedRun (ok : Kernel → SchedEvent → Bool) : Kernel → List SchedEvent → Kernel → Prop :=
  Run (Guarded (fun k e => ok k e = true) fun k e k' => schedStep k e = some k')

variable {k k' : Kernel} {next a b : ℕ} {dirty : Bool} {es : List SchedEvent}

@[simp] theorem highPrioPickCount_modifyTask (k : Kernel) (pid : ℕ) (f : Task → Task) :
    (k.modifyTask pid f).highPrioPickCount = k.highPrioPickCount := rfl

@[simp] theorem highPrioPickCount_rouseClerk (k : Kernel) (pid : ℕ) (priority : Priority) :
    (rouseClerk k pid priority).highPrioPickCount = k.highPrioPickCount := rfl

theorem highPrioPickCount_beforePick (k : Kernel) (dirty : Bool) :
    (beforePick k dirty).highPrioPickCount = k.highPrioPickCount := by
  have hpreempt : (preemptCurrent k).highPrioPickCount = k.highPrioPickCount := by
    unfold preemptCurrent
    split <;> rfl
  rw [beforePick, ← hpreempt]
  generalize preemptCurrent k = k₀
  unfold schedulerCheckClerks
  simp only [apply_ite Kernel.highPrioPickCount, highPrioPickCount_modifyTask,
    highPrioPickCount_rouseClerk, ite_self]

theorem schedulerSwitch_picks (h : schedulerSwitch k dirty = some (next, k')) :
    k'.currentPid = next ∧ Picks (beforePick k dirty) next k'.highPrioPickCount := by
  unfold schedulerSwitch at h
  generalize beforePick k dirty = k₀ at h ⊢
  rcases schedulerFindNextTask_picks k₀ with ⟨picked, count, hpicks, hfind⟩ | ⟨-, hnone⟩
  · simp only [hfind, Option.some.injEq, Prod.mk.injEq] at h
    obtain ⟨rfl, rfl⟩ := h
    exact ⟨rfl, hpicks⟩
  · simp [hnone] at h

theorem picks_of_schedStep (h : schedStep k (.switch dirty next) = some k') :
    k'.currentPid = next ∧ Picks (beforePick k dirty) next k'.highPrioPickCount := by
  rw [schedStep] at h
  obtain ⟨⟨picked, k₁⟩, hfilt, rfl⟩ := Option.map_eq_some_iff.mp h
  obtain ⟨hswitch, hpick⟩ := Option.filter_eq_some_iff.mp hfilt
  obtain rfl : picked = next := of_decide_eq_true hpick
  exact schedulerSwitch_picks hswitch

theorem runnableWith_unique {p p' : Priority} (h : runnableWith k p next = true)
    (h' : runnableWith k p' next = true) : p = p' := by
  unfold runnableWith at h h'
  cases ht : k.taskTable next with
  | none => simp [ht] at h
  | some t =>
    simp only [ht, Option.any_some, decide_eq_true_eq] at h h'
    exact h.1.symm.trans h'.1

def twoTasks (last : ℕ) : Kernel :=
  { (createUserTask kernelMain).getD kernelMain with currentPid := last }

/-- The window clerk gets a request. -/
def guiWakes : SchedEvent := .other fun k => wakeClerk k Clerk.gui.pid

def guiSleeps : SchedEvent := .other fun k => k.setState Clerk.gui.pid .sleeping

theorem exists_schedRun {ok : Kernel → SchedEvent → Bool}
    (h : (exec (guardStep ok schedStep) k es).any (fun _ => true) = true) :
    ∃ k', SchedRun ok k es k' := by
  obtain ⟨k', hrun, -⟩ := exists_guarded_run_of_exec h
  exact ⟨k', hrun⟩

/-- No pick, or that of a task of high priority while one of normal priority can run. -/
def passesOver (k : Kernel) : SchedEvent → Bool
  | .other _ => true
  | .switch dirty next =>
    decide ((beforePick k dirty).Has .normal) && runnableWith (beforePick k dirty) .high next

theorem count_of_passesOver (hok : passesOver k (.switch dirty next) = true)
    (hstep : schedStep k (.switch dirty next) = some k') :
    k.highPrioPickCount < highPriorityPickLimit ∧
      k'.highPrioPickCount = k.highPrioPickCount + 1 := by
  obtain ⟨-, hpicks⟩ := picks_of_schedStep hstep
  unfold passesOver at hok
  rw [Bool.and_eq_true, decide_eq_true_eq] at hok
  obtain ⟨hnormal, hhigh⟩ := hok
  rw [← highPrioPickCount_beforePick k dirty]
  generalize k'.highPrioPickCount = count at hpicks
  cases hpicks with
  | high hcount _ => exact ⟨hcount, rfl⟩
  | normal _ hfind =>
    have := runnableWith_unique hhigh (of_schedulerSearchByPriority hfind).2
    cases this
  | late _ hnone _ | low _ hnone _ => exact absurd hnormal hnone

/-- While a task of normal priority can run, at most three picks in a row are of high priority. -/
theorem high_priority_cannot_monopolise (hrun : SchedRun passesOver k es k') :
    es.countP SchedEvent.isSwitch ≤ highPriorityPickLimit := by
  -- the picks are counted from the value of the counter at the beginning
  have hcounted : ∀ {k es k'}, SchedRun passesOver k es k' →
      es.countP SchedEvent.isSwitch = 0 ∨
        k.highPrioPickCount + es.countP SchedEvent.isSwitch ≤ highPriorityPickLimit := by
    intro k es k' hrun
    induction hrun with
    | nil => exact .inl rfl
    | @cons k k₁ k' e es hstep _ ih =>
      obtain ⟨hok, hstep⟩ := hstep
      cases e with
      | other change =>
        cases hstep
        rw [List.countP_cons_of_neg (by simp [SchedEvent.isSwitch])]
        exact ih
      | switch dirty next =>
        obtain ⟨hcount, hnext⟩ := count_of_passesOver hok hstep
        rw [hnext] at ih
        rw [List.countP_cons_of_pos (by rfl)]
        omega
  rcases hcounted hrun with hzero | hle
  · omega
  · omega

/-- The window clerk is picked three times in a row while two user tasks wait. -/
theorem window_clerk_runs_three_times : ∃ k', SchedRun passesOver (twoTasks 5)
    [guiWakes, .switch false 3, .switch false 3, .switch false 3] k' ∧
    [guiWakes, .switch false 3, .switch false 3, .switch false 3].countP SchedEvent.isSwitch ≤
      highPriorityPickLimit := by
  have hexec : ∃ k', SchedRun passesOver (twoTasks 5)
      [guiWakes, .switch false 3, .switch false 3, .switch false 3] k' :=
    exists_schedRun (by decide +kernel)
  obtain ⟨k', hrun⟩ := hexec
  exact ⟨k', hrun, high_priority_cannot_monopolise hrun⟩

/-- At a pick, `b` is a task of normal priority that can run, and `a` is not of another priority. -/
def contend (a b : ℕ) (k : Kernel) : SchedEvent → Bool
  | .other _ => true
  | .switch dirty _ =>
    runnableWith (beforePick k dirty) .normal b &&
      ((beforePick k dirty).taskTable a).all fun t => t.priority = .normal

/-- At a pick, the tasks of high priority that may be picked are on the way from `a` up to `b`. -/
def highBetween (a b : ℕ) (k : Kernel) : SchedEvent → Bool
  | .other _ => true
  | .switch dirty _ =>
    decide (highPriorityPickLimit ≤ k.highPrioPickCount ∨
      ∀ c < maxTasks, runnableWith (beforePick k dirty) .high c = true →
        stepsTo maxTasks a c < stepsTo maxTasks a b)

def takeTurns (a b : ℕ) (k : Kernel) (e : SchedEvent) : Bool := contend a b k e && highBetween a b k e

theorem pick_on_arc (ha : a < maxTasks) (hb : b < maxTasks)
    (hok : takeTurns a b k (.switch dirty next) = true)
    (hstep : schedStep k (.switch dirty next) = some k')
    (harc : stepsTo maxTasks a k.currentPid < stepsTo maxTasks a b) :
    next = b ∨ next ≠ a ∧ stepsTo maxTasks a k'.currentPid < stepsTo maxTasks a b := by
  obtain ⟨hcur, hpicks⟩ := picks_of_schedStep hstep
  simp only [takeTurns, contend, highBetween, Bool.and_eq_true, decide_eq_true_eq] at hok
  obtain ⟨⟨hrunnable, hnormal⟩, hbetween⟩ := hok
  rw [← highPrioPickCount_beforePick k dirty] at hbetween
  rw [← (beforePick_keeps (k := k) dirty).1.currentPid] at harc
  rw [hcur]
  generalize beforePick k dirty = k₀ at *
  generalize k'.highPrioPickCount = count at hpicks
  have hhas : k₀.Has .normal := ⟨b, hb, hrunnable⟩
  cases hpicks with
  | high hcount hfind =>
    obtain ⟨hnext, hhigh⟩ := of_schedulerSearchByPriority hfind
    right
    refine ⟨?_, (hbetween.resolve_left (by omega)) next hnext hhigh⟩
    -- `a` is of normal priority
    rintro rfl
    unfold runnableWith at hhigh
    cases ht : k₀.taskTable next with
    | none => simp [ht] at hhigh
    | some t => simp_all
  | normal _ hfind => exact find_circle_on_arc ha hb harc hrunnable hfind
  | late _ hnone _ | low _ hnone _ => exact absurd hhas hnone

theorem picked_before (ha : a < maxTasks) (hb : b < maxTasks)
    (hrun : SchedRun (takeTurns a b) k (es ++ [.switch dirty a]) k')
    (harc : stepsTo maxTasks a k.currentPid < stepsTo maxTasks a b) :
    ∃ d, .switch d b ∈ es := by
  induction es generalizing k with
  | nil =>
    rcases hrun with - | ⟨⟨hok, hstep⟩, -⟩
    rcases pick_on_arc ha hb hok hstep harc with rfl | ⟨hne, -⟩
    · exact absurd harc (by rw [stepsTo_self ha]; exact Nat.not_lt_zero _)
    · exact absurd rfl hne
  | cons e es ih =>
    rcases hrun with - | ⟨⟨hok, hstep⟩, hrest⟩
    cases e with
    | other change =>
      cases hstep
      obtain ⟨d, hd⟩ := ih hrest harc
      exact ⟨d, List.mem_cons_of_mem _ hd⟩
    | switch d next =>
      rcases pick_on_arc ha hb hok hstep harc with rfl | ⟨-, harc'⟩
      · exact ⟨d, List.mem_cons_self⟩
      · obtain ⟨d, hd⟩ := ih hrest harc'
        exact ⟨d, List.mem_cons_of_mem _ hd⟩

/-- Between two picks of a task of normal priority, another one that can run is picked, if the tasks
of high priority that may be picked have slots on the way from the first to the second task. -/
theorem normal_tasks_take_turns {d d' : Bool} (hab : a ≠ b) (ha : a < maxTasks) (hb : b < maxTasks)
    (hrun : SchedRun (takeTurns a b) k (.switch d a :: (es ++ [.switch d' a])) k') :
    ∃ d, .switch d b ∈ es := by
  rcases hrun with - | ⟨⟨-, hstep⟩, hrest⟩
  have hcurrent := (picks_of_schedStep hstep).1
  refine picked_before ha hb hrest ?_
  rw [hcurrent, stepsTo_self ha]
  refine Nat.pos_of_ne_zero fun hzero => hab ?_
  exact stepsTo_injective ha ha hb ((stepsTo_self ha).trans hzero.symm)

/-- The task in slot 5 gets its turn, although the window clerk runs in between. -/
theorem fifth_task_gets_turn : ∃ k', SchedRun (takeTurns 6 5) (twoTasks 5)
    (.switch false 6 :: ([guiWakes, .switch false 3, guiSleeps, .switch false 5] ++
      [.switch false 6])) k' ∧
    ∃ d, .switch d 5 ∈ [guiWakes, .switch false 3, guiSleeps, .switch false 5] := by
  have hexec : ∃ k', SchedRun (takeTurns 6 5) (twoTasks 5)
      (.switch false 6 :: ([guiWakes, .switch false 3, guiSleeps, .switch false 5] ++
        [.switch false 6])) k' := exists_schedRun (by decide +kernel)
  obtain ⟨k', hrun⟩ := hexec
  exact ⟨k', hrun, normal_tasks_take_turns (by decide) (by decide) (by decide) hrun⟩

/-- The task in slot 6 is passed over, because the window clerk has moved the search back. -/
theorem sixth_task_passed_over : (∃ k', SchedRun (contend 5 6) (twoTasks 6)
    (.switch false 5 :: ([guiWakes, .switch false 3, guiSleeps] ++ [.switch false 5])) k') ∧
    ∀ d, .switch d 6 ∉ [guiWakes, .switch false 3, guiSleeps] := by
  refine ⟨exists_schedRun (by decide +kernel), fun d hd => ?_⟩
  simp [guiWakes, guiSleeps] at hd

end Taavi
