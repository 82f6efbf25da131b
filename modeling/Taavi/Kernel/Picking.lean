import Taavi.Kernel.Switching
import Taavi.Lib.Circle
import Taavi.Lib.Runs

/-!
# Which task the scheduler picks

What `scheduler_check_clerks` and `scheduler_find_next_task` do for every task table: who is roused,
and who is found first behind the current task.
-/

namespace Taavi

open Lib List Option

variable {k k' : Kernel} {pid q next : ℕ} {priority : Priority} {dirty : Bool}

theorem Kernel.SameTasks.exists_mode (h : k.SameTasks k') {t : Task}
    (ht : k.taskTable pid = some t) : ∃ u, k'.taskTable pid = some u ∧ u.taskMode = t.taskMode := by
  have hident := h.identity pid
  rw [Kernel.identity, Kernel.identity, ht] at hident
  obtain ⟨u, hu, heq⟩ := map_eq_some_iff.mp hident
  exact ⟨u, hu, (Prod.mk.inj heq).2⟩

/-- Some tasks were made ready, and the others are as they were. -/
def Kernel.Rouses (k k' : Kernel) : Prop :=
  ∀ q, k'.taskTable q = k.taskTable q ∨ k'.stateOf q = some .ready

theorem Kernel.Rouses.refl (k : Kernel) : k.Rouses k := fun _ => .inl rfl

theorem Kernel.Rouses.trans {k₁ k₂ k₃ : Kernel} (h : k₁.Rouses k₂) (h' : k₂.Rouses k₃) :
    k₁.Rouses k₃ := by
  intro q
  rcases h' q with hsame' | hready
  · rcases h q with hsame | hready
    · exact .inl (hsame'.trans hsame)
    · exact .inr (by rwa [Kernel.stateOf, hsame'])
  · exact .inr hready

theorem Kernel.Rouses.task (h : k.Rouses k') {t : Task} (ht : k'.taskTable q = some t)
    (hstate : t.state ≠ .ready) : k.taskTable q = some t := by
  rcases h q with hsame | hready
  · rwa [← hsame]
  · rw [Kernel.stateOf, ht] at hready
    exact absurd (Option.some.inj hready) hstate

theorem Kernel.Rouses.ready (h : k.Rouses k') (hready : k.stateOf q = some .ready) :
    k'.stateOf q = some .ready := by
  rcases h q with hsame | hready'
  · rwa [Kernel.stateOf, hsame]
  · exact hready'

theorem Kernel.rouses_modifyTask {f : Task → Task} (hf : ∀ t, f t = t ∨ (f t).state = .ready) :
    k.Rouses (k.modifyTask pid f) := by
  intro q
  rw [Kernel.stateOf_modifyTask, taskTable_modifyTask]
  split
  · rename_i hq
    cases ht : k.taskTable pid with
    | none => exact .inl (by rw [hq, ht]; rfl)
    | some t =>
      rcases hf t with hsame | hready
      · exact .inl (by rw [hq, ht, map_some, hsame])
      · exact .inr (by rw [map_some, hready])
  · exact .inl rfl

theorem rouses_rouseClerk : k.Rouses (rouseClerk k pid priority) := by
  refine Kernel.rouses_modifyTask fun t => ?_
  split
  · exact .inr rfl
  · exact .inl rfl

theorem rouses_rouseClerk_if (p : Prop) [Decidable p] :
    k.Rouses (if p then rouseClerk k pid priority else k) := by
  split
  · exact rouses_rouseClerk
  · exact .refl k

theorem rouses_rouseIdle (p : Prop) [Decidable p] :
    k.Rouses (if p then k else k.modifyTask idleTaskPid fun t =>
      if t.taskMode ≠ .userTask then { t with state := .ready, priority := .low } else t) := by
  split
  · exact .refl k
  · refine Kernel.rouses_modifyTask fun t => ?_
    split
    · exact .inr rfl
    · exact .inl rfl

theorem rouses_maintain (p : Prop) [Decidable p] {n n' : ℕ} :
    k.Rouses (if p then { rouseClerk k pid priority with docMaintenanceCounter := n }
      else { k with docMaintenanceCounter := n' }) := by
  split
  · have hroused : k.Rouses (rouseClerk k pid priority) := rouses_rouseClerk
    exact hroused
  · exact .refl k

theorem rouses_schedulerCheckClerks (k : Kernel) (dirty : Bool) :
    k.Rouses (schedulerCheckClerks k dirty) := by
  unfold schedulerCheckClerks
  extract_lets k₁ k₂ k₃ k₄
  have h₁ : k.Rouses k₁ := rouses_rouseClerk_if _
  have h₂ : k₁.Rouses k₂ := rouses_rouseClerk_if _
  have h₃ : k₂.Rouses k₃ := rouses_rouseClerk_if _
  have h₄ : k₃.Rouses k₄ := rouses_rouseIdle _
  exact (((h₁.trans h₂).trans h₃).trans h₄).trans (rouses_maintain _)

/-- The slot holds a clerk that sleeps. -/
def Kernel.Asleep (k : Kernel) (pid : ℕ) : Prop :=
  ∃ t, k.taskTable pid = some t ∧ t.taskMode ≠ .userTask ∧ t.state = .sleeping

theorem Kernel.Rouses.asleep (h : k.Rouses k') (hasleep : k'.Asleep q) : k.Asleep q := by
  obtain ⟨t, ht, hmode, hstate⟩ := hasleep
  exact ⟨t, h.task ht (by rw [hstate]; decide), hmode, hstate⟩

theorem not_asleep_rouseClerk (p : Prop) [Decidable p] (hp : p) :
    ¬ (if p then rouseClerk k pid priority else k).Asleep pid := by
  rw [if_pos hp]
  rintro ⟨t, ht, hmode, hstate⟩
  rw [rouseClerk, Kernel.taskTable_modifyTask, if_pos rfl] at ht
  obtain ⟨u, -, rfl⟩ := map_eq_some_iff.mp ht
  split_ifs at hmode hstate with hu
  exact hu ⟨hmode, hstate⟩

theorem not_asleep_schedulerCheckClerks {c : Clerk} (hc : c ∈ [Clerk.fs, .gui, .reaper])
    (hpos : 0 < ledgerCountClerkReqs k.ledger c) : ¬ (schedulerCheckClerks k dirty).Asleep c.pid := by
  intro h
  unfold schedulerCheckClerks at h
  extract_lets k₁ k₂ k₃ k₄ at h
  have hled₁ : k₁.ledger = k.ledger := (rouseClerk_if _).1.ledger
  have hled₂ : k₂.ledger = k.ledger := (rouseClerk_if _).1.ledger.trans hled₁
  have h₄ : k₄.Asleep c.pid := (rouses_maintain _).asleep h
  have h₃ : k₃.Asleep c.pid := (rouses_rouseIdle _).asleep h₄
  have h₂ : k₂.Asleep c.pid := (rouses_rouseClerk_if _).asleep h₃
  have h₁ : k₁.Asleep c.pid := (rouses_rouseClerk_if _).asleep h₂
  simp only [mem_cons, not_mem_nil, or_false] at hc
  rcases hc with rfl | rfl | rfl
  · exact not_asleep_rouseClerk _ (by rwa [hled₁]) h₂
  · exact not_asleep_rouseClerk _ (.inl hpos) h₁
  · exact not_asleep_rouseClerk _ (.inl (by rwa [hled₂])) h₃

theorem ledgerCountClerkReqs_pos {l : Ledger} {c : Clerk} {i : ℕ} {r : Request}
    (hi : i < c.maxEntries) (hslot : l.slot c i = some r) (hr : r.unfinished = true) :
    0 < ledgerCountClerkReqs l c := by
  refine length_pos_of_mem (mem_filter.mpr ⟨mem_range.mpr hi, ?_⟩)
  rw [hslot]
  exact hr

theorem exists_ready_schedulerCheckClerks {t : Task} (hidle : k.taskTable idleTaskPid = some t)
    (hmode : t.taskMode ≠ .userTask) :
    ∃ q < maxTasks, (schedulerCheckClerks k dirty).stateOf q = some .ready := by
  unfold schedulerCheckClerks
  extract_lets k₁ k₂ k₃ k₄
  have hsame : k.SameTasks k₃ :=
    ((rouseClerk_if _).1.trans (rouseClerk_if _).1).trans (rouseClerk_if _).1
  have h₄ : ∃ q < maxTasks, k₄.stateOf q = some .ready := by
    cases hfst : firstSlot maxTasks fun i => decide (k₃.stateOf i = some .ready) with
    | some q =>
      have hk₄ : k₄ = k₃ := if_pos (by rw [schedulerHasRunnableTask, hfst]; rfl)
      obtain ⟨hq, hready, -⟩ := firstSlot_eq_some.mp hfst
      exact ⟨q, hq, hk₄ ▸ of_decide_eq_true hready⟩
    | none =>
      have hk₄ : k₄ = k₃.modifyTask idleTaskPid fun t =>
          if t.taskMode ≠ .userTask then { t with state := .ready, priority := .low } else t :=
        if_neg (by rw [schedulerHasRunnableTask, hfst]; simp)
      -- the idle clerk is still a clerk
      obtain ⟨u, hu, humode⟩ := hsame.exists_mode hidle
      refine ⟨idleTaskPid, by decide, ?_⟩
      rw [hk₄, Kernel.stateOf_modifyTask, if_pos rfl, hu, map_some, if_pos (humode ▸ hmode)]
  obtain ⟨q, hq, hready⟩ := h₄
  exact ⟨q, hq, (rouses_maintain _).ready hready⟩

/-- Some task of the class can run. -/
def Kernel.Has (k : Kernel) (priority : Priority) : Prop :=
  ∃ b < maxTasks, runnableWith k priority b = true

theorem schedulerSearchByPriority_eq_none {start : ℕ} (hstart : start ≤ 1) :
    schedulerSearchByPriority k priority start = none ↔ ¬ k.Has priority := by
  have hcircle : schedulerSearchByPriority k priority start =
    (circle maxTasks k.currentPid start).find? (runnableWith k priority) := rfl
  rw [hcircle, find_circle_eq_none (by decide) hstart]
  simp [Kernel.Has]

theorem of_schedulerSearchByPriority {start : ℕ}
    (h : schedulerSearchByPriority k priority start = some next) :
    next < maxTasks ∧ runnableWith k priority next = true :=
  of_find_circle (by decide) h

/-- The choice of `scheduler_find_next_task`, with the counter that it leaves. -/
inductive Picks (k : Kernel) : ℕ → ℕ → Prop
  | high {next : ℕ} : k.highPrioPickCount < highPriorityPickLimit →
      schedulerSearchByPriority k .high 1 = some next → Picks k next (k.highPrioPickCount + 1)
  | normal {next : ℕ} : (k.highPrioPickCount < highPriorityPickLimit → ¬ k.Has .high) →
      schedulerSearchByPriority k .normal 1 = some next → Picks k next 0
  | late {next : ℕ} : ¬ k.highPrioPickCount < highPriorityPickLimit → ¬ k.Has .normal →
      schedulerSearchByPriority k .high 0 = some next → Picks k next 1
  | low {next : ℕ} : ¬ k.Has .high → ¬ k.Has .normal →
      schedulerSearchByPriority k .low 1 = some next → Picks k next 0

theorem schedulerFindNextTask_picks (k : Kernel) :
    (∃ next count, Picks k next count ∧
        schedulerFindNextTask k = ({ k with highPrioPickCount := count }, some next)) ∨
      ((∀ priority, ¬ k.Has priority) ∧ schedulerFindNextTask k = (k, none)) := by
  unfold schedulerFindNextTask
  cases hhigh : schedulerSearchByPriority k .high 1 with
  | some next =>
    by_cases hcount : k.highPrioPickCount < highPriorityPickLimit
    · rw [if_pos hcount]
      exact .inl ⟨next, _, .high hcount hhigh, rfl⟩
    · rw [if_neg hcount]
      cases hnormal : schedulerSearchByPriority k .normal 1 with
      | some next => exact .inl ⟨next, _, .normal (fun h => absurd h hcount) hnormal, rfl⟩
      | none =>
        have hnone := (schedulerSearchByPriority_eq_none le_rfl).mp hnormal
        cases hlate : schedulerSearchByPriority k .high 0 with
        | some next => exact .inl ⟨next, _, .late hcount hnone hlate, rfl⟩
        | none =>
          have hall := (schedulerSearchByPriority_eq_none (Nat.zero_le 1)).mp hlate
          rw [(schedulerSearchByPriority_eq_none le_rfl).mpr hall] at hhigh
          cases hhigh
  | none =>
    have hnohigh := (schedulerSearchByPriority_eq_none le_rfl).mp hhigh
    rw [ite_self]
    cases hnormal : schedulerSearchByPriority k .normal 1 with
    | some next => exact .inl ⟨next, _, .normal (fun _ => hnohigh) hnormal, rfl⟩
    | none =>
      have hnonormal := (schedulerSearchByPriority_eq_none le_rfl).mp hnormal
      dsimp only
      rw [(schedulerSearchByPriority_eq_none (Nat.zero_le 1)).mpr hnohigh,
        (schedulerSearchByPriority_eq_none (Nat.zero_le 1)).mpr hnonormal]
      cases hlow : schedulerSearchByPriority k .low 1 with
      | some next => exact .inl ⟨next, _, .low hnohigh hnonormal hlow, rfl⟩
      | none =>
        have hnolow := (schedulerSearchByPriority_eq_none le_rfl).mp hlow
        refine .inr ⟨fun priority => ?_, rfl⟩
        cases priority with
        | high => exact hnohigh
        | normal => exact hnonormal
        | low => exact hnolow

instance : Decidable (k.Has priority) :=
  inferInstanceAs (Decidable (∃ b < maxTasks, runnableWith k priority b = true))

def dueClass (k : Kernel) : Priority :=
  if k.highPrioPickCount < highPriorityPickLimit ∧ k.Has .high then .high
  else if k.Has .normal then .normal
  else if k.Has .high then .high
  else .low

theorem Kernel.has_of_schedulerSearchByPriority {start : ℕ}
    (h : schedulerSearchByPriority k priority start = some next) : k.Has priority :=
  ⟨next, of_schedulerSearchByPriority h⟩

theorem Picks.due {count : ℕ} (h : Picks k next count) :
    next < maxTasks ∧ runnableWith k (dueClass k) next = true := by
  unfold dueClass
  cases h with
  | high hcount hfind =>
    rw [if_pos ⟨hcount, Kernel.has_of_schedulerSearchByPriority hfind⟩]
    exact of_schedulerSearchByPriority hfind
  | normal hhigh hfind =>
    rw [if_neg fun h => hhigh h.1 h.2, if_pos (Kernel.has_of_schedulerSearchByPriority hfind)]
    exact of_schedulerSearchByPriority hfind
  | late hcount hnormal hfind =>
    rw [if_neg fun h => hcount h.1, if_neg hnormal,
      if_pos (Kernel.has_of_schedulerSearchByPriority hfind)]
    exact of_schedulerSearchByPriority hfind
  | low hhigh hnormal hfind =>
    rw [if_neg fun h => hhigh h.2, if_neg hnormal, if_neg hhigh]
    exact of_schedulerSearchByPriority hfind

theorem Kernel.has_of_ready (hq : q < maxTasks) (h : k.stateOf q = some .ready) :
    ∃ priority, k.Has priority := by
  obtain ⟨t, ht, hready⟩ := map_eq_some_iff.mp h
  exact ⟨t.priority, q, hq, by simp [runnableWith, ht, hready]⟩

theorem exists_picks_schedulerCheckClerks {t : Task} (hidle : k.taskTable idleTaskPid = some t)
    (hmode : t.taskMode ≠ .userTask) (dirty : Bool) :
    ∃ next count, Picks (schedulerCheckClerks k dirty) next count ∧
      schedulerFindNextTask (schedulerCheckClerks k dirty) =
        ({ schedulerCheckClerks k dirty with highPrioPickCount := count }, some next) := by
  rcases schedulerFindNextTask_picks (schedulerCheckClerks k dirty) with hpicks | ⟨hnone, -⟩
  · exact hpicks
  · obtain ⟨q, hq, hready⟩ := exists_ready_schedulerCheckClerks hidle hmode
    obtain ⟨priority, hhas⟩ := Kernel.has_of_ready hq hready
    exact absurd hhas (hnone priority)

theorem schedulerSwitch_of_find (h : schedulerFindNextTask (beforePick k dirty) = (k', some next)) :
    schedulerSwitch k dirty = some (next, runNext k' next) := by
  unfold schedulerSwitch
  simp only [h]

/-- For every task table with the idle clerk: after `scheduler_check_clerks` no clerk with a request
sleeps, and `scheduler_find_next_task` finds a task that can run, of the class that is due. -/
theorem scheduler_always_has_task {t : Task} (hidle : k.taskTable idleTaskPid = some t)
    (hmode : t.taskMode ≠ .userTask) (dirty : Bool) :
    (∀ c ∈ [Clerk.fs, .gui, .reaper], ∀ i r, i < c.maxEntries →
        (schedulerCheckClerks k dirty).ledger.slot c i = some r →
        r.status = .pending ∨ r.status = .inProgress →
        ¬ (schedulerCheckClerks k dirty).Asleep c.pid) ∧
      (∃ next < maxTasks, (schedulerFindNextTask (schedulerCheckClerks k dirty)).2 = some next ∧
        runnableWith (schedulerCheckClerks k dirty) (dueClass (schedulerCheckClerks k dirty))
          next = true) ∧
      (schedulerSwitch k dirty).isSome = true := by
  refine ⟨fun c hc i r hi hslot hstatus hasleep => ?_, ?_, ?_⟩
  · rw [(schedulerCheckClerks_keeps dirty).1.ledger] at hslot
    have hpos : 0 < ledgerCountClerkReqs k.ledger c :=
      ledgerCountClerkReqs_pos hi hslot (by simpa [Request.unfinished] using hstatus)
    exact not_asleep_schedulerCheckClerks hc hpos hasleep
  · obtain ⟨next, count, hpicks, hfind⟩ := exists_picks_schedulerCheckClerks hidle hmode dirty
    obtain ⟨hnext, hrunnable⟩ := hpicks.due
    exact ⟨next, hnext, by rw [hfind], hrunnable⟩
  · -- the first part of the switch keeps the idle clerk
    obtain ⟨u, hu, humode⟩ := (preemptCurrent_keeps (k := k)).1.exists_mode hidle
    obtain ⟨next, count, -, hfind⟩ := exists_picks_schedulerCheckClerks hu (humode ▸ hmode) dirty
    rw [schedulerSwitch_of_find hfind]
    rfl

/-- The choice when the system starts. -/
theorem kernelMain_has_task : (schedulerSwitch kernelMain false).isSome = true := by
  have hidle : kernelMain.taskTable idleTaskPid = some
      { state := .sleeping, priority := .low, taskMode := .kernelTask, started := false
        serial := 0 } := rfl
  obtain ⟨-, -, hswitch⟩ := scheduler_always_has_task hidle TaskMode.noConfusion false
  exact hswitch

end Taavi
