import Taavi.Kernel.Invariant

/-!
# Which task is in a slot

Slots are used again, so the model numbers the tasks. Only the reaper takes a task out of the table,
and only `sys_exec` puts one in, under a new number.
-/

namespace Taavi.Sys

open Lib

variable {s s₁ t : Sys} {e : Event} {switches : Bool} {pid : ℕ}

theorem Valid.reaps (hval : s.Valid) {r : Request} (h : s.reaps = some r) :
    ∃ i ticket, s.cpu.trip = none ∧ s.cpu.handling = some (i, ticket) ∧
      s.kernel.currentPid = Clerk.reaper.pid ∧ s.kernel.ledger.slot .reaper i = some r ∧
      r.unfinished = true := by
  unfold Sys.reaps at h
  split at h
  · rename_i hreaper
    obtain ⟨⟨i, ticket⟩, hwork, hslot⟩ := Option.bind_eq_some_iff.mp h
    obtain ⟨⟨r', hslot', -, hprog⟩, -⟩ := hval.holds_current hwork hreaper.1
    cases hslot'.symm.trans hslot
    exact ⟨i, ticket, hreaper.2.1, hwork, hreaper.1, hslot,
      by simp [Request.unfinished, hprog]⟩
  · cases h

/-- Only the tasks in some slots change. Clerks may have taken back that they were started. -/
structure KeepsTasks (s : Sys) (k : Kernel) (changed : ℕ → Prop) : Prop where
  identity : ∀ pid, ¬changed pid → k.identity pid = s.kernel.identity pid
  startedOf : ∀ pid, ¬changed pid → pid ≠ s.kernel.currentPid ∨ clerkCount ≤ s.kernel.currentPid →
    k.startedOf pid = s.kernel.startedOf pid

inductive TaskMove (s : Sys) : Event → Kernel → Prop
  | kept {e : Event} {k : Kernel} : KeepsTasks s k (fun _ => False) →
      k.nextSerial = s.kernel.nextSerial → TaskMove s e k
  | destroyed {r : Request} {o : Outside} {k : Kernel} : s.reaps = some r →
      KeepsTasks s k (· = r.targetPid) → k.identity r.targetPid = none →
      k.nextSerial = s.kernel.nextSerial → TaskMove s (.act o) k
  | created {slot : ℕ} {o : Outside} {k : Kernel} : slot < maxTasks →
      s.kernel.identity slot = none → KeepsTasks s k (· = slot) →
      k.identity slot = some (s.kernel.nextSerial, .userTask) →
      k.nextSerial = s.kernel.nextSerial + 1 → TaskMove s (.act o) k

theorem tasks_of_sameTasks {k : Kernel} (hsame : k.SameTasks s₁.kernel)
    (htable : k.taskTable = s.kernel.taskTable) (hser : k.nextSerial = s.kernel.nextSerial)
    (hcur : k.currentPid = s.kernel.currentPid) (hframe : s₁.frame = s.frame) :
    Local s s₁ ∧ TaskMove s e s₁.kernel := by
  have hident : ∀ pid, s₁.kernel.identity pid = s.kernel.identity pid := fun pid => by
    rw [hsame.identity, Kernel.identity, htable, Kernel.identity]
  have hstart : ∀ pid, s₁.kernel.startedOf pid = s.kernel.startedOf pid := fun pid => by
    rw [hsame.startedOf, Kernel.startedOf, htable, Kernel.startedOf]
  exact ⟨.of_started hframe (hsame.currentPid.trans hcur) hstart,
    .kept ⟨fun pid _ => hident pid, fun pid _ _ => hstart pid⟩
      (hsame.nextSerial.trans hser)⟩

theorem tasks_reapStep (i ticket : ℕ) (o : Outside) {r : Request} (hreaps : s.reaps = some r) :
    Local s (s.reapStep i ticket r o) ∧ TaskMove s (.act o) (s.reapStep i ticket r o).kernel := by
  have hker : (s.reapStep i ticket r o).kernel = _ := reapRequest_spec s.kernel i r o.freed
  rcases reaperKillTask_cases s.kernel r.targetPid o.freed with hkill | ⟨-, hkill⟩
  · rw [hkill] at hker
    exact tasks_of_sameTasks (.refl _) (by rw [hker]) (by rw [hker]) (by rw [hker]) rfl
  · rw [hkill] at hker
    have hstart : ∀ pid, pid ≠ r.targetPid →
        (s.reapStep i ticket r o).kernel.startedOf pid = s.kernel.startedOf pid := by
      intro pid hpid
      simp [hker, Kernel.startedOf, assign_of_ne _ _ hpid]
    refine ⟨⟨rfl, by rw [hker], fun pid _ h => ?_⟩, .destroyed hreaps
      ⟨fun pid hpid => ?_, fun pid hpid _ => hstart pid hpid⟩ ?_ (by rw [hker])⟩
    · by_cases hpid : pid = r.targetPid
      · simp [hker, Kernel.startedOf, hpid] at h
      · rwa [hstart pid hpid] at h
    · simp [hker, Kernel.identity, assign_of_ne _ _ hpid]
    · simp [hker, Kernel.identity]

theorem addStep_outcome (hval : s.Valid) (trip : RoundTrip) (next : Phase) (o : Outside) :
    ∃ res, trip.call.Outcome s.kernel s.kernel.currentPid res ∧
      (s.addStep trip next o).kernel = res.1 ∧
      trip.call.run s.kernel s.kernel.currentPid o = res :=
  ⟨_, trip.call.run_outcome s.kernel o hval.current, rfl, rfl⟩

theorem sameTasks_addStep (hval : s.Valid) (trip : RoundTrip) (next : Phase) (o : Outside) :
    ∃ l : Ledger, { s.kernel with ledger := l }.SameTasks (s.addStep trip next o).kernel := by
  obtain ⟨res, hout, hker, -⟩ := addStep_outcome hval trip next o
  rw [hker]
  cases hout with
  | accepted => exact ⟨_, sameTasks_wakeClerk⟩
  | woken => exact ⟨_, sameTasks_schedulerWakeTask⟩
  | refused => exact ⟨_, .refl _⟩

theorem tasks_of_modifyTask {k : Kernel} {l : Ledger} {f : Task → Task}
    (hclerk : s.kernel.currentPid < clerkCount) (hsame : { s.kernel with ledger := l }.SameTasks k)
    (hker : s₁.kernel = k.modifyTask s.kernel.currentPid f)
    (hser : ∀ t, (f t).serial = t.serial) (hmode : ∀ t, (f t).taskMode = t.taskMode)
    (hframe : s₁.frame = s.frame) :
    Local s s₁ ∧ TaskMove s e s₁.kernel := by
  have hstart : ∀ pid, pid ≠ s.kernel.currentPid →
      s₁.kernel.startedOf pid = s.kernel.startedOf pid := by
    intro pid hpid
    rw [hker, Kernel.startedOf, Kernel.taskTable_modifyTask, if_neg hpid]
    exact hsame.startedOf pid
  refine ⟨⟨hframe, ?_, fun pid hpid h => ?_⟩, .kept ⟨fun pid _ => ?_, fun pid _ hpid => ?_⟩ ?_⟩
  · rw [hker]
    exact hsame.currentPid
  · rwa [hstart pid hpid] at h
  · rw [hker, Kernel.identity_modifyTask hser hmode]
    exact hsame.identity pid
  · exact hstart pid (hpid.resolve_right (Nat.not_le_of_lt hclerk))
  · rw [hker]
    exact hsame.nextSerial

theorem recover_spec (s : Sys) (c : Clerk) :
    ∃ l, { s.kernel with ledger := l }.SameTasks
        (ledgerCheckRequest (s.kernel.setState c.pid .sleeping) c.pid) ∧
      (l = s.kernel.ledger ∨ ∃ i r, s.kernel.ledger.last c = some i ∧
        s.kernel.ledger.slot c i = some r ∧ l = s.kernel.ledger.setStatus c i .terminated) := by
  rcases ledgerCheckRequest_cases (s.kernel.setState c.pid .sleeping) c with ⟨heq, -⟩ |
    ⟨i, r, hlast, hslot, heq⟩
  · rw [heq]
    exact ⟨_, Kernel.sameTasks_setState, .inl rfl⟩
  · rw [heq]
    have hsleep : { s.kernel with ledger := s.kernel.ledger.setStatus c i .terminated }.SameTasks
        ({ s.kernel with ledger := s.kernel.ledger.setStatus c i .terminated }.setState c.pid
          .sleeping) := Kernel.sameTasks_setState
    exact ⟨_, hsleep.trans sameTasks_schedulerWakeTask, .inr ⟨i, r, hlast, hslot, rfl⟩⟩

theorem tasks_recover {c : Clerk} (hcur : s.kernel.currentPid = c.pid) :
    Local s (s.recover c) ∧ TaskMove s e (s.recover c).kernel := by
  obtain ⟨l, hsame, -⟩ := recover_spec s c
  have hker : (s.recover c).kernel = blankieActivate
      (ledgerCheckRequest (s.kernel.setState c.pid .sleeping) c.pid) s.kernel.currentPid := by
    rw [hcur]
    rfl
  exact tasks_of_modifyTask (hcur ▸ c.pid_lt) hsame hker (fun _ => rfl) (fun _ => rfl) rfl

theorem Change.tasks (h : Change s e switches s₁) (hval : s.Valid) :
    Local s s₁ ∧ TaskMove s e s₁.kernel := by
  cases h with
  | block => exact tasks_of_sameTasks sameTasks_block rfl rfl rfl rfl
  | add =>
    obtain ⟨l, hsame⟩ := sameTasks_addStep hval ..
    exact tasks_of_sameTasks hsame rfl rfl rfl rfl
  | leave | collect | enter | yield | keyboard | fetch | sweep | syscall | docCall | tick =>
    exact tasks_of_sameTasks (.refl _) rfl rfl rfl rfl
  | @handle c i ticket o _ hwork hcur _ =>
    obtain ⟨⟨r, hslot, -⟩, -⟩ := hval.holds_current hwork hcur
    exact tasks_of_sameTasks (sameTasks_handleRequest o.reply hslot) rfl rfl rfl rfl
  | reap htrip hwork hcur hslot hwake =>
    exact tasks_reapStep _ _ _ (reaps_of_reap htrip hwork hcur hslot hwake)
  | wake => exact tasks_of_sameTasks sameTasks_schedulerWakeTask rfl rfl rfl rfl
  | setBlocked | setDead =>
    exact tasks_of_sameTasks sameTasks_schedulerSetTaskState rfl rfl rfl rfl
  | kill | sleep => exact tasks_of_sameTasks Kernel.sameTasks_setState rfl rfl rfl rfl
  | @exec rest k o hat hk =>
    rcases hk with rfl | hcreate
    · exact tasks_of_sameTasks (.refl _) rfl rfl rfl rfl
    · obtain ⟨slot, hbound, hempty, rfl⟩ := createUserTask_spec hcreate
      have hstart : ∀ pid, pid ≠ slot → (s.become { s.kernel with
          taskTable := assign s.kernel.taskTable slot (some (newTask s.kernel.nextSerial))
          nextSerial := s.kernel.nextSerial + 1 } rest).kernel.startedOf pid =
          s.kernel.startedOf pid := by
        intro pid hpid
        simp [become, Kernel.startedOf, assign_of_ne _ _ hpid]
      refine ⟨⟨rfl, rfl, fun pid _ h => ?_⟩, .created hbound (by simp [Kernel.identity, hempty])
        ⟨fun pid hpid => ?_, fun pid hpid _ => hstart pid hpid⟩ ?_ rfl⟩
      · by_cases hpid : pid = slot
        · simp [become, Kernel.startedOf, hpid, newTask] at h
        · rwa [hstart pid hpid] at h
      · simp [become, Kernel.identity, assign_of_ne _ _ hpid]
      · simp [become, Kernel.identity, newTask]
  | changeFocus => exact tasks_of_sameTasks (sameTasks_changeKeyboardFocus ..) rfl rfl rfl rfl
  | unstart hat =>
    exact tasks_of_modifyTask (hval.stmt hat) (.refl s.kernel) rfl (fun _ => rfl) (fun _ => rfl)
      rfl
  | key => exact tasks_of_sameTasks (sameTasks_key s _) rfl rfl rfl rfl
  | fault hcur => exact tasks_recover hcur

theorem Change.isLocal (h : Change s e switches s₁) (hval : s.Valid) : Local s s₁ :=
  (h.tasks hval).1

theorem Change.taskMove (h : Change s e switches s₁) (hval : s.Valid) :
    TaskMove s e s₁.kernel := (h.tasks hval).2

end Taavi.Sys
