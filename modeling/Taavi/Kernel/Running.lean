import Taavi.Kernel.Clients
import Taavi.Kernel.Picking

/-!
# The task that runs

`blankie_activate` takes the mark of a started task away before it puts the clerk to sleep. Without
a timer interrupt in between, only the current task is in the running state.
-/

namespace Taavi

open Lib List Option

section

variable {k k' : Kernel} {pid q next : ℕ} {dirty : Bool}

theorem running_schedulerCheckClerks
    (h : (schedulerCheckClerks k dirty).stateOf q = some .running) :
    k.stateOf q = some .running := by
  obtain ⟨t, ht, hstate⟩ := map_eq_some_iff.mp h
  have hready : t.state ≠ .ready := by simp [hstate]
  rw [Kernel.stateOf, (rouses_schedulerCheckClerks k dirty).task ht hready, map_some, hstate]

theorem not_running_preemptCurrent
    (honly : ∀ pid, k.stateOf pid = some .running → pid = k.currentPid)
    (hstart : k.stateOf k.currentPid = some .running → k.startedOf k.currentPid = true) (q : ℕ) :
    (preemptCurrent k).stateOf q ≠ some .running := by
  intro h
  unfold preemptCurrent at h
  split at h
  · rw [Kernel.stateOf_modifyTask] at h
    split at h
    · obtain ⟨t, -, hstate⟩ := map_eq_some_iff.mp h
      split_ifs at hstate with hruns
      exact hruns hstate
    · rename_i hq
      exact hq (honly q h)
  · -- a task that runs and is marked as started has its frame saved
    rename_i hsaves
    obtain rfl := honly q h
    obtain ⟨t, ht, hstate⟩ := map_eq_some_iff.mp h
    have hmark := hstart h
    rw [Kernel.startedOf, ht] at hmark
    refine hsaves ?_
    rw [savesFrame, schedulerGetCurrentTask, ht]
    simpa [hstate] using hmark

theorem running_runNext (h : (runNext k next).stateOf q = some .running) :
    k.stateOf q = some .running ∨ q = next := by
  by_cases hq : q = next
  · exact .inr hq
  · left
    have hother : (runNext k next).taskTable q = k.taskTable q := assign_of_ne _ _ hq
    rwa [Kernel.stateOf, hother] at h

theorem running_schedulerSwitch (h : schedulerSwitch k dirty = some (next, k'))
    (honly : ∀ pid, k.stateOf pid = some .running → pid = k.currentPid)
    (hstart : k.stateOf k.currentPid = some .running → k.startedOf k.currentPid = true)
    (hq : k'.stateOf q = some .running) : q = k'.currentPid := by
  have hnone : (beforePick k dirty).stateOf q ≠ some .running :=
    fun hruns => not_running_preemptCurrent honly hstart q
      (running_schedulerCheckClerks hruns)
  obtain ⟨⟨count, hcount⟩, -⟩ := schedulerFindNextTask_spec (beforePick k dirty)
  unfold schedulerSwitch at h
  generalize beforePick k dirty = k₁ at h hnone hcount
  split at h
  · rename_i k₂ picked hfind
    obtain ⟨rfl, rfl⟩ : picked = next ∧ runNext k₂ picked = k' := by simpa using h
    rw [hfind] at hcount
    obtain rfl : k₂ = _ := hcount
    rcases running_runNext hq with hpre | hnext
    · exact absurd hpre hnone
    · exact hnext
  · cases h

end

namespace Sys

variable {s s₁ s' : Sys} {e : Event} {switches : Bool} {pid : ℕ}

theorem Change.startedOf_clerk (h : Change s e false s₁) (hval : s.Valid)
    (hclerk : s.kernel.currentPid < clerkCount) :
    s₁.kernel.startedOf s.kernel.currentPid = s.kernel.startedOf s.kernel.currentPid ∨
      ∃ rest, s.AtStmt .unstart rest ∧ s₁.cpu = { s.cpu with code := rest } := by
  have huser : ¬ clerkCount ≤ s.kernel.currentPid := by omega
  cases h with
  | block => exact .inl (sameTasks_block.startedOf _)
  | @add trip phase next o htrip horder =>
    obtain ⟨l, hsame⟩ := sameTasks_addStep hval trip next o
    exact .inl (hsame.startedOf _)
  | collect | enter | keyboard | fetch | sweep | syscall | docCall => exact .inl rfl
  | @handle c i ticket o htrip hwork hcur _ =>
    obtain ⟨⟨r, hslot, -⟩, -⟩ := hval.holds_current hwork hcur
    exact .inl ((sameTasks_handleRequest o.reply hslot).startedOf _)
  | @reap i ticket r o htrip hwork hcur hslot =>
    left
    have hker : (s.reapStep i ticket r o).kernel = _ := reapRequest_spec s.kernel i r o.freed
    rw [hker]
    rcases reaperKillTask_cases s.kernel r.targetPid o.freed with hkill | ⟨-, hkill⟩
    · rw [hkill]
      rfl
    · -- the reaper destroys user tasks
      have htarget := (hval.sane .reaper i r hslot).2 rfl
      have hne : s.kernel.currentPid ≠ r.targetPid := by omega
      rw [hkill]
      simp [Kernel.startedOf, assign_of_ne _ _ hne]
  | wake => exact .inl (sameTasks_schedulerWakeTask.startedOf _)
  | setBlocked | setDead => exact .inl (sameTasks_schedulerSetTaskState.startedOf _)
  | kill | sleep => exact .inl (Kernel.sameTasks_setState.startedOf _)
  | exec hat | changeFocus hat => exact absurd (hval.stmt hat) huser
  | unstart hat => exact .inr ⟨_, hat, rfl⟩
  | key => exact .inl ((sameTasks_key s _).startedOf _)

theorem Change.code_suffix (h : Change s e switches s₁) (hval : s.Valid)
    (hclerk : s.kernel.currentPid < clerkCount)
    (hcode : s.cpu.code <:+ entryCode s.kernel.currentPid) :
    s₁.cpu.code <:+ entryCode s.kernel.currentPid := by
  have huser : ¬ clerkCount ≤ s.kernel.currentPid := by omega
  have hrest : ∀ {stmt : Stmt} {rest : List Stmt}, s.AtStmt stmt rest →
      rest <:+ entryCode s.kernel.currentPid := by
    intro stmt rest hat
    rw [hat.code] at hcode
    exact (suffix_cons stmt rest).trans hcode
  cases h with
  | block | add | leave | collect | handle | wake | docCall | tick | key => exact hcode
  | @reap i ticket r o htrip hwork hcur hslot =>
    have hloop : entryCode s.kernel.currentPid = clerkLoop .reaper := by rw [hcur]; rfl
    simp only [reapStep]
    split
    · exact hloop ▸ suffix_rfl
    · exact hcode
  | enter hat | setBlocked hat | setDead hat | yield hat | kill hat | exec hat _ | changeFocus hat
  | fetch hat | sweep hat _ | unstart hat | sleep hat => exact hrest hat
  | keyboard hat hnext =>
    rcases hnext with rfl | ⟨rfl, -⟩
    · exact hrest hat
    · exact absurd (hval.stmt hat) huser
  | syscall hcall => exact absurd (hval.user_of_callsFromUser hcall).1 huser
  | fault hcur _ =>
    rw [hcur]
    exact suffix_rfl

theorem eq_of_unstart_suffix {rest : List Stmt} (h : .unstart :: rest <:+ entryCode pid) :
    rest = [.sleep, .yield] := by
  unfold entryCode at h
  split at h
  · rename_i c _
    cases c <;> simpa [clerkLoop, suffix_cons_iff] using h
  · simp at h

/-- What holds of the task that runs, and of a clerk that resets itself. -/
structure Resting (s : Sys) : Prop where
  code : ∀ pid th, pid < clerkCount → s.threadOf pid = some th → th.code <:+ entryCode pid
  reset : s.kernel.startedOf s.kernel.currentPid = false →
    s.cpu.trip = none ∧ s.cpu.handling = none ∧ s.cpu.waking = none ∧
      (s.cpu.code = [.sleep, .yield] ∨
        s.cpu.code = [.yield] ∧ s.kernel.stateOf s.kernel.currentPid ≠ some .running)
  only : ∀ pid, s.kernel.stateOf pid = some .running → pid = s.kernel.currentPid

theorem resting_boot : boot.Resting := by
  refine ⟨fun pid th _ hth => ?_, fun h => absurd h (by decide), fun pid h => ?_⟩
  · rw [threadOf_boot hth]
    exact nil_suffix
  · simp only [boot, Kernel.stateOf, kernelMain] at h
    split_ifs at h <;> cases h

theorem Change.running_of_ne (h : Change s e switches s₁) (hval : s.Valid)
    (hpid : pid ≠ s.kernel.currentPid) (hruns : s₁.kernel.stateOf pid = some .running) :
    s.kernel.stateOf pid = some .running := by
  have hmove := h.stateMove hval pid
  rw [hruns] at hmove
  generalize hstate : some TaskState.running = state at hmove
  cases hmove with
  | same => exact rfl
  | own hown => exact absurd hown hpid
  | woken | killed =>
    obtain ⟨_, -, heq⟩ := map_eq_some_iff.mp hstate.symm
    cases heq
  | destroyed | created => cases hstate

theorem Resting.only_change (hrest : s.Resting) (hval : s.Valid) (h : Change s e switches s₁)
    (hruns : s₁.kernel.stateOf pid = some .running) : pid = s₁.kernel.currentPid := by
  rw [(h.isLocal hval).currentPid]
  by_contra hpid
  exact hpid (hrest.only pid (h.running_of_ne hval hpid hruns))

theorem Resting.code_change (hrest : s.Resting) (hval : s.Valid) (h : Change s e switches s₁)
    {th : Thread} (hpid : pid < clerkCount) (hth : s₁.threadOf pid = some th) :
    th.code <:+ entryCode pid := by
  rcases (h.isLocal hval).threads hth with ⟨rfl, rfl⟩ | ⟨-, hold⟩
  · exact h.code_suffix hval hpid (hrest.code _ _ hpid (threadOf_currentPid s))
  · exact hrest.code pid th hpid hold

theorem startedOf_switch {dirty : Bool} (h : s.switch dirty = some s') :
    s'.kernel.startedOf s'.kernel.currentPid = true := by
  rw [(switched_of_switch h).picked.started]
  simp

theorem Resting.reset_step (hrest : s.Resting) (hval : s.Valid) (h : s.step e = some s')
    (hpre : s.kernel.startedOf s.kernel.currentPid = false)
    (hafter : s'.kernel.startedOf s'.kernel.currentPid = false) :
    s'.cpu.trip = none ∧ s'.cpu.handling = none ∧ s'.cpu.waking = none ∧
      (s'.cpu.code = [.sleep, .yield] ∨
        s'.cpu.code = [.yield] ∧ s'.kernel.stateOf s'.kernel.currentPid ≠ some .running) := by
  obtain ⟨htrip, hwork, hwake, hcode⟩ := hrest.reset hpre
  have hswitch : ∀ {s₁ : Sys} {dirty : Bool}, s₁.switch dirty ≠ some s' := by
    intro s₁ dirty hswitch
    rw [startedOf_switch hswitch] at hafter
    cases hafter
  cases e with
  | act o =>
    have hact : s.act o = some s' := h
    rw [act, htrip, hwork, hwake] at hact
    rcases hcode with hcode | ⟨hcode, -⟩
    · rw [hcode] at hact
      obtain rfl : s.become (s.kernel.setState s.kernel.currentPid .sleeping) [.yield] = s' :=
        Option.some.inj hact
      refine ⟨htrip, hwork, hwake, .inr ⟨rfl, ?_⟩⟩
      have hstate : (s.kernel.setState s.kernel.currentPid .sleeping).stateOf s.kernel.currentPid ≠
          some .running := by
        rw [Kernel.stateOf_setState, if_pos rfl]
        cases s.kernel.stateOf s.kernel.currentPid <;> simp
      exact hstate
    · rw [hcode] at hact
      have hyield : (s.become s.kernel []).switch o.dirty = some s' := hact
      exact absurd hyield hswitch
  | syscall call =>
    rcases moved_of_step h with hchange | ⟨_, _, _, hmoved⟩
    · cases hchange with
      | syscall hcall =>
        have hout := (hval.user_of_callsFromUser hcall).2
        rcases hcode with hcode | ⟨hcode, -⟩ <;> simp [Thread.outside, hcode] at hout
    · exact absurd hmoved hswitch
  | docCall call =>
    rcases moved_of_step h with hchange | ⟨_, _, _, hmoved⟩
    · cases hchange with
      | docCall hdoc => simp [docCalls, hwork] at hdoc
    · exact absurd hmoved hswitch
  | tick dirty | fault dirty =>
    rcases moved_of_step h with hchange | ⟨_, _, _, hmoved⟩
    · cases hchange
    · exact absurd hmoved hswitch
  | key scancode =>
    rcases moved_of_step h with hchange | ⟨_, _, _, hmoved⟩
    · cases hchange
      obtain ⟨kbd, ⟨heq, -⟩ | ⟨target, -, heq⟩⟩ := key_cases s scancode
      · rw [heq]
        exact ⟨htrip, hwork, hwake, hcode⟩
      · rw [heq]
        refine ⟨htrip, hwork, hwake, hcode.imp_right fun hslept => ⟨hslept.1, ?_⟩⟩
        rw [sameTasks_schedulerWakeTask.currentPid, stateOf_schedulerWakeTask]
        split
        · cases Kernel.stateOf { s.kernel with keyboard := kbd } target <;> simp
        · exact hslept.2
    · exact absurd hmoved hswitch

/-- No timer interrupt while the current task runs and is not marked as started. -/
def ticksSafely (s : Sys) : Event → Bool
  | .tick _ =>
    s.kernel.startedOf s.kernel.currentPid || s.kernel.stateOf s.kernel.currentPid ≠ some .running
  | _ => true

theorem Resting.started_at_switch (hrest : s.Resting) (hok : s.ticksSafely e = true)
    (h : Change s e true s₁) (hruns : s₁.kernel.stateOf s₁.kernel.currentPid = some .running) :
    s₁.kernel.startedOf s₁.kernel.currentPid = true := by
  by_contra hnot
  rw [Bool.not_eq_true] at hnot
  cases h with
  | leave htrip =>
    obtain ⟨hnone, -⟩ := hrest.reset hnot
    rw [htrip] at hnone
    cases hnone
  | yield hat =>
    obtain ⟨-, -, -, hcode | ⟨-, hslept⟩⟩ := hrest.reset hnot
    · cases (List.cons.inj (hat.code.symm.trans hcode)).1
    · exact hslept hruns
  | tick =>
    simp [ticksSafely, hnot, hruns] at hok
  | @fault c dirty hcur _ =>
    have hsleeping : (s.recover c).kernel.stateOf c.pid ≠ some .running := by
      unfold recover blankieActivate
      rw [Kernel.stateOf_modifyTask, if_pos rfl]
      intro hstate
      obtain ⟨_, -, heq⟩ := map_eq_some_iff.mp hstate
      cases heq
    rw [(tasks_recover (e := .fault dirty) hcur).1.currentPid, hcur] at hruns
    exact hsleeping hruns

theorem schedulerSwitch_of_switch {dirty : Bool} (h : s.switch dirty = some s') :
    ∃ next, schedulerSwitch s.kernel dirty = some (next, s'.kernel) := by
  unfold switch at h
  split at h
  · cases h
  · rename_i next k hswitch
    obtain ⟨th, -, rfl⟩ := map_eq_some_iff.mp h
    exact ⟨next, hswitch⟩

theorem Resting.step (hrest : s.Resting) (hval : s.Valid) (hok : s.ticksSafely e = true)
    (h : s.step e = some s') : s'.Resting := by
  rcases moved_of_step h with hchange | ⟨s₁, dirty, hchange, hswitch⟩
  · refine ⟨fun pid th hpid hth => hrest.code_change hval hchange hpid hth, fun hafter => ?_,
      fun pid hruns => hrest.only_change hval hchange hruns⟩
    by_cases hpre : s.kernel.startedOf s.kernel.currentPid = false
    · exact hrest.reset_step hval h hpre hafter
    · rw [(hchange.isLocal hval).currentPid] at hafter
      by_cases hclerk : s.kernel.currentPid < clerkCount
      · rcases hchange.startedOf_clerk hval hclerk with hsame | ⟨rest, hat, hcpu⟩
        · exact absurd (hsame ▸ hafter) hpre
        · -- the loop of a clerk puts it to sleep after this statement
          have hsuffix := hrest.code _ _ hclerk (threadOf_currentPid s)
          rw [hat.code] at hsuffix
          rw [hcpu]
          exact ⟨hat.trip, hat.handling, hat.waking, .inl (eq_of_unstart_suffix hsuffix)⟩
      · rw [hchange.startedOf_currentPid hval (by omega)] at hafter
        exact absurd hafter hpre
  · have hswitched := switched_of_switch hswitch
    refine ⟨fun pid th hpid hth => ?_, fun hafter => ?_, fun pid hruns => ?_⟩
    · rcases hswitched.threads pid th hth with ⟨hold, -⟩ | ⟨rfl, -, -⟩
      · exact hrest.code_change hval hchange hpid hold
      · exact suffix_rfl
    · rw [startedOf_switch hswitch] at hafter
      cases hafter
    · obtain ⟨next, hker⟩ := schedulerSwitch_of_switch hswitch
      exact running_schedulerSwitch hker
        (fun q hq => hrest.only_change hval hchange hq)
        (hrest.started_at_switch hok hchange) hruns

/-- In every run in which no timer interrupt comes between the two assignments of `blankie_activate`
that reset a clerk, only the current task is in the state of a running task. -/
theorem only_current_task_runs {es : List Event}
    (hrun : Run (Guarded (fun s e => s.ticksSafely e = true) Step) boot es s) :
    (∀ pid, s.kernel.stateOf pid = some .running → pid = s.kernel.currentPid) ∧
      ∀ (s₁ : Sys) dirty, s₁.switch dirty = some s →
        s.kernel.stateOf s.kernel.currentPid = some .running := by
  have hkeep : ∀ s e s', (s.Valid ∧ s.Resting) →
      Guarded (fun s e => s.ticksSafely e = true) Step s e s' → s'.Valid ∧ s'.Resting := by
    rintro s e s' ⟨hvalid, hrest⟩ ⟨hok, hstep⟩
    refine ⟨?_, hrest.step hvalid hok hstep⟩
    rcases changed_of_step hstep with hchange | ⟨s₁, hchange, hswitched⟩
    · exact hvalid.change hchange
    · exact (hvalid.change hchange).switched hswitched
  obtain ⟨-, hrest⟩ := Run.invariant hkeep hrun ⟨valid_boot, resting_boot⟩
  exact ⟨hrest.only, fun s₁ dirty hswitch => (switched_of_switch hswitch).picked.running⟩

/-- The first task opens a file, and the clerk handles its request and begins to reset itself. -/
def servesAndResets : List Event :=
  .syscall (.openFile (some [65]) 1 1) :: List.replicate 8 (.act .smooth)

/-- Only the clerk runs while it resets itself. -/
theorem only_clerk_runs : ∃ s,
    Run (Guarded (fun s e => s.ticksSafely e = true) Step) boot servesAndResets s ∧
      s.kernel.stateOf Clerk.fs.pid = some .running ∧
      ∀ pid, s.kernel.stateOf pid = some .running → pid = s.kernel.currentPid := by
  have hexec : (exec (guardStep ticksSafely Sys.step) boot servesAndResets).any
      (fun s => decide (s.kernel.stateOf Clerk.fs.pid = some .running)) = true := by
    decide +kernel
  obtain ⟨s, hrun, hs⟩ := exists_guarded_run_of_exec hexec
  exact ⟨s, hrun, of_decide_eq_true hs, (only_current_task_runs hrun).1⟩

/-- A timer interrupt comes between the two assignments: the clerk and the first task both run. -/
theorem clerk_and_task_run : ∃ s s',
    Run Step boot servesAndResets s ∧ Step s (.tick false) s' ∧ s.switch false = some s' ∧
      s'.kernel.stateOf Clerk.fs.pid = some .running ∧ s'.kernel.currentPid = 5 ∧
      s'.kernel.stateOf 5 = some .running := by
  have hexec : (exec Sys.step boot servesAndResets).any (fun s =>
      s.interruptible && (s.switch false).any fun s' =>
        decide (s'.kernel.stateOf Clerk.fs.pid = some .running) &&
        decide (s'.kernel.currentPid = 5) &&
        decide (s'.kernel.stateOf 5 = some .running)) = true := by
    decide +kernel
  obtain ⟨s, hrun, hs⟩ := exists_run_of_exec hexec
  rw [Bool.and_eq_true] at hs
  obtain ⟨s', hswitch, hs'⟩ := any_eq_true _ _ |>.mp hs.2
  simp only [Bool.and_eq_true, decide_eq_true_eq] at hs'
  refine ⟨s, s', hrun, ?_, hswitch, hs'.1.1, hs'.1.2, hs'.2⟩
  exact (if_pos hs.1).trans hswitch

end Sys

end Taavi
