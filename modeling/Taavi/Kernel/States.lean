import Taavi.Kernel.Reachable

/-!
# How states change

For every change of the system: what becomes of the state of a task, with the reason for
which it was woken.
-/

namespace Taavi

open Lib

theorem stateOf_wakeClerk {k : Kernel} {pid : ℕ} (hpid : pid < maxTasks) :
    (wakeClerk k pid).stateOf pid = (k.stateOf pid).map fun _ => .ready := by
  have hready : ∀ k : Kernel, (schedulerWakeTask k pid).stateOf pid =
      (k.stateOf pid).map fun _ => .ready := by
    intro k
    rw [stateOf_schedulerWakeTask, if_pos ⟨rfl, hpid⟩]
  unfold wakeClerk
  dsimp only
  rw [hready]
  split
  · rw [stateOf_priority]
  · rfl

theorem Clerk.pid_lt_maxTasks (c : Clerk) : c.pid < maxTasks := c.pid_lt.trans (by decide)

namespace Sys

variable {s s₁ : Sys} {e : Event} {switches : Bool} {pid : ℕ}

/-- Whether the request whose caller is woken next is still in its slot. -/
def wakesKnown (s : Sys) : Bool :=
  s.cpu.waking.all fun work => (ledgerGetQueue s.kernel.currentPid).all fun c =>
    (s.kernel.ledger.slot c work.1).any fun r => r.ticket = work.2

inductive Woken (s : Sys) : Event → ℕ → Prop
  | clerk {e : Event} {pid : ℕ} : pid < clerkCount → Woken s e pid
  | settled {c : Clerk} {i : ℕ} {r : Request} {o : Outside} : s.cpu.trip = none →
      s.kernel.currentPid = c.pid → s.cpu.waking = some (i, r.ticket) →
      s.kernel.ledger.slot c i = some r → Woken s (.act o) r.callerPid
  | stale {o : Outside} {pid : ℕ} : s.wakesKnown = false → Woken s (.act o) pid
  | focus {rest : List Stmt} {o : Outside} {pid : ℕ} : s.AtStmt (.changeFocus pid) rest →
      Woken s (.act o) pid
  | key {scancode pid : ℕ} : (keyboardHandler s.kernel.keyboard scancode).2 = some pid →
      Woken s (.key scancode) pid
  | recovered {c : Clerk} {i : ℕ} {r : Request} {dirty : Bool} : s.kernel.currentPid = c.pid →
      s.kernel.ledger.last c = some i → s.kernel.ledger.slot c i = some r →
      Woken s (.fault dirty) r.callerPid

inductive OwnMove (s : Sys) : Event → Option TaskState → Prop
  | trip {trip : RoundTrip} {phase : Phase} {o : Outside} {state : Option TaskState} :
      s.cpu.trip = some (trip, phase) → phase = .enter ∨ phase = .half →
      (state = some .dead → s.kernel.stateOf s.kernel.currentPid = some .dead) →
      OwnMove s (.act o) state
  | blocked {e : Event} {old : TaskState} :
      s.kernel.stateOf s.kernel.currentPid = some old →
      OwnMove s e (some (if old = .dead then .dead else .blocked))
  | died {rest : List Stmt} {o : Outside} {state : Option TaskState} : s.AtStmt .setDead rest →
      state = some .dead → OwnMove s (.act o) state
  | slept {e : Event} {state : Option TaskState} : s.kernel.currentPid < clerkCount →
      state ≠ some .dead → OwnMove s e state

inductive StateMove (s : Sys) (pid : ℕ) : Event → Option TaskState → Prop
  | same {e : Event} : StateMove s pid e (s.kernel.stateOf pid)
  | own {e : Event} {state : Option TaskState} : pid = s.kernel.currentPid → OwnMove s e state →
      StateMove s pid e state
  | woken {e : Event} : Woken s e pid →
      StateMove s pid e ((s.kernel.stateOf pid).map fun _ => .ready)
  | killed {rest : List Stmt} {o : Outside} : s.AtStmt (.kill pid) rest →
      StateMove s pid (.act o) ((s.kernel.stateOf pid).map fun _ => .dead)
  | destroyed {r : Request} {o : Outside} : s.reaps = some r → r.targetPid = pid →
      StateMove s pid (.act o) none
  | created {e : Event} : s.kernel.stateOf pid = none → StateMove s pid e (some .ready)

theorem stateMove_wake {k : Kernel} {target : ℕ} (hstate : k.stateOf pid = s.kernel.stateOf pid)
    (hwoken : pid = target → Woken s e pid) :
    StateMove s pid e ((schedulerWakeTask k target).stateOf pid) := by
  rw [stateOf_schedulerWakeTask]
  split
  · rename_i hhere
    rw [← hhere.1, hstate]
    exact .woken (hwoken hhere.1)
  · rw [hstate]
    exact .same

theorem stateMove_addStep (hval : s.Valid) {trip : RoundTrip} {phase next : Phase} {o : Outside}
    (htrip : s.cpu.trip = some (trip, phase)) (hphase : phase = .enter ∨ phase = .half) :
    StateMove s pid (.act o) ((s.addStep trip next o).kernel.stateOf pid) := by
  obtain ⟨res, hout, hker, -⟩ := addStep_outcome hval trip next o
  rw [hker]
  cases hout with
  | accepted =>
    by_cases hclerk : pid = trip.call.clerk.pid
    · rw [hclerk, stateOf_wakeClerk (Clerk.pid_lt_maxTasks _)]
      exact .woken (.clerk (Clerk.pid_lt _))
    · rw [stateOf_wakeClerk_of_ne hclerk]
      exact .same
  | woken =>
    by_cases hpid : pid = s.kernel.currentPid
    · refine .own hpid (.trip htrip hphase fun hdead => ?_)
      rw [stateOf_schedulerWakeTask, if_pos ⟨hpid, hval.current⟩] at hdead
      simp at hdead
    · rw [stateOf_schedulerWakeTask_of_ne hpid]
      exact .same
  | refused => exact .same

theorem stateMove_reapStep {i ticket : ℕ} {r : Request} {o : Outside}
    (hreaps : s.reaps = some r) :
    StateMove s pid (.act o) ((s.reapStep i ticket r o).kernel.stateOf pid) := by
  have hker : (s.reapStep i ticket r o).kernel = _ := reapRequest_spec s.kernel i r o.freed
  rcases reaperKillTask_cases s.kernel r.targetPid o.freed with hkill | ⟨-, hkill⟩
  · rw [hker, hkill]
    exact .same
  · rw [hker, hkill]
    by_cases hpid : pid = r.targetPid
    · have hnone : { { s.kernel with taskTable := assign s.kernel.taskTable r.targetPid none } with
          ledger := s.kernel.ledger.setStatus .reaper i (reapedStatus r true) }.stateOf pid =
          none := by simp [Kernel.stateOf, hpid]
      rw [hnone]
      exact .destroyed hreaps hpid.symm
    · have hsame : { { s.kernel with taskTable := assign s.kernel.taskTable r.targetPid none } with
          ledger := s.kernel.ledger.setStatus .reaper i (reapedStatus r true) }.stateOf pid =
          s.kernel.stateOf pid := by simp [Kernel.stateOf, assign_of_ne _ _ hpid]
      rw [hsame]
      exact .same

theorem stateMove_wakeStep {c : Clerk} {i ticket : ℕ} {o : Outside}
    (htrip : s.cpu.trip = none) (hwake : s.cpu.waking = some (i, ticket))
    (hcur : s.kernel.currentPid = c.pid) :
    StateMove s pid (.act o) ((s.wakeStep c i ticket o).kernel.stateOf pid) := by
  refine stateMove_wake rfl fun hpid => ?_
  rcases s.kernel.ledger.callerOf_cases c i ticket o.stale with ⟨r, hslot, rfl, hcall⟩ |
    ⟨hgone, -⟩
  · rw [hpid, hcall]
    exact .settled htrip hcur hwake hslot
  · refine .stale (Bool.eq_false_iff.mpr fun hknown => ?_)
    unfold wakesKnown at hknown
    rw [hwake, hcur, ledgerGetQueue_pid, Option.all_some, Option.all_some] at hknown
    obtain ⟨r, hslot, htick⟩ := (Option.any_eq_true _ _).mp hknown
    exact hgone r hslot (of_decide_eq_true htick)

theorem stateMove_recover {c : Clerk} {dirty : Bool} (hcur : s.kernel.currentPid = c.pid) :
    StateMove s pid (.fault dirty) ((s.recover c).kernel.stateOf pid) := by
  by_cases hpid : pid = s.kernel.currentPid
  · refine .own hpid (.slept (hcur ▸ c.pid_lt) fun hdead => ?_)
    rw [hpid, hcur] at hdead
    unfold recover blankieActivate at hdead
    rw [Kernel.stateOf_modifyTask, if_pos rfl] at hdead
    simp at hdead
  have hne : pid ≠ c.pid := by rwa [← hcur]
  have hstate : (s.recover c).kernel.stateOf pid =
      (ledgerCheckRequest (s.kernel.setState c.pid .sleeping) c.pid).stateOf pid := by
    unfold recover blankieActivate
    rw [Kernel.stateOf_modifyTask, if_neg hne]
  have hsleep : (s.kernel.setState c.pid .sleeping).stateOf pid = s.kernel.stateOf pid := by
    rw [Kernel.stateOf_setState, if_neg hne]
  rw [hstate]
  rcases ledgerCheckRequest_cases (s.kernel.setState c.pid .sleeping) c with ⟨heq, -⟩ |
    ⟨i, r, hlast, hslot, heq⟩
  · rw [heq, hsleep]
    exact .same
  · rw [heq]
    refine stateMove_wake hsleep fun hcall => ?_
    rw [hcall]
    exact .recovered hcur hlast hslot

theorem stateMove_changeFocus (hval : s.Valid) {targetPid : ℕ} {rest : List Stmt} {o : Outside}
    (hat : s.AtStmt (.changeFocus targetPid) rest) :
    StateMove s pid (.act o) ((changeKeyboardFocus s.kernel targetPid).stateOf pid) := by
  obtain ⟨old, hold⟩ := hval.currentState
  rcases changeKeyboardFocus_cases s.kernel targetPid with heq | ⟨-, -, kbd, heq⟩
  · rw [heq]
    exact .same
  · have hset : (schedulerSetTaskState { s.kernel with keyboard := kbd } .blocked).stateOf
        s.kernel.currentPid = some (if old = .dead then .dead else .blocked) :=
      stateOf_schedulerSetTaskState_blocked hold
    have hother : ∀ q, q ≠ s.kernel.currentPid →
        (schedulerSetTaskState { s.kernel with keyboard := kbd } .blocked).stateOf q =
          s.kernel.stateOf q :=
      fun q hq => stateOf_schedulerSetTaskState_of_ne hq
    rw [heq]
    generalize schedulerSetTaskState { s.kernel with keyboard := kbd } .blocked = k at hset hother
    by_cases htarget : pid = targetPid
    · subst htarget
      rw [stateOf_schedulerWakeTask]
      split
      · have hready : StateMove s pid (.act o) ((s.kernel.stateOf pid).map fun _ => .ready) :=
          .woken (.focus hat)
        by_cases hpid : pid = s.kernel.currentPid
        · rw [hpid, hset]
          rwa [hpid, hold] at hready
        · rwa [hother pid hpid]
      · rename_i hbound
        rw [hother pid fun hpid => hbound ⟨rfl, hpid ▸ hval.current⟩]
        exact .same
    · rw [stateOf_schedulerWakeTask_of_ne htarget]
      by_cases hpid : pid = s.kernel.currentPid
      · rw [hpid, hset]
        exact .own rfl (.blocked hold)
      · rw [hother pid hpid]
        exact .same

theorem Change.stateMove (h : Change s e switches s₁) (hval : s.Valid) (pid : ℕ) :
    StateMove s pid e (s₁.kernel.stateOf pid) := by
  obtain ⟨old, hold⟩ := hval.currentState
  cases h with
  | @block trip phase next o htrip horder =>
    by_cases hpid : pid = s.kernel.currentPid
    · refine .own hpid (.trip htrip horder.phase fun hdead => ?_)
      have hstate : (trip.block s.kernel).stateOf pid = some .dead := hdead
      rw [hpid, stateOf_block hold] at hstate
      split at hstate
      · rename_i hpre
        rw [hold, hpre.2]
      · cases hstate
    · exact stateOf_block_of_ne hpid ▸ .same
  | add htrip horder => exact stateMove_addStep hval htrip horder.phase
  | leave | collect | enter | yield | keyboard | fetch | sweep | syscall | docCall | tick =>
    exact .same
  | @handle c i ticket o =>
    have hstate : (s.handleStep c i ticket o).kernel.stateOf pid = s.kernel.stateOf pid :=
      stateOf_handleRequest o.reply pid
    exact hstate ▸ .same
  | wake htrip hwake hcur => exact stateMove_wakeStep htrip hwake hcur
  | reap htrip hwork hcur hslot hwake =>
    exact stateMove_reapStep (reaps_of_reap htrip hwork hcur hslot hwake)
  | setBlocked =>
    by_cases hpid : pid = s.kernel.currentPid
    · refine .own hpid ?_
      rw [hpid]
      exact stateOf_schedulerSetTaskState_blocked hold ▸ .blocked hold
    · exact stateOf_schedulerSetTaskState_of_ne hpid ▸ .same
  | setDead hat =>
    by_cases hpid : pid = s.kernel.currentPid
    · rw [hpid]
      exact .own rfl (.died hat (stateOf_schedulerSetTaskState_dead hold))
    · exact stateOf_schedulerSetTaskState_of_ne hpid ▸ .same
  | @kill targetPid rest o hat =>
    have hstate : (s.become (s.kernel.setState targetPid .dead) rest).kernel.stateOf pid = _ :=
      Kernel.stateOf_setState
    rw [hstate]
    split
    · rename_i hpid
      subst hpid
      exact .killed hat
    · exact .same
  | @exec rest k o hat hk =>
    rcases hk with rfl | hcreate
    · exact .same
    · obtain ⟨slot, -, hempty, rfl⟩ := createUserTask_spec hcreate
      by_cases hpid : pid = slot
      · subst hpid
        have hnew : (s.become { s.kernel with
            taskTable := assign s.kernel.taskTable pid (some (newTask s.kernel.nextSerial))
            nextSerial := s.kernel.nextSerial + 1 } rest).kernel.stateOf pid = some .ready := by
          simp [become, Kernel.stateOf, newTask]
        rw [hnew]
        exact .created (by simp [Kernel.stateOf, hempty])
      · have hold : (s.become { s.kernel with
            taskTable := assign s.kernel.taskTable slot (some (newTask s.kernel.nextSerial))
            nextSerial := s.kernel.nextSerial + 1 } rest).kernel.stateOf pid =
            s.kernel.stateOf pid := by
          simp [become, Kernel.stateOf, assign_of_ne _ _ hpid]
        rw [hold]
        exact .same
  | changeFocus hat => exact stateMove_changeFocus hval hat
  | unstart =>
    have hstate : (s.kernel.modifyTask s.kernel.currentPid
        fun t => { t with started := false }).stateOf pid = s.kernel.stateOf pid :=
      Kernel.stateOf_modifyTask_of_state fun _ => rfl
    exact hstate ▸ .same
  | sleep hat =>
    by_cases hpid : pid = s.kernel.currentPid
    · refine .own hpid (.slept (hval.stmt hat) fun hdead => ?_)
      have hstate : (s.kernel.setState s.kernel.currentPid .sleeping).stateOf pid = some .dead :=
        hdead
      rw [Kernel.stateOf_setState, if_pos hpid, hold] at hstate
      cases hstate
    · have hstate : (s.kernel.setState s.kernel.currentPid .sleeping).stateOf pid =
          s.kernel.stateOf pid := by rw [Kernel.stateOf_setState, if_neg hpid]
      exact hstate ▸ .same
  | @key scancode _ =>
    obtain ⟨kbd, ⟨heq, -⟩ | ⟨target, hwoken, heq⟩⟩ := key_cases s scancode
    · rw [heq]
      exact .same
    · rw [heq]
      refine stateMove_wake rfl fun htarget => ?_
      subst htarget
      exact .key hwoken
  | fault hcur _ => exact stateMove_recover hcur

end Sys

end Taavi
