import Taavi.Kernel.Requests

/-!
# What threads ask the reaper for

`sys_kill` and `sys_exit` make three round trips, the last to the reaper. The requests to the reaper
that a thread has still to make are a tail of theirs.
-/

namespace Taavi

open Lib List

/-- The task that a call asks the reaper to free, and its number. -/
def AddCall.frees : AddCall → Option (ℕ × ℕ)
  | free .reaper targetPid aim => some (targetPid, aim)
  | _ => none

/-- The task that a statement asks the reaper to free, and its number. -/
def Stmt.frees : Stmt → Option (ℕ × ℕ)
  | roundTrip trip => trip.call.frees
  | _ => none

def RoundTrip.toAdd (trip : RoundTrip) (phase : Phase) : Bool :=
  phase = .enter ∨ phase = .half ∧ trip.blockFirst

/-- The tasks that a thread has still to ask the reaper to free, and their numbers. -/
def Thread.frees (th : Thread) : List (ℕ × ℕ) :=
  (th.trip.bind fun t => if t.1.toAdd t.2 then t.1.call.frees else none).toList ++
    th.code.filterMap Stmt.frees

/-- The tasks that a system call asks the reaper to free. -/
def Syscall.frees (k : Kernel) (call : Syscall) : List (ℕ × ℕ) :=
  (call.code k).filterMap Stmt.frees

theorem AddCall.frees_of_clerk {call : AddCall} (h : call.clerk = .reaper) :
    ∃ targetPid aim, call = .free .reaper targetPid aim := by
  cases call with
  | fs | gui | doc => cases h
  | free clerk targetPid aim =>
    obtain rfl : clerk = .reaper := h
    exact ⟨targetPid, aim, rfl⟩

section

variable {k : Kernel}

theorem frees_sysExit (k : Kernel) :
    (sysExit k).filterMap Stmt.frees = [] ∨
      ∃ t, k.taskTable k.currentPid = some t ∧
        (sysExit k).filterMap Stmt.frees = [(k.currentPid, t.serial)] := by
  unfold sysExit schedulerGetCurrentTask
  cases htask : k.taskTable k.currentPid with
  | none => exact .inl rfl
  | some t =>
    dsimp only
    split_ifs
    · exact .inl rfl
    · exact .inl rfl
    · exact .inr ⟨t, rfl, rfl⟩

theorem frees_sysKill (k : Kernel) (targetPid : ℕ) :
    (sysKill k targetPid).filterMap Stmt.frees = [] ∨
      ∃ t n, k.taskTable targetPid = some t ∧ (k.currentPid ≠ targetPid → n = 1) ∧
        (sysKill k targetPid).filterMap Stmt.frees = List.replicate n (targetPid, t.serial) := by
  unfold sysKill
  split
  · rename_i current target _ htarget
    split_ifs with hclerk hself
    · exact .inl rfl
    all_goals
      have htask : k.taskTable targetPid = some target := by
        unfold taskGet at htarget
        split at htarget
        · exact htarget
        · cases htarget
    · subst hself
      refine .inr ?_
      rw [filterMap_append]
      rcases frees_sysExit k with hnone | ⟨t, ht, hone⟩
      · exact ⟨target, 1, htask, fun _ => rfl, by rw [hnone]; rfl⟩
      · obtain rfl := Option.some.inj (ht.symm.trans htask)
        exact ⟨t, 2, ht, fun h => absurd rfl h, by rw [hone]; rfl⟩
    · exact .inr ⟨target, 1, htask, fun _ => rfl, rfl⟩
  · exact .inl rfl

theorem Syscall.frees_cases (k : Kernel) (call : Syscall) :
    call.frees k = [] ∨ call = .exit ∨ ∃ targetPid, call = .kill targetPid := by
  cases call with
  | exit => exact .inr (.inl rfl)
  | kill targetPid => exact .inr (.inr ⟨targetPid, rfl⟩)
  | read =>
    refine .inl ?_
    simp only [Syscall.frees, Syscall.code, sysRead]
    split <;> rfl
  | write =>
    refine .inl ?_
    simp only [Syscall.frees, Syscall.code, sysWrite]
    split <;> rfl
  | close =>
    refine .inl ?_
    simp only [Syscall.frees, Syscall.code, sysClose]
    split <;> rfl
  | unlink path => cases path <;> exact .inl rfl
  | window =>
    refine .inl ?_
    simp only [Syscall.frees, Syscall.code, sysWindow]
    split <;> rfl
  | openFile | chdir | mkdir | getdents | exec | yield | setOperator | changeFocus | test =>
    exact .inl rfl

theorem Syscall.frees_spec {call : Syscall} {targetPid aim : ℕ}
    (h : (targetPid, aim) ∈ call.frees k) :
    (call = .kill targetPid ∨ call = .exit ∧ targetPid = k.currentPid) ∧
      (∃ mode, k.identity targetPid = some (aim, mode)) ∧
      (k.currentPid ≠ targetPid → call.frees k = [(targetPid, aim)]) := by
  have hident : ∀ {t : Task}, k.taskTable targetPid = some t →
      k.identity targetPid = some (t.serial, t.taskMode) := fun ht => by simp [Kernel.identity, ht]
  rcases Syscall.frees_cases k call with hnone | rfl | ⟨target, rfl⟩
  · rw [hnone] at h
    cases h
  · rcases frees_sysExit k with hnone | ⟨t, ht, hone⟩
    · rw [Syscall.frees, Syscall.code, hnone] at h
      cases h
    · rw [Syscall.frees, Syscall.code, hone, mem_singleton] at h
      cases h
      exact ⟨.inr ⟨rfl, rfl⟩, ⟨_, hident ht⟩, fun hne => absurd rfl hne⟩
  · rcases frees_sysKill k target with hnone | ⟨t, n, ht, hn, hmany⟩
    · rw [Syscall.frees, Syscall.code, hnone] at h
      cases h
    · rw [Syscall.frees, Syscall.code, hmany] at h ⊢
      obtain ⟨rfl, rfl⟩ := Prod.mk.inj (eq_of_mem_replicate h)
      exact ⟨.inl rfl, ⟨_, hident ht⟩, fun hne => by rw [hn hne]; rfl⟩

theorem frees_clerkLoop (c : Clerk) : (clerkLoop c).filterMap Stmt.frees = [] := by
  cases c <;> rfl

theorem Thread.frees_entry (pid : ℕ) : (Thread.entry pid).frees = [] := by
  unfold Thread.frees Thread.entry entryCode
  cases ledgerGetQueue pid with
  | none => rfl
  | some c => exact frees_clerkLoop c

theorem Thread.frees_of_none {th : Thread} (h : th.trip = none) :
    th.frees = th.code.filterMap Stmt.frees := by
  unfold Thread.frees
  rw [h]
  rfl

theorem Thread.frees_of_trip {th : Thread} {trip : RoundTrip} {phase : Phase}
    (h : th.trip = some (trip, phase)) :
    th.frees = (if trip.toAdd phase then trip.call.frees else none).toList ++
      th.code.filterMap Stmt.frees := by
  unfold Thread.frees
  rw [h]
  rfl

end

namespace Sys

variable {s s₁ s' : Sys} {e : Event} {switches : Bool} {pid : ℕ}

/-- What the task in a slot has still to ask the reaper for. -/
def freesOf (s : Sys) (pid : ℕ) : List (ℕ × ℕ) := ((s.threadOf pid).map Thread.frees).getD []

theorem freesOf_currentPid (s : Sys) : s.freesOf s.kernel.currentPid = s.cpu.frees := by
  unfold freesOf
  rw [threadOf_currentPid]
  rfl

theorem frees_of_addStep {trip : RoundTrip} {phase next : Phase} {o : Outside}
    (htrip : s.cpu.trip = some (trip, phase)) (horder : TripOrder (!trip.blockFirst) phase next) :
    s.cpu.frees = trip.call.frees.toList ++ (s.addStep trip next o).cpu.frees := by
  have hpre : trip.toAdd phase = true := by
    rcases horder with ⟨-, rfl, -⟩ | ⟨hfst, rfl, -⟩
    · rfl
    · simpa [RoundTrip.toAdd] using hfst
  have hafter : trip.toAdd next = false := by
    rcases horder with ⟨hfst, -, rfl⟩ | ⟨-, -, rfl⟩
    · simpa [RoundTrip.toAdd] using hfst
    · rfl
  have hrest : (s.addStep trip next o).cpu.frees = s.cpu.code.filterMap Stmt.frees := by
    simp only [addStep]
    split
    · exact Thread.frees_of_none rfl
    · rw [Thread.frees_of_trip rfl, hafter]
      rfl
  rw [hrest, Thread.frees_of_trip htrip, if_pos hpre]

theorem AtStmt.frees {stmt : Stmt} {rest : List Stmt} (hat : s.AtStmt stmt rest) :
    s.cpu.frees = stmt.frees.toList ++ rest.filterMap Stmt.frees := by
  rw [Thread.frees_of_none hat.trip, hat.code, filterMap_cons]
  cases stmt.frees <;> rfl

theorem AtStmt.frees_become {stmt : Stmt} {rest code : List Stmt} {k : Kernel}
    (hat : s.AtStmt stmt rest) (hcode : code.filterMap Stmt.frees = rest.filterMap Stmt.frees) :
    (s.become k code).cpu.frees <:+ s.cpu.frees := by
  have hafter : (s.become k code).cpu.frees = rest.filterMap Stmt.frees := by
    rw [← hcode]
    exact Thread.frees_of_none hat.trip
  rw [hafter, hat.frees]
  exact suffix_append ..

theorem Change.frees (h : Change s e switches s₁) (hval : s.Valid) :
    s₁.cpu.frees <:+ s.cpu.frees ∨
      ∃ call, e = .syscall call ∧ s₁.cpu.frees = call.frees s.kernel := by
  cases h with
  | @block trip phase next o htrip horder =>
    refine .inl ?_
    have hsame : trip.toAdd next = trip.toAdd phase := by
      rcases horder with ⟨hfst, rfl, rfl⟩ | ⟨hfst, rfl, rfl⟩ <;> simp [RoundTrip.toAdd, hfst]
    rw [Thread.frees_of_trip htrip, ← hsame]
    exact suffix_refl _
  | add htrip horder =>
    refine .inl ?_
    rw [frees_of_addStep htrip horder]
    exact suffix_append ..
  | leave htrip | collect htrip =>
    refine .inl ?_
    rw [Thread.frees_of_trip htrip]
    exact suffix_refl _
  | handle | wake | tick | key => exact .inl (suffix_refl _)
  | @reap i ticket r o htrip =>
    refine .inl ?_
    have hafter : (s.reapStep i ticket r o).cpu.frees = _ := Thread.frees_of_none htrip
    rw [Thread.frees_of_none htrip, hafter]
    simp only [reapStep]
    split
    · rw [frees_clerkLoop]
      exact nil_suffix
    · exact suffix_refl _
  | enter hat =>
    refine .inl ?_
    rw [hat.frees]
    exact suffix_refl _
  | setBlocked hat | setDead hat | yield hat | kill hat | exec hat | changeFocus hat | sweep hat
  | unstart hat | sleep hat => exact .inl (hat.frees_become rfl)
  | keyboard hat hcode =>
    rcases hcode with rfl | ⟨rfl, rfl⟩
    · exact .inl (hat.frees_become rfl)
    · exact .inl (hat.frees_become rfl)
  | @fetch c rest o hat =>
    have hbecome : (s.become s.kernel rest).cpu.frees <:+ s.cpu.frees := hat.frees_become rfl
    exact .inl hbecome
  | @syscall call huser =>
    have hout := (hval.user_of_callsFromUser huser).2
    exact .inr ⟨call, rfl, Thread.frees_of_none (of_decide_eq_true hout).1⟩
  | @docCall call hdoc =>
    refine .inl ?_
    have hidle := (of_decide_eq_true hdoc).2.1
    have hafter : ({ s.cpu with trip := some (call.trip, .enter) } : Thread).frees = s.cpu.frees := by
      rw [Thread.frees_of_trip rfl, Thread.frees_of_none hidle]
      cases call <;> rfl
    exact ⟨[], hafter⟩
  | fault =>
    refine .inl ?_
    simp only [recover]
    rw [Thread.frees_entry]
    exact nil_suffix

theorem Change.freesOf (h : Change s e switches s₁) (hval : s.Valid) (pid : ℕ) :
    s₁.freesOf pid <:+ s.freesOf pid ∨ pid = s.kernel.currentPid ∧
      ∃ call, e = .syscall call ∧ s₁.freesOf pid = call.frees s.kernel := by
  unfold Sys.freesOf
  cases hth : s₁.threadOf pid with
  | none => exact .inl nil_suffix
  | some th =>
    rcases (h.isLocal hval).threads hth with ⟨rfl, rfl⟩ | ⟨-, hold⟩
    · rw [threadOf_currentPid]
      exact (h.frees hval).imp_right fun hcall => ⟨rfl, hcall⟩
    · rw [hold]
      exact .inl (suffix_refl _)

theorem Switched.freesOf (h : Switched s s') (pid : ℕ) : s'.freesOf pid <:+ s.freesOf pid := by
  unfold Sys.freesOf
  cases hth : s'.threadOf pid with
  | none => exact nil_suffix
  | some th =>
    rcases h.threads pid th hth with ⟨hold, -⟩ | ⟨rfl, -⟩
    · simp only [hold]
      exact suffix_refl _
    · simp only [Option.map_some, Option.getD_some, Thread.frees_entry]
      exact nil_suffix

end Sys

end Taavi
