import Taavi.Kernel.Validity
import Taavi.Lib.Runs

/-!
# The invariant is kept

Every change and every switch keeps the system valid. The changes are taken by what they touch.
-/

namespace Taavi.Sys

open Lib

variable {s s₁ : Sys}

theorem threadOf_boot {pid : ℕ} {th : Thread} (h : boot.threadOf pid = some th) :
    th = boot.cpu := by
  unfold threadOf at h
  split at h
  · exact (Option.some.inj h).symm
  · split at h <;> cases h

theorem valid_boot : boot.Valid := by
  refine ⟨Ledger.valid_init, fun c i r h => ?_, by decide, by decide, fun pid hpid => ?_,
    fun pid serial mode h => ?_, fun pid th hth => ?_, fun pid th i ticket hth h => ?_⟩
  · simp [boot, kernelMain, Ledger.slot, Ledger.init] at h
  · simp [boot, kernelMain, hpid]
  · simp only [Kernel.identity, boot, kernelMain] at h
    split at h
    · rename_i hpid
      obtain ⟨-, rfl⟩ : pid = serial ∧ TaskMode.kernelTask = mode := by simpa using h
      simp [hpid]
    · rename_i hpid
      split at h
      · obtain ⟨-, rfl⟩ : pid = serial ∧ TaskMode.userTask = mode := by simpa using h
        simp [hpid]
      · simp at h
  · rw [threadOf_boot hth]
    exact ⟨fun _ h => absurd h List.not_mem_nil, fun _ _ h => by cases h⟩
  · rw [threadOf_boot hth] at h
    cases h

section

variable (hval : s.Valid)

include hval

theorem Valid.cpu : s.cpu.Allowed s.kernel.currentPid := hval.allowed _ _ (threadOf_currentPid s)

theorem Valid.holds {i ticket : ℕ} (h : s.cpu.handling = some (i, ticket)) :
    ∃ c : Clerk, s.kernel.currentPid = c.pid ∧ s.kernel.ledger.Holds c i ticket :=
  hval.handling _ s.cpu i ticket (threadOf_currentPid s) h

theorem Valid.holds_current {c : Clerk} {i ticket : ℕ}
    (h : s.cpu.handling = some (i, ticket)) (hcur : s.kernel.currentPid = c.pid) :
    s.kernel.ledger.Holds c i ticket := by
  obtain ⟨d, hd, hholds⟩ := hval.holds h
  rwa [Clerk.pid_injective (hcur.symm.trans hd)]

theorem Valid.rest {stmt : Stmt} {rest : List Stmt} (hat : s.AtStmt stmt rest) :
    ∀ stmt' ∈ rest, stmt'.Allowed s.kernel.currentPid :=
  fun stmt' h => hval.cpu.code stmt' (by rw [hat.code]; exact List.mem_cons_of_mem _ h)

theorem Valid.stmt {stmt : Stmt} {rest : List Stmt} (hat : s.AtStmt stmt rest) :
    stmt.Allowed s.kernel.currentPid :=
  hval.cpu.code stmt (by rw [hat.code]; exact List.mem_cons_self)

theorem Valid.currentState : ∃ state, s.kernel.stateOf s.kernel.currentPid = some state := by
  have hsome := hval.present
  rwa [← Kernel.isSome_stateOf, Option.isSome_iff_exists] at hsome

theorem Valid.allowed_rest {stmt : Stmt} {rest : List Stmt}
    (hat : s.AtStmt stmt rest) {k : Kernel} : (s.become k rest).cpu.Allowed s.kernel.currentPid :=
  ⟨hval.rest hat, hval.cpu.trip⟩

theorem Valid.user_of_mode {pid : ℕ} {t : Task}
    (htask : s.kernel.taskTable pid = some t) (hmode : t.taskMode = .userTask) :
    clerkCount ≤ pid := by
  have hident : s.kernel.identity pid = some (t.serial, t.taskMode) := by
    simp [Kernel.identity, htask]
  by_contra hclerk
  have := (hval.modes pid t.serial t.taskMode hident).mpr (by omega)
  simp [hmode] at this

theorem Valid.user_of_callsFromUser (h : s.callsFromUser = true) :
    clerkCount ≤ s.kernel.currentPid ∧ s.cpu.outside = true := by
  unfold callsFromUser schedulerGetCurrentTask at h
  obtain ⟨t, htask, h⟩ := Option.any_eq_true _ _ |>.mp h
  simp only [decide_eq_true_eq] at h
  exact ⟨hval.user_of_mode htask h.1, h.2⟩

end

theorem Local.of_started (hframe : s₁.frame = s.frame)
    (hcur : s₁.kernel.currentPid = s.kernel.currentPid)
    (hstart : ∀ pid, s₁.kernel.startedOf pid = s.kernel.startedOf pid) : Local s s₁ :=
  ⟨hframe, hcur, fun pid _ h => by rwa [hstart] at h⟩

end Taavi.Sys
