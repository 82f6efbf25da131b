import Taavi.Kernel.Reachable

/-!
# The recovery from faults

When a clerk faults, `ledger_check_request` terminates the request at the last index of its queue.
Between requests that index still names the slot of an earlier one.
-/

namespace Taavi.Sys

open Lib

variable {s s' : Sys}

/-- The fault of a clerk terminates the request that it handles, and no other. -/
def PurgesExactly (s s' : Sys) (c : Clerk) : Prop :=
  ∀ d i, s'.kernel.ledger.slot d i =
    if d = c ∧ s.cpu.handling.map Prod.fst = some i then
      (s.kernel.ledger.slot d i).map fun r => { r with status := .terminated }
    else s.kernel.ledger.slot d i

theorem ledger_of_fault {c : Clerk} {dirty : Bool} (hcur : s.kernel.currentPid = c.pid)
    (h : s.step (.fault dirty) = some s') : s'.kernel.ledger = (s.recover c).kernel.ledger := by
  rcases changed_of_step h with hchange | ⟨s₁, hchange, hswitch⟩
  · cases hchange
  · cases hchange with
    | fault hcur' =>
      obtain rfl := Clerk.pid_injective (hcur.symm.trans hcur')
      exact hswitch.picked.ledger

theorem slot_recover (s : Sys) (c d : Clerk) (i : ℕ) :
    (s.recover c).kernel.ledger.slot d i =
      if d = c ∧ s.kernel.ledger.last c = some i then
        (s.kernel.ledger.slot d i).map fun r => { r with status := .terminated }
      else s.kernel.ledger.slot d i := by
  have hsleep : (s.kernel.setState c.pid .sleeping).ledger = s.kernel.ledger := rfl
  have hled : (s.recover c).kernel.ledger =
      (ledgerCheckRequest (s.kernel.setState c.pid .sleeping) c.pid).ledger := rfl
  rw [hled]
  rcases ledgerCheckRequest_cases (s.kernel.setState c.pid .sleeping) c with ⟨heq, hnone⟩ |
    ⟨j, r, hlast, hslot, heq⟩
  · rw [heq, hsleep]
    split
    · rename_i hhere
      obtain ⟨rfl, hlast⟩ := hhere
      rw [hsleep] at hnone
      rw [hnone i hlast]
      rfl
    · rfl
  · rw [hsleep] at hlast hslot heq
    rw [heq, sameTasks_schedulerWakeTask.ledger, Ledger.slot_setStatus]
    by_cases hhere : d = c ∧ i = j
    · obtain ⟨rfl, rfl⟩ := hhere
      rw [if_pos ⟨rfl, rfl⟩, if_pos ⟨rfl, hlast⟩]
    · rw [if_neg hhere, if_neg]
      rintro ⟨rfl, hlast'⟩
      exact hhere ⟨rfl, Option.some.inj (hlast'.symm.trans hlast)⟩

/-- The clerk handles a request, or nothing at the last index can be lost. -/
def FaultsSafely (s : Sys) (c : Clerk) : Prop :=
  s.cpu.handling.isSome = true ∨
    ∀ i r, s.kernel.ledger.last c = some i → s.kernel.ledger.slot c i = some r →
      r.status = .terminated

/-- The clerk serves the request of a client and faults before it has work again. -/
def faultAfterWork : List Event :=
  .syscall (.openFile (some [65]) 1 1) :: List.replicate 7 (.act .smooth)

end Taavi.Sys
