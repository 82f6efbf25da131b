import Taavi.Kernel.Outcomes

/-!
# What holds in every state of the system

The invariant of the running system: well-formed request tables, clerks in their slots, threads with
code of their kind, and the request of a clerk in progress at the last index.
-/

namespace Taavi

open Lib List

structure RoundTrip.Allowed (pid : ℕ) (trip : RoundTrip) : Prop where
  who : clerkCount ≤ pid ∨ pid = Clerk.doc.pid
  reaper : ∀ targetPid aim, trip.call = .free .reaper targetPid aim →
    clerkCount ≤ targetPid ∧ targetPid < maxTasks
  /-- A user task writes its own state only after a request of it was accepted. -/
  user : clerkCount ≤ pid → trip.viaSetter = false → trip.blockFirst = false ∧ trip.checked = true

/-- The statements that the task in a slot runs. -/
def Stmt.Allowed (pid : ℕ) : Stmt → Prop
  | roundTrip trip => clerkCount ≤ pid ∧ trip.Allowed pid
  | kill targetPid => clerkCount ≤ pid ∧ clerkCount ≤ targetPid
  | fetch c => pid = c.pid
  | sweep | unstart | sleep => pid < clerkCount
  | yield => True
  | _ => clerkCount ≤ pid

structure Thread.Allowed (pid : ℕ) (th : Thread) : Prop where
  code : ∀ stmt ∈ th.code, stmt.Allowed pid
  trip : ∀ trip phase, th.trip = some (trip, phase) → trip.Allowed pid

/-- A request is in progress in a queue, at the last index. -/
def Ledger.Holds (l : Ledger) (c : Clerk) (i ticket : ℕ) : Prop :=
  (∃ r, l.slot c i = some r ∧ r.ticket = ticket ∧ r.status = .inProgress) ∧ l.last c = some i

/-- Requests come from slots of the task table, and the reaper is only asked to free user
tasks. -/
def Ledger.Sane (l : Ledger) : Prop :=
  ∀ c i r, l.slot c i = some r → r.callerPid < maxTasks ∧
    (c = .reaper → clerkCount ≤ r.targetPid ∧ r.targetPid < maxTasks)

/-- The invariant of the system. -/
structure Sys.Valid (s : Sys) : Prop where
  ledger : s.kernel.ledger.Valid
  sane : s.kernel.ledger.Sane
  current : s.kernel.currentPid < maxTasks
  present : (s.kernel.taskTable s.kernel.currentPid).isSome = true
  clerks : ∀ pid, pid < clerkCount → (s.kernel.taskTable pid).isSome = true
  modes : ∀ pid serial mode, s.kernel.identity pid = some (serial, mode) →
    (mode = .kernelTask ↔ pid < clerkCount)
  allowed : ∀ pid th, s.threadOf pid = some th → th.Allowed pid
  handling : ∀ pid th i ticket, s.threadOf pid = some th → th.handling = some (i, ticket) →
    ∃ c : Clerk, pid = c.pid ∧ s.kernel.ledger.Holds c i ticket

section

variable {l l' : Ledger} {c d : Clerk} {i j ticket : ℕ} {r r' : Request} {kind : StepKind}

theorem Clerk.pid_injective {c d : Clerk} (h : c.pid = d.pid) : c = d := by
  cases c <;> cases d <;> first | rfl | cases h

theorem Clerk.pid_lt (c : Clerk) : c.pid < clerkCount := by cases c <;> decide

theorem LedgerStep.origin (hstep : LedgerStep l kind l') (h : l'.slot c i = some r') :
    (∃ r, l.slot c i = some r ∧ r.Same r' ∧ StatusMove kind r.status r'.status) ∨
      l.slot c i = none ∧ kind = .accept ∧ r'.status = .pending ∧ r'.ticket = l.nextTicket := by
  cases hold : l.slot c i with
  | none =>
    rcases hstep.slot_none hold with hnone | ⟨r₁, h₁, hkind, hpend, htick⟩
    · simp [hnone] at h
    · cases h₁.symm.trans h
      exact .inr ⟨rfl, hkind, hpend, htick⟩
  | some r =>
    rcases hstep.slot_some hold with ⟨r₁, h₁, hsame, hmove⟩ | ⟨hnone, -⟩
    · cases h₁.symm.trans h
      exact .inl ⟨r, rfl, hsame, hmove⟩
    · simp [hnone] at h

theorem LedgerStep.sane (hstep : LedgerStep l kind l') (hkind : kind ≠ .accept) (h : l.Sane) :
    l'.Sane := by
  intro c i r' hslot
  rcases hstep.origin hslot with ⟨r, hold, ⟨-, hcall, htarget, -, -⟩, -⟩ | ⟨-, haccept, -⟩
  · rw [hcall, htarget]
    exact h c i r hold
  · exact absurd haccept hkind

theorem Ledger.Holds.put (h : l.Holds c i ticket) (hempty : l.slot d j = none) :
    (l.put d j r).Holds c i ticket := by
  obtain ⟨⟨r', hslot, htick, hstat⟩, hlast⟩ := h
  refine ⟨⟨r', ?_, htick, hstat⟩, by rwa [Ledger.last_put]⟩
  rw [Ledger.slot_put, if_neg]
  · exact hslot
  · rintro ⟨rfl, rfl⟩
    simp [hempty] at hslot

theorem Ledger.Holds.modify {f : Request → Request} (h : l.Holds c i ticket)
    (hother : c = d → ∀ r, l.slot d j = some r → r.status ≠ .inProgress) :
    (l.modify d j f).Holds c i ticket := by
  obtain ⟨⟨r', hslot, htick, hstat⟩, hlast⟩ := h
  refine ⟨⟨r', ?_, htick, hstat⟩, by rwa [Ledger.last_modify]⟩
  rw [Ledger.slot_modify, if_neg]
  · exact hslot
  · rintro ⟨rfl, rfl⟩
    exact hother rfl r' hslot hstat

theorem Ledger.Holds.setLast (h : l.Holds c i ticket) (hother : c ≠ d) :
    (l.setLast d j).Holds c i ticket := by
  obtain ⟨hslot, hlast⟩ := h
  exact ⟨by simpa using hslot, by rwa [Ledger.last_setLast, if_neg hother]⟩

theorem Ledger.Holds.remove (h : l.Holds c i ticket) :
    (ledgerRemoveRequest l).Holds c i ticket := by
  obtain ⟨⟨r', hslot, htick, hstat⟩, hlast⟩ := h
  refine ⟨⟨r', ?_, htick, hstat⟩, hlast⟩
  rw [slot_ledgerRemoveRequest, if_neg]
  · exact hslot
  · rintro ⟨-, hterm⟩
    obtain ⟨r₁, h₁, hstat₁⟩ := (l.hasStatus_iff c i).mp hterm
    cases h₁.symm.trans hslot
    simp [hstat₁] at hstat

end

theorem allowed_signalClerks {pid targetPid aim : ℕ} (hpid : clerkCount ≤ pid)
    (htarget : clerkCount ≤ targetPid) (hbound : targetPid < maxTasks) :
    ∀ stmt ∈ signalClerksToReleaseMemory targetPid aim, stmt.Allowed pid := by
  have htrip : ∀ c, (releaseTrip c targetPid aim).Allowed pid := by
    intro c
    refine ⟨.inl hpid, fun t a h => ?_, fun _ h => by cases h⟩
    obtain ⟨-, rfl, -⟩ := AddCall.free.inj h
    exact ⟨htarget, hbound⟩
  intro stmt hstmt
  simp only [signalClerksToReleaseMemory, mem_cons, not_mem_nil, or_false] at hstmt
  rcases hstmt with rfl | rfl | rfl <;> exact ⟨hpid, htrip _⟩

theorem allowed_sysExit {k : Kernel} (hpid : clerkCount ≤ k.currentPid)
    (hbound : k.currentPid < maxTasks) : ∀ stmt ∈ sysExit k, stmt.Allowed k.currentPid := by
  intro stmt hstmt
  unfold sysExit at hstmt
  split at hstmt
  · simp at hstmt
  · split at hstmt
    · simp at hstmt
    · split at hstmt
      · simp at hstmt
      · simp only [cons_append, mem_cons, mem_append, not_mem_nil,
          or_false] at hstmt
        rcases hstmt with rfl | hstmt | rfl
        · exact hpid
        · exact allowed_signalClerks hpid hpid hbound stmt hstmt
        · exact hpid

theorem allowed_sysKill {k : Kernel} {targetPid : ℕ} (hpid : clerkCount ≤ k.currentPid)
    (hbound : k.currentPid < maxTasks) : ∀ stmt ∈ sysKill k targetPid, stmt.Allowed k.currentPid := by
  intro stmt hstmt
  unfold sysKill at hstmt
  split at hstmt
  · rename_i hget
    have htarget : targetPid < maxTasks := by
      by_contra hno
      simp [taskGet, hno] at hget
    split at hstmt
    · simp at hstmt
    · rename_i hclerk
      simp only [mem_append, mem_cons] at hstmt
      rcases hstmt with hstmt | rfl | hstmt
      · split at hstmt
        · exact allowed_sysExit hpid hbound stmt hstmt
        · simp at hstmt
      · exact ⟨hpid, by omega⟩
      · exact allowed_signalClerks hpid (by omega) htarget stmt hstmt
  · simp at hstmt

theorem allowed_fsTrip {pid fd bufferSize flags : ℕ} {type : Operation}
    {buf : Option (List UInt8)} {out first : Bool} (hpid : clerkCount ≤ pid) :
    ({ fsTrip type fd buf bufferSize flags out with blockFirst := first } : RoundTrip).Allowed pid :=
  ⟨.inl hpid, fun _ _ h => (by cases h), fun _ h => by cases h⟩

theorem Syscall.allowed {k : Kernel} (call : Syscall) (hpid : clerkCount ≤ k.currentPid)
    (hbound : k.currentPid < maxTasks) : ∀ stmt ∈ call.code k, stmt.Allowed k.currentPid := by
  have hone : ∀ trip : RoundTrip, trip.Allowed k.currentPid →
      ∀ stmt ∈ [Stmt.roundTrip trip], stmt.Allowed k.currentPid := by
    intro trip htrip stmt hstmt
    obtain rfl := mem_singleton.mp hstmt
    exact ⟨hpid, htrip⟩
  have hplain : ∀ stmt : Stmt, stmt.Allowed k.currentPid →
      ∀ stmt' ∈ [stmt], stmt'.Allowed k.currentPid := by
    intro stmt hallow stmt' hstmt
    obtain rfl := mem_singleton.mp hstmt
    exact hallow
  have hnone : ∀ stmt ∈ ([] : List Stmt), stmt.Allowed k.currentPid :=
    fun _ h => absurd h not_mem_nil
  cases call with
  | exit => exact allowed_sysExit hpid hbound
  | read fd buf buffSize =>
    simp only [Syscall.code, sysRead]
    split
    · exact hplain _ hpid
    · exact hone _ (allowed_fsTrip hpid)
  | write fd buf len =>
    simp only [Syscall.code, sysWrite]
    split
    · exact hnone
    · exact hone _ (allowed_fsTrip hpid)
  | openFile path len flags => exact hone _ (allowed_fsTrip hpid)
  | close fd =>
    simp only [Syscall.code, sysClose]
    split
    · exact hnone
    · exact hone _ (allowed_fsTrip hpid)
  | unlink path =>
    cases path with
    | none => exact hnone
    | some path => exact hone _ (allowed_fsTrip hpid)
  | chdir path len | mkdir path len => exact hone _ (allowed_fsTrip hpid)
  | getdents buffer len => exact hone _ (allowed_fsTrip hpid)
  | exec | setOperator => exact hplain _ hpid
  | yield => exact hplain _ trivial
  | kill targetPid => exact allowed_sysKill hpid hbound
  | changeFocus targetPid => exact hplain _ hpid
  | test opcode => exact hone _ ⟨.inl hpid, fun _ _ h => (by cases h), fun _ _ => ⟨rfl, rfl⟩⟩
  | window params =>
    simp only [Syscall.code, sysWindow]
    split
    · exact hnone
    · exact hone _ ⟨.inl hpid, fun _ _ h => (by cases h), fun _ h => by cases h⟩

theorem DocCall.allowed (call : DocCall) : call.trip.Allowed Clerk.doc.pid := by
  refine ⟨.inr rfl, fun t a h => ?_, fun h => absurd h (by decide)⟩
  cases call <;> cases h

theorem Thread.allowed_entry (pid : ℕ) : (Thread.entry pid).Allowed pid := by
  refine ⟨fun stmt hstmt => ?_, fun _ _ h => by cases h⟩
  simp only [Thread.entry, entryCode] at hstmt
  split at hstmt
  · rename_i c hqueue
    obtain rfl := eq_pid_of_ledgerGetQueue hqueue
    cases c <;>
    · simp only [clerkLoop, mem_cons, not_mem_nil, or_false] at hstmt
      rcases hstmt with rfl | rfl | rfl | rfl | rfl <;>
        first | exact rfl | exact Clerk.pid_lt _ | exact trivial
  · simp at hstmt

end Taavi
