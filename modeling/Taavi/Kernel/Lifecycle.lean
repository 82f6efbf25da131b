import Taavi.Kernel.Protocol
import Taavi.Lib.Runs

/-!
# The life of a request

The operations of the ledger in any order. The status of a request moves forward only, it keeps its
slot until it is freed, and a clerk has at most one request in progress.
-/

namespace Taavi

open Lib

/-- The operations on the ledger, with their arguments and the outcomes of `kmalloc`. -/
inductive LedgerOp where
  | addFs (callerPid : ℕ) (type : Operation) (fd : ℕ) (buf : Option (List UInt8))
      (bufferSize flags : ℕ) (okReq okBuf : Bool)
  | addGui (callerPid : ℕ) (params : GuiParams) (okReq okPixels okBuf : Bool)
  | addDoc (callerPid opcode : ℕ) (okReq : Bool)
  | queueFree (callerPid clerkPid targetPid : ℕ) (okReq : Bool)
  | fetch (clerkPid : ℕ)
  | complete (c : Clerk) (i : ℕ) (reply : Reply)
  /-- The reaper terminates the settled request of a task that ended itself. -/
  | terminate (i : ℕ)
  | collect (callerPid clerkPid : ℕ) (out : Bool)
  | check (clerkPid : ℕ)
  | remove

/-- A clerk settles only what it has in progress, the reaper terminates only what it has settled. -/
def LedgerOp.run (k : Kernel) : LedgerOp → Option Kernel
  | .addFs callerPid type fd buf bufferSize flags okReq okBuf =>
    some (ledgerAddFsReq k callerPid type fd buf bufferSize flags okReq okBuf).1
  | .addGui callerPid params okReq okPixels okBuf =>
    some (ledgerAddGuiReq k callerPid params okReq okPixels okBuf).1
  | .addDoc callerPid opcode okReq => some (ledgerAddDocReq k callerPid opcode okReq).1
  | .queueFree callerPid clerkPid targetPid okReq =>
    some (ledgerQueueFreeReq k callerPid clerkPid targetPid okReq).1
  | .fetch clerkPid => some { k with ledger := (ledgerFetchNextReq k.ledger clerkPid).1 }
  | .complete c i reply =>
    if k.ledger.hasStatus c .inProgress i then some (settleRequest k c i reply) else none
  | .terminate i =>
    if k.ledger.hasStatus .reaper .complete i ∨ k.ledger.hasStatus .reaper .failed i then
      some { k with ledger := k.ledger.setStatus .reaper i .terminated }
    else none
  | .collect callerPid clerkPid out =>
    some { k with ledger := (ledgerCollect k.ledger callerPid clerkPid out).1 }
  | .check clerkPid => some (ledgerCheckRequest k clerkPid)
  | .remove => some { k with ledger := ledgerRemoveRequest k.ledger }

def LedgerOp.kind : LedgerOp → StepKind
  | .addFs .. | .addGui .. | .addDoc .. | .queueFree .. => .accept
  | .fetch _ => .fetch
  | .complete .. => .settle
  | .terminate _ | .collect .. => .collect
  | .check _ => .giveUp
  | .remove => .remove

section

variable {k k' : Kernel} {l : Ledger}

variable {op : LedgerOp}

def LedgerChange (kind : StepKind) (l l' : Ledger) : Prop := l' = l ∨ LedgerStep l kind l'

/-- The status that an operation that adds a request returns. -/
def LedgerOp.accepts (k : Kernel) : LedgerOp → Bool
  | .addFs callerPid type fd buf bufferSize flags okReq okBuf =>
    (ledgerAddFsReq k callerPid type fd buf bufferSize flags okReq okBuf).2
  | .addGui callerPid params okReq okPixels okBuf =>
    (ledgerAddGuiReq k callerPid params okReq okPixels okBuf).2
  | .addDoc callerPid opcode okReq => (ledgerAddDocReq k callerPid opcode okReq).2
  | .queueFree callerPid clerkPid targetPid okReq =>
    (ledgerQueueFreeReq k callerPid clerkPid targetPid okReq).2
  | _ => false

theorem LedgerOp.addResult (hkind : op.kind = .accept)
    (hrun : op.run k = some k') : AddResult k.ledger k' (op.accepts k) := by
  cases op with
  | addFs =>
    cases hrun
    exact ledgerAddFsReq_result ..
  | addGui =>
    obtain rfl := Option.some.inj hrun
    exact ledgerAddGuiReq_result ..
  | addDoc =>
    cases hrun
    exact ledgerAddDocReq_result ..
  | queueFree =>
    cases hrun
    exact ledgerQueueFreeReq_result ..
  | _ => cases hkind

theorem AddResult.slot {ok : Bool} (h : AddResult k.ledger k' ok) :
    (ok = true → ∃ c i r, k.ledger.slot c i = none ∧ k'.ledger.slot c i = some r ∧
      r.ticket = k.ledger.nextTicket) ∧
      (ok = false → k'.ledger = k.ledger) := by
  cases h with
  | @accepted c i r hi hempty hpend heq =>
    refine ⟨fun _ => ⟨c, i, { r with ticket := k.ledger.nextTicket }, hempty, ?_, rfl⟩,
      fun h => by cases h⟩
    rw [heq, Ledger.slot_put, if_pos ⟨rfl, rfl⟩]
  | declined heq => exact ⟨fun h => (by cases h), fun _ => heq⟩

theorem AddResult.change {ok : Bool} (h : AddResult k.ledger k' ok) :
    LedgerChange .accept k.ledger k'.ledger := by
  cases h with
  | accepted hi hempty hpend heq =>
    rw [heq]
    exact .inr (.put hi hempty hpend)
  | declined heq => exact .inl heq

theorem LedgerOp.change (hval : k.ledger.Valid) (hrun : op.run k = some k') :
    LedgerChange op.kind k.ledger k'.ledger := by
  cases op with
  | addFs | addGui | addDoc | queueFree => exact (LedgerOp.addResult rfl hrun).change
  | fetch clerkPid =>
    cases hrun
    cases hqueue : ledgerGetQueue clerkPid with
    | none => exact .inl (by simp [ledgerFetchNextReq, hqueue])
    | some c =>
      obtain rfl := eq_pid_of_ledgerGetQueue hqueue
      rcases ledgerFetchNextReq_cases hval c with ⟨heq, -⟩ | ⟨i, r, heq, hslot, hstat⟩ |
        ⟨i, r, heq, hslot, hstat, hother⟩
      · exact .inl (by simp [heq])
      · exact .inr (by simpa [heq, LedgerOp.kind] using LedgerStep.refetch hslot hstat)
      · exact .inr (by simpa [heq, LedgerOp.kind] using LedgerStep.fetch hslot hstat hother)
  | complete c i reply =>
    simp only [LedgerOp.run] at hrun
    split_ifs at hrun with hprog
    cases hrun
    obtain ⟨r, hslot, hstat⟩ := (k.ledger.hasStatus_iff c i).mp hprog
    refine .inr ?_
    simpa [settleRequest, hslot, LedgerOp.kind] using LedgerStep.settle hslot hstat
  | terminate i =>
    simp only [LedgerOp.run] at hrun
    split_ifs at hrun with hdone
    cases hrun
    rcases hdone with hstat | hstat
    · obtain ⟨r, hslot, hstat⟩ := (k.ledger.hasStatus_iff .reaper i).mp hstat
      exact .inr (LedgerStep.collect hslot (.inl hstat))
    · obtain ⟨r, hslot, hstat⟩ := (k.ledger.hasStatus_iff .reaper i).mp hstat
      exact .inr (LedgerStep.collect hslot (.inr hstat))
  | collect callerPid clerkPid out =>
    cases hrun
    cases hqueue : ledgerGetQueue clerkPid with
    | none => exact .inl (by simp [ledgerCollect, hqueue])
    | some c =>
      obtain rfl := eq_pid_of_ledgerGetQueue hqueue
      rcases ledgerCollect_cases k.ledger callerPid c out with ⟨heq, -⟩ |
        ⟨i, r, -, hslot, -, hdone, heq⟩
      · exact .inl (by simp [heq])
      · exact .inr (by simpa [heq, LedgerOp.kind] using LedgerStep.collect hslot hdone)
  | check clerkPid =>
    cases hrun
    cases hqueue : ledgerGetQueue clerkPid with
    | none => exact .inl (by simp [ledgerCheckRequest, hqueue])
    | some c =>
      cases hlast : k.ledger.last c with
      | none => exact .inl (by simp [ledgerCheckRequest, hqueue, hlast])
      | some i =>
        cases hslot : k.ledger.slot c i with
        | none => exact .inl (by simp [ledgerCheckRequest, hqueue, hlast, hslot])
        | some r =>
          refine .inr ?_
          simpa [ledgerCheckRequest, hqueue, hlast, hslot, LedgerOp.kind] using
            LedgerStep.giveUp hlast hslot
  | remove =>
    cases hrun
    exact .inr LedgerStep.remove

theorem StatusMove.allowed {s s' : Status} (h : StatusMove op.kind s s') :
    s' = s ∨ (s = .pending ∧ s' = .inProgress) ∨
      (s = .inProgress ∧ (s' = .complete ∨ s' = .failed)) ∨
      ((s = .complete ∨ s = .failed) ∧ s' = .terminated) ∨
      ((∃ clerkPid, op = .check clerkPid) ∧ s' = .terminated) := by
  generalize hkind : op.kind = kind at h
  cases h with
  | keep => exact .inl rfl
  | fetch => exact .inr (.inl ⟨rfl, rfl⟩)
  | settle hdone => exact .inr (.inr (.inl ⟨rfl, hdone⟩))
  | collect hdone => exact .inr (.inr (.inr (.inl ⟨hdone, rfl⟩)))
  | giveUp =>
    refine .inr (.inr (.inr (.inr ⟨?_, rfl⟩)))
    cases op with
    | check clerkPid => exact ⟨clerkPid, rfl⟩
    | _ => cases hkind

theorem LedgerOp.valid (hval : k.ledger.Valid) (hrun : op.run k = some k') : k'.ledger.Valid := by
  rcases LedgerOp.change hval hrun with hsame | hstep
  · rwa [hsame]
  · exact hstep.valid hval

theorem LedgerOp.finished {ticket : ℕ} (hval : k.ledger.Valid)
    (hrun : op.run k = some k') (h : k.ledger.Finished ticket) : k'.ledger.Finished ticket := by
  rcases LedgerOp.change hval hrun with hsame | hstep
  · rwa [hsame]
  · exact hstep.finished h

theorem not_finished_of_fetch (hval : l.Valid) {clerkPid i : ℕ}
    (hfetch : (ledgerFetchNextReq l clerkPid).2 = some i) :
    ∃ c r, ledgerGetQueue clerkPid = some c ∧ l.slot c i = some r ∧ r.unfinished = true ∧
      ¬l.Finished r.ticket := by
  cases hqueue : ledgerGetQueue clerkPid with
  | none => simp [ledgerFetchNextReq, hqueue] at hfetch
  | some c =>
    obtain rfl := eq_pid_of_ledgerGetQueue hqueue
    rcases ledgerFetchNextReq_cases hval c with ⟨heq, -⟩ | ⟨j, r, heq, hslot, hstat⟩ |
      ⟨j, r, heq, hslot, hstat, -⟩
    · simp [heq] at hfetch
    all_goals
      obtain rfl : j = i := by simpa [heq] using hfetch
      refine ⟨c, r, rfl, hslot, by simp [Request.unfinished, hstat], fun hfin => ?_⟩
      simp [hfin.2 c j r hslot rfl] at hstat

theorem ledgerCheckRequest_progress (hval : k.ledger.Valid) (c : Clerk) (i : ℕ) (r : Request)
    (hslot : (ledgerCheckRequest k c.pid).ledger.slot c i = some r) : r.status ≠ .inProgress := by
  intro hstat
  have hrun : (LedgerOp.check c.pid).run k = some (ledgerCheckRequest k c.pid) := rfl
  have hlast := (LedgerOp.valid hval hrun).single c i r hslot hstat
  unfold ledgerCheckRequest at hslot hlast
  rw [ledgerGetQueue_pid] at hslot hlast
  cases hidx : k.ledger.last c with
  | none => simp [hidx] at hlast
  | some j =>
    cases hold : k.ledger.slot c j with
    | none =>
      simp only [hidx, hold, Option.some.injEq] at hlast hslot
      subst hlast
      simp [hold] at hslot
    | some r₀ =>
      simp only [hidx, hold, ledger_schedulerWakeTask, Ledger.last_setStatus,
        Option.some.injEq] at hlast hslot
      subst hlast
      rw [Ledger.slot_setStatus, if_pos ⟨rfl, rfl⟩, hold] at hslot
      cases hslot
      simp at hstat

end

/-- After any run of operations from empty tables: a ticket is in one slot; at most one request is
in progress, at the last index; the next operation moves a request on, or frees it because it is
terminated, and fills a slot only with a new waiting request; and a terminated request, as a fault
leaves the one in progress, is never fetched again. -/
theorem ledger_lifecycle (k₀ : Kernel) {ops : List LedgerOp} {k : Kernel}
    (hrun : Run (fun k op k' => LedgerOp.run k op = some k') { k₀ with ledger := .init } ops k) :
    (∀ c i r d j r', k.ledger.slot c i = some r → k.ledger.slot d j = some r' →
      r.ticket = r'.ticket → c = d ∧ i = j) ∧
    (∀ c i r, k.ledger.slot c i = some r → r.status = .inProgress → k.ledger.last c = some i) ∧
    (∀ op k', LedgerOp.run k op = some k' →
      (∀ c i r, k.ledger.slot c i = some r →
        (∃ r', k'.ledger.slot c i = some r' ∧ r.Same r' ∧
          (r'.status = r.status ∨ (r.status = .pending ∧ r'.status = .inProgress) ∨
            (r.status = .inProgress ∧ (r'.status = .complete ∨ r'.status = .failed)) ∨
            ((r.status = .complete ∨ r.status = .failed) ∧ r'.status = .terminated) ∨
            ((∃ clerkPid, op = .check clerkPid) ∧ r'.status = .terminated))) ∨
        (k'.ledger.slot c i = none ∧ r.status = .terminated)) ∧
      (∀ c i r', k.ledger.slot c i = none → k'.ledger.slot c i = some r' →
        r'.status = .pending ∧ r'.ticket = k.ledger.nextTicket) ∧
      (op.accepts k = true → ∃ c i r', k.ledger.slot c i = none ∧ k'.ledger.slot c i = some r' ∧
        r'.ticket = k.ledger.nextTicket) ∧
      (∀ c, op = .check c.pid → ∀ i r', k'.ledger.slot c i = some r' → r'.status ≠ .inProgress)) ∧
    ∀ c i r, k.ledger.slot c i = some r → r.status = .terminated →
      ∀ ops' k', Run (fun k op k' => LedgerOp.run k op = some k') k ops' k' →
        ∀ clerkPid j, (ledgerFetchNextReq k'.ledger clerkPid).2 = some j →
          ∃ d r', ledgerGetQueue clerkPid = some d ∧ k'.ledger.slot d j = some r' ∧
            r'.ticket ≠ r.ticket := by
  have hvalid : k.ledger.Valid :=
    hrun.invariant (fun k op k' hvalid hstep => LedgerOp.valid hvalid hstep) Ledger.valid_init
  refine ⟨hvalid.unique, hvalid.single, fun op k' hstep => ⟨?_, ?_, ?_, ?_⟩, ?_⟩
  · intro c i r hslot
    rcases LedgerOp.change hvalid hstep with hsame | hchange
    · exact .inl ⟨r, by rwa [hsame], ⟨rfl, rfl, rfl, rfl, rfl⟩, .inl rfl⟩
    · rcases hchange.slot_some hslot with ⟨r', hslot', hsame, hmove⟩ | ⟨hnone, hterminated, -⟩
      · exact .inl ⟨r', hslot', hsame, hmove.allowed⟩
      · exact .inr ⟨hnone, hterminated⟩
  · intro c i r' hnone hslot'
    rcases LedgerOp.change hvalid hstep with hsame | hchange
    · rw [hsame, hnone] at hslot'
      simp at hslot'
    · rcases hchange.slot_none hnone with hnone' | ⟨r₁, hr₁, -, hpending, hticket⟩
      · simp [hnone'] at hslot'
      · cases hr₁.symm.trans hslot'
        exact ⟨hpending, hticket⟩
  · intro haccepts
    have hkind : op.kind = .accept := by
      cases op with
      | addFs | addGui | addDoc | queueFree => rfl
      | _ => cases haccepts
    exact (LedgerOp.addResult hkind hstep).slot.1 haccepts
  · rintro c rfl i r' hslot'
    cases hstep
    exact ledgerCheckRequest_progress hvalid c i r' hslot'
  · intro c i r hslot hterminated ops' k' hrun' clerkPid j hfetch
    have hkeep : ∀ k op k', k.ledger.Valid ∧ k.ledger.Finished r.ticket →
        LedgerOp.run k op = some k' → k'.ledger.Valid ∧ k'.ledger.Finished r.ticket :=
      fun k op k' h hstep => ⟨LedgerOp.valid h.1 hstep, LedgerOp.finished h.1 hstep h.2⟩
    have hlater := hrun'.invariant hkeep ⟨hvalid, hvalid.finished hslot hterminated⟩
    obtain ⟨d, r', hqueue, hslot', -, hnot⟩ := not_finished_of_fetch hlater.1 hfetch
    refine ⟨d, r', hqueue, hslot', fun hticket => hnot ?_⟩
    rw [hticket]
    exact hlater.2

/-- A request through all its stages. -/
theorem ledger_lifecycle_open :
    ∃ k, Run (fun k op k' => LedgerOp.run k op = some k') { kernelMain with ledger := .init }
        [.addFs 5 .openFile 0 none 0 0 true true, .fetch 1, .complete .fs 0 ⟨true, 7, none, 0⟩,
          .collect 5 1 false, .remove] k ∧
      ∀ c i r, k.ledger.slot c i = some r → r.status = .inProgress → k.ledger.last c = some i := by
  obtain ⟨k, hexec⟩ : ∃ k, exec LedgerOp.run { kernelMain with ledger := .init }
      [.addFs 5 .openFile 0 none 0 0 true true, .fetch 1, .complete .fs 0 ⟨true, 7, none, 0⟩,
        .collect 5 1 false, .remove] = some k := by
    refine Option.isSome_iff_exists.mp ?_
    decide +kernel
  have hrun := run_iff_exec.mpr hexec
  exact ⟨k, hrun, (ledger_lifecycle kernelMain hrun).2.1⟩

end Taavi
