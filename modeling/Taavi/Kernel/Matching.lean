import Taavi.Kernel.Clients
import Taavi.Kernel.DeadTasks

/-!
# Requests and the tasks that wait for them

`ledger_collect` finds a result by the pid of the caller alone. It is the caller's own where no
unfinished caller is woken by the keyboard, none is destroyed with a request of another kind, and
dead tasks make no calls.
-/

namespace Taavi

open Lib

def Thread.Owns (th : Thread) (c : Clerk) (ticket : ℕ) : Prop :=
  ∃ trip phase, th.trip = some (trip, phase) ∧ trip.toAdd phase = false ∧
    trip.call.clerk = c ∧ th.own = some ticket

theorem Thread.Owns.unique {th : Thread} {c d : Clerk} {ticket ticket' : ℕ}
    (h : th.Owns c ticket) (h' : th.Owns d ticket') : c = d ∧ ticket = ticket' := by
  obtain ⟨trip, phase, htrip, -, rfl, hown⟩ := h
  obtain ⟨trip', phase', htrip', -, rfl, hown'⟩ := h'
  cases htrip.symm.trans htrip'
  exact ⟨rfl, Option.some.inj (hown.symm.trans hown')⟩

theorem Request.live_of_unfinished (r : Request) (h : r.unfinished = true) :
    r.status ≠ .terminated := by
  have hstat : r.status = .pending ∨ r.status = .inProgress := of_decide_eq_true h
  rcases hstat with hstat | hstat <;> simp [hstat]

theorem Request.not_settled_of_unfinished (r : Request) (h : r.unfinished = true) :
    ¬r.status.settled := by
  have hstat : r.status = .pending ∨ r.status = .inProgress := of_decide_eq_true h
  rcases hstat with hstat | hstat <;> simp [hstat, Status.settled]

/-- Whether the task has a request that is not terminated and is not the given one. -/
def Ledger.hasOther (l : Ledger) (pid ticket : ℕ) : Bool :=
  l.anyRequest fun _ _ r => r.status ≠ .terminated && r.callerPid == pid && r.ticket != ticket

namespace Sys

variable {s s₁ : Sys} {e : Event} {switches : Bool} {pid : ℕ}

variable {c : Clerk} {i : ℕ} {r : Request} {trip : RoundTrip}

/-- The condition on a statement: the keyboard is not given to a task that waits for a request or
for its wake. -/
def stmtWakesSafely (s : Sys) : Stmt → Bool
  | .changeFocus targetPid => !s.owes targetPid
  | _ => true

/-- Statements meet theirs, a dead task makes no round trip, a clerk wakes for a request that is
still there, the reaper destroys only tasks without other requests, no key comes while its task
waits for a request or its wake, and no clerk faults. -/
def wakesSafely (s : Sys) : Event → Bool
  | .act _ =>
    s.nextStmt.all s.stmtWakesSafely && s.wakesKnown && s.tripsAlive &&
      s.reaps.all fun r => !s.kernel.ledger.hasOther r.targetPid r.ticket
  | .key _ => s.kernel.keyboard.foregroundPid.all fun pid => !s.owes pid
  | .fault _ => false
  | _ => true

theorem wakesSafely_act {o : Outside} : s.wakesSafely (.act o) = true ↔
    s.nextStmt.all s.stmtWakesSafely = true ∧ s.wakesKnown = true ∧ s.tripsAlive = true ∧
      (s.reaps.all fun r => !s.kernel.ledger.hasOther r.targetPid r.ticket) = true := by
  simp only [wakesSafely, Bool.and_eq_true, and_assoc]

/-- The request has failed, and it is finished without having been delivered. -/
def Failed (s : Sys) (ticket : ℕ) : Prop :=
  s.kernel.ledger.Finished ticket ∧ ticket ∉ s.delivered ∧
    ∃ r, s.produced ticket = some r ∧ r.status = .failed

/-- The request of the task with `pid` is in the tables, or it has failed. -/
def Kept (s : Sys) (c : Clerk) (ticket pid : ℕ) : Prop :=
  (∃ i r, s.kernel.ledger.slot c i = some r ∧ r.ticket = ticket ∧ r.callerPid = pid ∧
    r.status ≠ .terminated) ∨ s.Failed ticket

/-- How requests and the user tasks that wait for them belong together. -/
structure Matched (s : Sys) : Prop where
  started : clerkCount ≤ s.kernel.currentPid → s.kernel.startedOf s.kernel.currentPid = true
  suspended : ∀ pid th trip phase, clerkCount ≤ pid → pid ≠ s.kernel.currentPid →
    s.threadOf pid = some th → th.trip = some (trip, phase) → phase = .waiting
  /-- A user task on its way to the yield is blocked, unless its call was refused. -/
  entering : clerkCount ≤ s.kernel.currentPid → ∀ trip phase, s.cpu.trip = some (trip, phase) →
    phase = .half ∧ trip.blockFirst = true ∨ phase = .ready ∧ s.cpu.own.isSome = true →
      s.kernel.stateOf s.kernel.currentPid = some .blocked
  owner : ∀ c i r, s.kernel.ledger.slot c i = some r → r.status ≠ .terminated →
    clerkCount ≤ r.callerPid → ∃ th, s.threadOf r.callerPid = some th ∧ th.Owns c r.ticket
  waits : ∀ c i r, s.Due c i r → clerkCount ≤ r.callerPid →
    s.kernel.stateOf r.callerPid = some .blocked ∨
      s.kernel.stateOf r.callerPid = some .dead ∨
      r.callerPid = s.kernel.currentPid ∧ ∃ trip, s.cpu.trip = some (trip, .half)
  /-- A clerk knows the request for which it wakes a user task, and nobody has collected it. -/
  late : ∀ c i ticket, s.waking c = some (i, ticket) → ticket < s.kernel.ledger.nextTicket ∧
    ∀ r, s.kernel.ledger.slot c i = some r → r.ticket = ticket → clerkCount ≤ r.callerPid →
      r.status.settled
  produced : ∀ c i r, s.kernel.ledger.slot c i = some r → r.status.settled →
    clerkCount ≤ r.callerPid → s.produced r.ticket = some r
  owned : ∀ pid th c ticket, clerkCount ≤ pid → s.threadOf pid = some th → th.Owns c ticket →
    s.Kept c ticket pid
  delivered : s.delivered.Nodup ∧ ∀ ticket ∈ s.delivered, s.kernel.ledger.Finished ticket

/-- A user task that collects its result is running. -/
def Collecting (s : Sys) : Prop :=
  clerkCount ≤ s.kernel.currentPid → ∀ trip, s.cpu.trip = some (trip, .waiting) →
    s.kernel.stateOf s.kernel.currentPid = some .running

theorem Matched.owner_current (hinv : s.Matched) (huser : clerkCount ≤ s.kernel.currentPid)
    (hslot : s.kernel.ledger.slot c i = some r)
    (hlive : r.status ≠ .terminated) (hcall : r.callerPid = s.kernel.currentPid) :
    s.cpu.Owns c r.ticket := by
  obtain ⟨th, hth, howns⟩ := hinv.owner c i r hslot hlive (hcall ▸ huser)
  rw [hcall, threadOf_currentPid] at hth
  rwa [Option.some.inj hth]

theorem Matched.not_due (hinv : s.Matched) (hcoll : s.Collecting)
    (huser : clerkCount ≤ s.kernel.currentPid) (htrip : s.cpu.trip = some (trip, .waiting))
    (hcall : r.callerPid = s.kernel.currentPid) : ¬s.Due c i r := by
  intro hdue
  have hruns := hcoll huser trip htrip
  rcases hinv.waits c i r hdue (hcall ▸ huser) with h | h | ⟨-, trip', h⟩
  · rw [hcall, hruns] at h
    cases h
  · rw [hcall, hruns] at h
    cases h
  · rw [htrip] at h
    cases h

theorem Matched.collect_spec (hinv : s.Matched) (hval : s.Valid) (hcoll : s.Collecting)
    (huser : clerkCount ≤ s.kernel.currentPid)
    (htrip : s.cpu.trip = some (trip, .waiting))
    (hslot : s.kernel.ledger.slot c i = some r) (hlive : r.status ≠ .terminated)
    (hcall : r.callerPid = s.kernel.currentPid) :
    c = trip.call.clerk ∧ r.status.settled ∧
      collectSlot s.kernel.ledger s.kernel.currentPid c = some i := by
  have howns := hinv.owner_current huser hslot hlive hcall
  have hclerk : c = trip.call.clerk := by
    obtain ⟨trip', phase, htrip', -, rfl, -⟩ := howns
    obtain ⟨rfl, -⟩ := Prod.mk.inj (Option.some.inj (htrip.symm.trans htrip'))
    rfl
  have hdone : r.status.settled := by
    have hfin : ¬r.unfinished = true := fun hunfin =>
      hinv.not_due hcoll huser htrip hcall ⟨hslot, .inl hunfin⟩
    unfold Request.unfinished at hfin
    unfold Status.settled
    cases hstat : r.status <;> simp_all
  refine ⟨hclerk, hdone, ?_⟩
  cases hscan : collectSlot s.kernel.ledger s.kernel.currentPid c with
  | none =>
    have hfalse := firstSlot_eq_none.mp hscan i (hval.ledger.lt_of_slot hslot)
    simp [hslot, Request.collectable, hcall] at hfalse
    rcases hdone with h | h <;> simp [h] at hfalse
  | some j =>
    have hfound := (firstSlot_eq_some.mp hscan).2.1
    obtain ⟨r', hslot', hcollectable⟩ := (Option.any_eq_true _ _).mp hfound
    obtain ⟨hcall', hdone'⟩ := of_decide_eq_true hcollectable
    have howns' := hinv.owner_current huser hslot' (Status.settled.ne hdone').1 hcall'
    have htick := (howns.unique howns').2
    rw [(hval.ledger.unique _ _ _ _ _ _ hslot hslot' htick).2]

theorem Change.terminated_of_reaps {o : Outside} (h : Change s (.act o) switches s₁)
    (hval : s.Valid) (hok : s.wakesSafely (.act o) = true) {r₀ : Request}
    (hreaps : s.reaps = some r₀) {r' : Request}
    (hslot : s.kernel.ledger.slot c i = some r) (hlive : r.status ≠ .terminated)
    (hcall : r.callerPid = r₀.targetPid) (hslot' : s₁.kernel.ledger.slot c i = some r') :
    r'.status = .terminated := by
  obtain ⟨i₀, ticket, htrip, hwork, hcur, hslot₀, hunfin⟩ := hval.reaps hreaps
  have hother : s.kernel.ledger.hasOther r₀.targetPid r₀.ticket = false := by
    simpa [hreaps] using (wakesSafely_act.mp hok).2.2.2
  have htick : r.ticket = r₀.ticket := by
    by_contra hne
    have hany : s.kernel.ledger.hasOther r₀.targetPid r₀.ticket = true :=
      Ledger.anyRequest_of_slot hval.ledger hslot (by simp [hlive, hcall, hne])
    rw [hany] at hother
    cases hother
  obtain ⟨rfl, rfl⟩ := hval.ledger.unique _ _ _ _ _ _ hslot hslot₀ htick
  cases hslot.symm.trans hslot₀
  have hfin := h.finished hval htrip (waking_of_reaps hreaps) hwork hcur hslot'
  have hmove := h.requestMove hval hslot
  rw [hslot'] at hmove
  generalize hact : Event.act o = e at hmove
  generalize hafter : some r' = after at hmove
  cases hmove with
  | same =>
    cases hafter
    rw [hunfin] at hfin
    cases hfin
  | fetched =>
    cases hafter
    cases hfin
  | settled _ _ _ _ _ hdone =>
    cases hafter
    cases hdone with
    | answered _ hself => exact absurd hcall (hself rfl)
    | ended hterm => exact hterm
  | collected | givenUp =>
    cases hafter
    rfl
  | removed => cases hafter

end Sys

end Taavi
