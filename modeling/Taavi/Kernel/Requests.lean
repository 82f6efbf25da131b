import Taavi.Kernel.States

/-!
# How requests and round trips change

For every change: what becomes of a request, how a slot is filled, and which part of its round trip
the current task has taken.
-/

namespace Taavi.Sys

open Lib

variable {s s₁ : Sys} {e : Event} {switches : Bool}

variable {i ticket : ℕ} {c : Clerk} {r r' : Request}

/-- The slot and the ticket of the request whose caller a clerk has still to wake. -/
def waking (s : Sys) (c : Clerk) : Option (ℕ × ℕ) := (s.threadOf c.pid).bind Thread.waking

theorem waking_current (hcur : s.kernel.currentPid = c.pid) : s.waking c = s.cpu.waking := by
  rw [waking, ← hcur, threadOf_currentPid]
  rfl

/-- A request is not finished, or its caller has still to be woken. -/
def Due (s : Sys) (c : Clerk) (i : ℕ) (r : Request) : Prop :=
  s.kernel.ledger.slot c i = some r ∧ (r.unfinished = true ∨ s.waking c = some (i, r.ticket))

/-- What a clerk has made of a request. A task that asks the reaper for itself gets no answer. -/
inductive Settled (s₁ : Sys) (c : Clerk) (r r' : Request) : Prop
  | answered : r'.status.settled → (c = .reaper → r.callerPid ≠ r.targetPid) →
      s₁.produced r.ticket = some r' → Settled s₁ c r r'
  | ended {r'' : Request} : r'.status = .terminated → c = .reaper → r.callerPid = r.targetPid →
      s₁.produced r.ticket = some r'' →
      r''.status = .failed ∨ s₁.kernel.identity r.targetPid = none → Settled s₁ c r r'

inductive RequestMove (s s₁ : Sys) (c : Clerk) (i : ℕ) (r : Request) :
    Event → Option Request → Prop
  | same {e : Event} : RequestMove s s₁ c i r e (some r)
  | fetched {e : Event} : r.status = .pending → s.kernel.currentPid = c.pid →
      RequestMove s s₁ c i r e (some { r with status := .inProgress })
  | settled {ticket : ℕ} {r' : Request} {o : Outside} : s.cpu.handling = some (i, ticket) →
      s.kernel.currentPid = c.pid → r.status = .inProgress → r.ticket = ticket → r.Same r' →
      Settled s₁ c r r' → (c ≠ .reaper → s₁.cpu.waking = some (i, ticket)) →
      RequestMove s s₁ c i r (.act o) (some r')
  | collected {trip : RoundTrip} {o : Outside} : s.cpu.trip = some (trip, .waiting) →
      c = trip.call.clerk → r.status.settled → r.callerPid = s.kernel.currentPid →
      RequestMove s s₁ c i r (.act o) (some { r with status := .terminated })
  | givenUp {dirty : Bool} : s.kernel.currentPid = c.pid → s.kernel.ledger.last c = some i →
      s₁.kernel.stateOf r.callerPid ≠ some .blocked →
      RequestMove s s₁ c i r (.fault dirty) (some { r with status := .terminated })
  | removed {e : Event} : r.status = .terminated → RequestMove s s₁ c i r e none

theorem recover_wakes (hlast : s.kernel.ledger.last c = some i)
    (hslot : s.kernel.ledger.slot c i = some r) (hcall : r.callerPid < maxTasks) :
    (s.recover c).kernel.stateOf r.callerPid ≠ some .blocked := by
  rcases ledgerCheckRequest_cases (s.kernel.setState c.pid .sleeping) c with ⟨-, hnone⟩ |
    ⟨j, r', hlast', hslot', heq⟩
  · have hempty : s.kernel.ledger.slot c i = none := hnone i hlast
    simp [hslot] at hempty
  · have hlast' : s.kernel.ledger.last c = some j := hlast'
    cases hlast.symm.trans hlast'
    have hslot' : s.kernel.ledger.slot c i = some r' := hslot'
    cases hslot.symm.trans hslot'
    simp only [recover, blankieActivate, heq]
    rw [Kernel.stateOf_modifyTask]
    split
    · cases Kernel.taskTable _ c.pid <;> simp
    · rw [stateOf_schedulerWakeTask, if_pos ⟨rfl, hcall⟩]
      cases Kernel.stateOf _ r.callerPid <;> simp

theorem slot_handleStep {o : Outside} (ticket : ℕ) (hslot : s.kernel.ledger.slot c i = some r) :
    (s.handleStep c i ticket o).kernel.ledger.slot c i = some (r.settle (c.reply r o.reply)) := by
  simp only [handleStep]
  rw [(sameTasks_handleRequest o.reply hslot).ledger, Ledger.slot_modify, if_pos ⟨rfl, rfl⟩, hslot]
  rfl

theorem slot_reapStep {o : Outside} (hslot : s.kernel.ledger.slot .reaper i = some r) :
    (s.reapStep i ticket r o).kernel.ledger.slot .reaper i = some { r with
      status := reapedStatus r (reaperKillTask s.kernel r.targetPid o.freed).2 } := by
  simp only [reapStep]
  rw [reapRequest_spec, Ledger.slot_setStatus, if_pos ⟨rfl, rfl⟩, hslot]
  rfl

theorem settled_settle (r : Request) (reply : Reply) : (r.settle reply).status.settled := by
  simp only [Request.settle, Reply.status, Status.settled]
  split <;> simp

theorem settled_reapStep {o : Outside} (htick : r.ticket = ticket) :
    Settled (s.reapStep i ticket r o) .reaper r
      { r with status := reapedStatus r (reaperKillTask s.kernel r.targetPid o.freed).2 } := by
  have hident : (s.reapStep i ticket r o).kernel.identity r.targetPid =
      (reaperKillTask s.kernel r.targetPid o.freed).1.identity r.targetPid :=
    congrArg (fun k => k.identity r.targetPid) (reapRequest_spec s.kernel i r o.freed)
  have hprod : (s.reapStep i ticket r o).produced r.ticket = some { r with
      status := if (reaperKillTask s.kernel r.targetPid o.freed).2 then .complete else .failed } := by
    simp only [reapStep, htick, assign_same]
  by_cases hself : r.callerPid = r.targetPid
  · refine .ended (by simp [reapedStatus, hself]) rfl hself hprod ?_
    rw [hident]
    rcases reaperKillTask_cases s.kernel r.targetPid o.freed with hkill | ⟨-, hkill⟩
    · exact .inl (by simp [hkill])
    · exact .inr (by simp [hkill, Kernel.identity])
  · refine .answered ?_ (fun _ => hself) ?_
    · simp only [reapedStatus, Status.settled, if_neg hself]
      split <;> simp
    · rw [hprod]
      simp [reapedStatus, hself]

inductive Added (s : Sys) : Event → Sys → Clerk → ℕ → Request → Prop
  | intro {trip : RoundTrip} {phase next : Phase} {o : Outside} {i : ℕ} {r : Request} :
      s.cpu.trip = some (trip, phase) → TripOrder (!trip.blockFirst) phase next →
      trip.call.Adds s.kernel.currentPid r →
      (trip.call.run s.kernel s.kernel.currentPid o).2 = true →
      Added s (.act o) (s.addStep trip next o) trip.call.clerk i
        { r with ticket := s.kernel.ledger.nextTicket }

/-- The requests stay, or one is put into a free slot, or one changes, or terminated ones are freed. -/
inductive LedgerMove (s s₁ : Sys) (e : Event) : Ledger → Prop
  | kept {l : Ledger} : (∀ c i, l.slot c i = s.kernel.ledger.slot c i) →
      l.nextTicket = s.kernel.ledger.nextTicket → LedgerMove s s₁ e l
  | put {c : Clerk} {i : ℕ} {r : Request} : s.kernel.ledger.slot c i = none →
      Added s e s₁ c i { r with ticket := s.kernel.ledger.nextTicket } →
      LedgerMove s s₁ e (s.kernel.ledger.put c i r)
  | modify {l : Ledger} {c : Clerk} {i : ℕ} {f : Request → Request} :
      (∀ d j, l.slot d j = s.kernel.ledger.slot d j) →
      l.nextTicket = s.kernel.ledger.nextTicket →
      (∀ r, s.kernel.ledger.slot c i = some r → RequestMove s s₁ c i r e (some (f r))) →
      LedgerMove s s₁ e (l.modify c i f)
  | swept : LedgerMove s s₁ e (ledgerRemoveRequest s.kernel.ledger)

section

variable (h : Change s e switches s₁) (hval : s.Valid)

include h hval

theorem Change.ledgerMove : LedgerMove s s₁ e s₁.kernel.ledger := by
  have hquiet : ∀ {l : Ledger}, l = s.kernel.ledger → LedgerMove s s₁ e l := by
    rintro l rfl
    exact .kept (fun _ _ => rfl) rfl
  cases h with
  | block => exact hquiet sameTasks_block.ledger
  | @add trip phase next o htrip horder =>
    obtain ⟨res, hout, hker, hres⟩ := addStep_outcome hval trip next o
    rw [hker]
    cases hout with
    | accepted _ hempty hadds =>
      rw [sameTasks_wakeClerk.ledger]
      exact .put hempty (.intro htrip horder hadds (by rw [hres]))
    | woken => exact hquiet sameTasks_schedulerWakeTask.ledger
    | refused => exact hquiet rfl
  | leave | enter | yield | kill | keyboard | unstart | sleep | syscall | docCall | tick =>
    exact hquiet rfl
  | @collect trip o htrip =>
    rcases ledgerCollect_cases s.kernel.ledger s.kernel.currentPid trip.call.clerk trip.out with
      ⟨heq, -⟩ | ⟨j, r', -, hslot', hcall, hdone, heq⟩
    · exact hquiet (by simp [collectStep, heq])
    · simp only [collectStep, heq]
      refine .modify (fun _ _ => rfl) rfl fun r hslot => ?_
      cases hslot'.symm.trans hslot
      exact .collected htrip rfl hdone hcall
  | @handle d j ticket o htrip hwork hcur hother =>
    obtain ⟨⟨r', hslot', htick, hstat⟩, -⟩ := hval.holds_current hwork hcur
    have hled : (s.handleStep d j ticket o).kernel.ledger = _ :=
      (sameTasks_handleRequest o.reply hslot').ledger
    rw [hled]
    refine .modify (fun _ _ => rfl) rfl fun r hslot => ?_
    cases hslot'.symm.trans hslot
    refine .settled hwork hcur hstat htick ⟨rfl, rfl, rfl, rfl, rfl⟩
      (.answered (settled_settle ..) (fun hreaper => absurd hreaper hother) ?_) fun _ => rfl
    rw [htick]
    exact (assign_same ..).trans (slot_handleStep ticket hslot')
  | @reap j ticket r' o htrip hwork hcur hslot' =>
    obtain ⟨⟨r'', hslot'', htick, hstat⟩, -⟩ := hval.holds_current hwork hcur
    obtain rfl := Option.some.inj (hslot''.symm.trans hslot')
    have hled : (s.reapStep j ticket r'' o).kernel.ledger = _ :=
      congrArg Kernel.ledger (reapRequest_spec s.kernel j r'' o.freed)
    rw [hled]
    refine .modify (fun _ _ => rfl) rfl fun r hslot => ?_
    cases hslot'.symm.trans hslot
    refine .settled hwork hcur hstat htick ⟨rfl, rfl, rfl, rfl, rfl⟩ ?_
      fun hreaper => absurd rfl hreaper
    exact settled_reapStep htick
  | wake => exact hquiet sameTasks_schedulerWakeTask.ledger
  | setBlocked | setDead => exact hquiet sameTasks_schedulerSetTaskState.ledger
  | exec hat hk =>
    rcases hk with rfl | hcreate
    · exact hquiet rfl
    · obtain ⟨slot, -, -, rfl⟩ := createUserTask_spec hcreate
      exact hquiet rfl
  | changeFocus => exact hquiet (sameTasks_changeKeyboardFocus ..).ledger
  | @fetch d rest o hat =>
    have hcur : s.kernel.currentPid = d.pid := hval.stmt hat
    rcases ledgerFetchNextReq_cases hval.ledger d with ⟨heq, -⟩ | ⟨j, r', heq, -, -⟩ |
      ⟨j, r', heq, hslot', hstat, -⟩
    · exact hquiet (by simp [fetchStep, heq])
    · simp only [fetchStep, heq]
      exact .kept (fun _ _ => Ledger.slot_setLast ..) rfl
    · simp only [fetchStep, heq]
      refine .modify (fun _ _ => Ledger.slot_setLast ..) rfl fun r hslot => ?_
      cases hslot'.symm.trans hslot
      exact .fetched hstat hcur
  | sweep hat hl =>
    rcases hl with rfl | rfl
    · exact hquiet rfl
    · exact .swept
  | key => exact hquiet (sameTasks_key ..).ledger
  | @fault d dirty hcur _ =>
    obtain ⟨l, hsame, hl⟩ := recover_spec s d
    have hled : (s.recover d).kernel.ledger = l := hsame.ledger
    rcases hl with rfl | ⟨j, r', hlast, hslot', rfl⟩
    · exact hquiet hled
    · rw [hled]
      refine .modify (fun _ _ => rfl) rfl fun r hslot => ?_
      cases hslot'.symm.trans hslot
      exact .givenUp hcur hlast (recover_wakes hlast hslot (hval.sane d j r' hslot).1)

theorem Change.requestMove
    (hslot : s.kernel.ledger.slot c i = some r) :
    RequestMove s s₁ c i r e (s₁.kernel.ledger.slot c i) := by
  have hmove := h.ledgerMove hval
  generalize s₁.kernel.ledger = l at hmove
  cases hmove with
  | kept hslots =>
    rw [hslots, hslot]
    exact .same
  | put hempty =>
    rw [Ledger.slot_put, if_neg, hslot]
    · exact .same
    · rintro ⟨rfl, rfl⟩
      simp [hempty] at hslot
  | modify hslots _ hhere =>
    rw [Ledger.slot_modify, hslots, hslots, hslot]
    split
    · rename_i heq
      obtain ⟨rfl, rfl⟩ := heq
      rw [hslot]
      exact hhere r hslot
    · exact .same
  | swept =>
    rw [slot_ledgerRemoveRequest]
    split
    · rename_i hgone
      obtain ⟨r', hslot', hstat⟩ := (s.kernel.ledger.hasStatus_iff c i).mp hgone.2
      cases hslot'.symm.trans hslot
      exact .removed hstat
    · rw [hslot]
      exact .same

theorem Change.slot_none
    (hslot : s.kernel.ledger.slot c i = none) :
    s₁.kernel.ledger.slot c i = none ∨
      ∃ r, s₁.kernel.ledger.slot c i = some r ∧ Added s e s₁ c i r := by
  have hmove := h.ledgerMove hval
  generalize s₁.kernel.ledger = l at hmove
  cases hmove with
  | kept hslots => exact .inl ((hslots c i).trans hslot)
  | put hempty hadded =>
    rw [Ledger.slot_put]
    split
    · rename_i heq
      obtain ⟨rfl, rfl⟩ := heq
      exact .inr ⟨_, rfl, hadded⟩
    · exact .inl hslot
  | modify hslots => exact .inl (slot_modify_none ((hslots c i).trans hslot))
  | swept =>
    rw [slot_ledgerRemoveRequest, hslot]
    split <;> exact .inl rfl

theorem Change.origin
    (hslot' : s₁.kernel.ledger.slot c i = some r') :
    (∃ r, s.kernel.ledger.slot c i = some r ∧ r.Same r' ∧
      (r'.unfinished = true → r.unfinished = true) ∧
      (r'.status ≠ .terminated → r.status ≠ .terminated)) ∨
      s.kernel.ledger.slot c i = none ∧ Added s e s₁ c i r' := by
  cases hslot : s.kernel.ledger.slot c i with
  | none =>
    rcases h.slot_none hval hslot with hnone | ⟨r, hr, hadded⟩
    · rw [hnone] at hslot'
      cases hslot'
    · cases hr.symm.trans hslot'
      exact .inr ⟨rfl, hadded⟩
  | some r =>
    refine .inl ⟨r, rfl, ?_⟩
    have hmove := h.requestMove hval hslot
    rw [hslot'] at hmove
    generalize hafter : some r' = after at hmove
    cases hmove with
    | same =>
      cases hafter
      exact ⟨⟨rfl, rfl, rfl, rfl, rfl⟩, id, id⟩
    | fetched hpend =>
      cases hafter
      exact ⟨⟨rfl, rfl, rfl, rfl, rfl⟩, fun _ => by simp [Request.unfinished, hpend],
        fun _ => by simp [hpend]⟩
    | settled _ _ hprog _ hsame =>
      cases hafter
      exact ⟨hsame, fun _ => by simp [Request.unfinished, hprog], fun _ => by simp [hprog]⟩
    | collected | givenUp =>
      cases hafter
      exact ⟨⟨rfl, rfl, rfl, rfl, rfl⟩, fun h => by simp [Request.unfinished] at h,
        fun h => absurd rfl h⟩
    | removed => cases hafter

theorem Change.unfinished
    (hslot' : s₁.kernel.ledger.slot c i = some r') (hunfin : r'.unfinished) :
    (∃ r, s.kernel.ledger.slot c i = some r ∧ r.unfinished ∧ r.Same r') ∨
      s.kernel.ledger.slot c i = none ∧ Added s e s₁ c i r' :=
  (h.origin hval hslot').imp_left fun ⟨r, hslot, hsame, hpre, _⟩ =>
    ⟨r, hslot, hpre hunfin, hsame⟩

/-- A wake is due because it was before, or because the clerk has just settled the request. -/
theorem Change.waking (hafter : s₁.waking c = some (i, ticket)) :
    s.waking c = some (i, ticket) ∨
      ∃ r r', s.kernel.ledger.slot c i = some r ∧ r.ticket = ticket ∧ r.status = .inProgress ∧
        s₁.kernel.ledger.slot c i = some r' ∧ r'.status.settled := by
  obtain ⟨th, hth, hwake⟩ := Option.bind_eq_some_iff.mp hafter
  rcases (h.isLocal hval).threads hth with ⟨hpid, rfl⟩ | ⟨-, hold⟩
  · have hsame : s.waking c = s.cpu.waking := waking_current hpid.symm
    cases h with
    | block | add | leave | collect | enter | setBlocked | setDead | yield | kill | keyboard | exec
    | changeFocus | fetch | sweep | unstart | sleep | syscall | docCall | tick | key =>
      exact .inl (hsame.trans hwake)
    | @handle d j ticket' o htrip hwork hcur =>
      obtain rfl := Clerk.pid_injective (hpid.trans hcur)
      cases hwake
      obtain ⟨⟨r, hslot, htick, hstat⟩, -⟩ := hval.holds_current hwork hcur
      exact .inr ⟨r, _, hslot, htick, hstat, slot_handleStep _ hslot, settled_settle ..⟩
    | @reap j ticket' r o htrip hwork hcur hslot =>
      obtain rfl := Clerk.pid_injective (hpid.trans hcur)
      obtain ⟨⟨r', hslot', htick, hstat⟩, -⟩ := hval.holds_current hwork hcur
      cases hslot'.symm.trans hslot
      simp only [reapStep] at hwake
      split at hwake
      · cases hwake
      · rename_i hself
        cases hwake
        refine .inr ⟨r, _, hslot, htick, hstat, slot_reapStep hslot, ?_⟩
        simp only [reapedStatus, Status.settled, if_neg hself]
        split <;> simp
    | wake | fault => cases hwake
  · exact .inl (by rw [Sys.waking, hold]; exact hwake)

/-- Only a new request becomes due. -/
theorem Change.due (hdue : s₁.Due c i r') :
    (∃ r, s.Due c i r ∧ r.Same r') ∨ s.kernel.ledger.slot c i = none ∧ Added s e s₁ c i r' := by
  obtain ⟨hslot', hdue⟩ := hdue
  refine (h.origin hval hslot').imp_left ?_
  rintro ⟨r, hslot, hsame, hpre, -⟩
  refine ⟨r, ⟨hslot, ?_⟩, hsame⟩
  rcases hdue with hunfin | hwake
  · exact .inl (hpre hunfin)
  · rcases h.waking hval hwake with hold | ⟨r₀, -, hslot₀, -, hprog, -⟩
    · exact .inr (hsame.1 ▸ hold)
    · cases hslot₀.symm.trans hslot
      exact .inl (by simp [Request.unfinished, hprog])

end

theorem Switched.waking {s' : Sys} (h : Switched s s') (hwake : s'.waking c = some (i, ticket)) :
    s.waking c = some (i, ticket) := by
  obtain ⟨th, hth, hwake⟩ := Option.bind_eq_some_iff.mp hwake
  rcases h.threads c.pid th hth with ⟨hold, -⟩ | ⟨rfl, -⟩
  · rw [Sys.waking, hold]
    exact hwake
  · cases hwake

theorem Switched.due {s' : Sys} (h : Switched s s') (hdue : s'.Due c i r) : s.Due c i r :=
  ⟨by rw [← h.picked.ledger]; exact hdue.1, hdue.2.imp_right h.waking⟩

theorem Change.finished {o : Outside} (h : Change s (.act o) switches s₁) (hval : s.Valid)
    (htrip : s.cpu.trip = none) (hwake : s.cpu.waking = none)
    (hwork : s.cpu.handling = some (i, ticket)) (hcur : s.kernel.currentPid = c.pid)
    (hslot' : s₁.kernel.ledger.slot c i = some r') : r'.unfinished = false := by
  have hbusy : ∀ {trip : RoundTrip} {phase : Phase}, s.cpu.trip ≠ some (trip, phase) := by
    simp [htrip]
  have hnot : ∀ {stmt rest}, ¬s.AtStmt stmt rest := by
    intro stmt rest hat
    rw [hat.handling] at hwork
    cases hwork
  cases h with
  | block htrip' | add htrip' | leave htrip' | collect htrip' => exact absurd htrip' hbusy
  | @handle d j ticket' _ _ hwork' hcur' =>
    obtain rfl := Clerk.pid_injective (hcur.symm.trans hcur')
    cases hwork.symm.trans hwork'
    obtain ⟨⟨r, hslot, -⟩, -⟩ := hval.holds_current hwork hcur
    rw [slot_handleStep _ hslot] at hslot'
    cases hslot'
    simp only [Request.unfinished, Request.settle, Reply.status]
    split <;> rfl
  | @reap j ticket' r _ _ hwork' hcur' hslot =>
    obtain rfl := Clerk.pid_injective (hcur.symm.trans hcur')
    cases hwork.symm.trans hwork'
    rw [slot_reapStep hslot] at hslot'
    cases hslot'
    simp only [Request.unfinished, reapedStatus]
    split_ifs <;> rfl
  | wake _ hwake' => cases hwake.symm.trans hwake'
  | enter hat | setBlocked hat | setDead hat | yield hat | kill hat | keyboard hat | exec hat
  | changeFocus hat | fetch hat | sweep hat | unstart hat | sleep hat => exact absurd hat hnot

/-- A clerk that has a caller to wake wakes it next. -/
theorem Change.wakes {o : Outside} (h : Change s (.act o) switches s₁) (htrip : s.cpu.trip = none)
    (hwake : s.cpu.waking = some (i, ticket)) :
    ∃ c : Clerk, s.kernel.currentPid = c.pid ∧ s₁ = s.wakeStep c i ticket o := by
  have hbusy : s.cpu.waking ≠ none := by simp [hwake]
  cases h with
  | block htrip' | add htrip' | leave htrip' | collect htrip' => cases htrip.symm.trans htrip'
  | handle _ _ _ _ hnone | reap _ _ _ _ hnone => exact absurd hnone hbusy
  | wake _ hwake' hcur =>
    cases hwake.symm.trans hwake'
    exact ⟨_, hcur, rfl⟩
  | enter hat | setBlocked hat | setDead hat | yield hat | kill hat | keyboard hat | exec hat
  | changeFocus hat | fetch hat | sweep hat | unstart hat | sleep hat =>
    exact absurd hat.waking hbusy

theorem Change.trip (h : Change s e switches s₁) {trip : RoundTrip} {phase : Phase}
    (htrip : s₁.cpu.trip = some (trip, phase)) (hval : s.Valid) :
    phase = .enter ∨
      (s₁.cpu = s.cpu ∧ ((∃ dirty, e = .tick dirty ∧ s₁ = s) ∨ ∃ scancode, e = .key scancode)) ∨
      (∃ before o, e = .act o ∧ s.cpu.trip = some (trip, before) ∧
        TripOrder trip.blockFirst before phase ∧ s₁ = s.blockStep trip phase ∧
        switches = false) ∨
      (∃ before o, e = .act o ∧ s.cpu.trip = some (trip, before) ∧
        TripOrder (!trip.blockFirst) before phase ∧ s₁ = s.addStep trip phase o ∧
        switches = false) ∨
      (phase = .waiting ∧ s.cpu.trip = some (trip, .ready) ∧
        s₁ = { s with cpu := { s.cpu with trip := some (trip, .waiting) } } ∧ switches = true) := by
  have hnone : s.cpu.trip = none → s₁.cpu.trip = s.cpu.trip → False := by
    intro hidle hsame
    rw [hsame, hidle] at htrip
    cases htrip
  cases h with
  | @block trip' before next o hpre horder =>
    cases htrip
    exact .inr (.inr (.inl ⟨before, o, rfl, hpre, horder, rfl, rfl⟩))
  | @add trip' before next o hpre horder =>
    simp only [addStep] at htrip
    split at htrip
    · cases htrip
    · cases htrip
      exact .inr (.inr (.inr (.inl ⟨before, o, rfl, hpre, horder, rfl, rfl⟩)))
  | leave hpre =>
    cases htrip
    exact .inr (.inr (.inr (.inr ⟨rfl, hpre, rfl, rfl⟩)))
  | collect | fault => cases htrip
  | handle hidle | reap hidle | wake hidle => exact absurd (hnone hidle rfl) not_false
  | enter | docCall =>
    cases htrip
    exact .inl rfl
  | setBlocked hat | setDead hat | yield hat | kill hat | keyboard hat | exec hat
  | changeFocus hat | fetch hat | sweep hat | unstart hat | sleep hat =>
    exact absurd (hnone hat.trip rfl) not_false
  | syscall huser =>
    have hout := (hval.user_of_callsFromUser huser).2
    exact absurd (hnone (of_decide_eq_true hout).1 rfl) not_false
  | @tick dirty => exact .inr (.inl ⟨rfl, .inl ⟨dirty, rfl, rfl⟩⟩)
  | @key scancode => exact .inr (.inl ⟨rfl, .inr ⟨scancode, rfl⟩⟩)

end Taavi.Sys
