import Taavi.Kernel.Releases

/-!
# Clients in the middle of a round trip

A task that has added its request blocks, yields and collects, and the threads of the others are
kept until the reaper destroys them. Also the notes of the model: tickets, work and delivered
results.
-/

namespace Taavi.Sys

open Lib

variable {s s₁ : Sys} {e : Event} {switches : Bool} {pid : ℕ}

variable {trip : RoundTrip} {phase : Phase}

theorem TripOrder.added {trip : RoundTrip} {phase next : Phase}
    (h : TripOrder (!trip.blockFirst) phase next) :
    trip.toAdd phase = true ∧ trip.toAdd next = false := by
  rcases h with ⟨hfst, rfl, rfl⟩ | ⟨hfst, rfl, rfl⟩
  · exact ⟨rfl, by simpa [RoundTrip.toAdd] using hfst⟩
  · exact ⟨by simpa [RoundTrip.toAdd] using hfst, rfl⟩

theorem Valid.outside_of_interruptible (hval : s.Valid)
    (huser : clerkCount ≤ s.kernel.currentPid) (h : s.interruptible = true) :
    s.cpu.trip = none := by
  unfold interruptible schedulerGetCurrentTask at h
  obtain ⟨t, htask, h⟩ := Option.any_eq_true _ _ |>.mp h
  simp only [decide_eq_true_eq] at h
  rcases h with hmode | hout
  · have hident : s.kernel.identity s.kernel.currentPid = some (t.serial, t.taskMode) := by
      simp [Kernel.identity, htask]
    have hclerk := (hval.modes _ _ _ hident).mp hmode
    omega
  · exact (of_decide_eq_true hout).1

theorem Change.of_added (h : Change s e switches s₁) (hval : s.Valid)
    (huser : clerkCount ≤ s.kernel.currentPid)
    (htrip : s.cpu.trip = some (trip, phase)) (hadded : trip.toAdd phase = false) :
    phase = .half ∧ s₁ = s.blockStep trip .ready ∨
      phase = .ready ∧ s₁ = { s with cpu := { s.cpu with trip := some (trip, .waiting) } } ∨
      phase = .waiting ∧ s₁ = s.collectStep trip := by
  have hidle : s.cpu.trip ≠ none := by simp [htrip]
  have hclerk : ∀ {c : Clerk}, s.kernel.currentPid ≠ c.pid := by
    intro c hcur
    have := c.pid_lt
    omega
  cases h with
  | block htrip' horder =>
    cases htrip.symm.trans htrip'
    rcases horder with ⟨-, rfl, -⟩ | ⟨-, rfl, rfl⟩
    · cases hadded
    · exact .inl ⟨rfl, rfl⟩
  | add htrip' horder =>
    cases htrip.symm.trans htrip'
    rw [horder.added.1] at hadded
    cases hadded
  | leave htrip' =>
    cases htrip.symm.trans htrip'
    exact .inr (.inl ⟨rfl, rfl⟩)
  | collect htrip' =>
    cases htrip.symm.trans htrip'
    exact .inr (.inr ⟨rfl, rfl⟩)
  | handle hnone | reap hnone | wake hnone => exact absurd hnone hidle
  | enter hat | setBlocked hat | setDead hat | yield hat | kill hat | keyboard hat | exec hat
  | changeFocus hat | fetch hat | sweep hat | unstart hat | sleep hat => exact absurd hat.trip hidle
  | syscall hcalls =>
    exact absurd (of_decide_eq_true (hval.user_of_callsFromUser hcalls).2).1 hidle
  | docCall hdoc => exact absurd (of_decide_eq_true hdoc).2.1 hidle
  | tick hon | key hon => exact absurd (hval.outside_of_interruptible huser hon) hidle
  | fault hcur => exact absurd hcur hclerk

theorem Change.trip_of_user (h : Change s e switches s₁) (hval : s.Valid)
    (huser : clerkCount ≤ s.kernel.currentPid)
    (htrip : s₁.cpu.trip = some (trip, phase)) :
    phase = .enter ∨
      (∃ before o, e = .act o ∧ s.cpu.trip = some (trip, before) ∧
        TripOrder trip.blockFirst before phase ∧ s₁ = s.blockStep trip phase) ∨
      (∃ before o, e = .act o ∧ s.cpu.trip = some (trip, before) ∧
        TripOrder (!trip.blockFirst) before phase ∧ s₁ = s.addStep trip phase o) ∨
      (phase = .waiting ∧ s.cpu.trip = some (trip, .ready) ∧
        s₁ = { s with cpu := { s.cpu with trip := some (trip, .waiting) } } ∧ switches = true) := by
  have hoff : s.interruptible = true → s₁.cpu = s.cpu → False := by
    intro hon hsame
    rw [hsame, hval.outside_of_interruptible huser hon] at htrip
    cases htrip
  rcases h.trip htrip hval with henter | ⟨hsame, ⟨dirty, rfl, -⟩ | ⟨scancode, rfl⟩⟩ |
    ⟨before, o, he, hpre, horder, hs₁, -⟩ | ⟨before, o, he, hpre, horder, hs₁, -⟩ | hleave
  · exact .inl henter
  · cases h with
    | tick hon => exact (hoff hon hsame).elim
  · cases h with
    | key hon => exact (hoff hon hsame).elim
  · exact .inr (.inl ⟨before, o, he, hpre, horder, hs₁⟩)
  · exact .inr (.inr (.inl ⟨before, o, he, hpre, horder, hs₁⟩))
  · exact .inr (.inr (.inr hleave))

theorem stateOf_addStep (hval : s.Valid) (huser : clerkCount ≤ s.kernel.currentPid)
    (trip : RoundTrip) (next : Phase) (o : Outside) :
    (s.addStep trip next o).kernel.stateOf s.kernel.currentPid =
        s.kernel.stateOf s.kernel.currentPid ∨
      (trip.call.run s.kernel s.kernel.currentPid o).2 = false ∧
        (s.addStep trip next o).kernel.stateOf s.kernel.currentPid = some .ready := by
  obtain ⟨res, hout, hker, hres⟩ := addStep_outcome hval trip next o
  obtain ⟨state, hstate⟩ := hval.currentState
  rw [hker, hres]
  cases hout with
  | accepted =>
    have hclerk : s.kernel.currentPid ≠ trip.call.clerk.pid := by
      have := trip.call.clerk.pid_lt
      omega
    exact .inl (stateOf_wakeClerk_of_ne hclerk)
  | woken =>
    refine .inr ⟨rfl, ?_⟩
    rw [stateOf_schedulerWakeTask, if_pos ⟨rfl, hval.current⟩, hstate]
    rfl
  | refused => exact .inl rfl

section

variable (h : Change s e switches s₁)

include h

theorem Change.thread_kept (hval : s.Valid)
    (hpid : pid ≠ s.kernel.currentPid) {th : Thread} (hth : s.threadOf pid = some th) :
    s₁.threadOf pid = some th ∨
      ∃ r o, e = .act o ∧ s.reaps = some r ∧ r.targetPid = pid ∧ s₁.kernel.identity pid = none := by
  have hlocal := h.isLocal hval
  have hkept : s₁.kernel.startedOf pid = s.kernel.startedOf pid → s₁.threadOf pid = some th := by
    intro hstart
    unfold threadOf at hth ⊢
    rw [hlocal.currentPid, hlocal.frame, if_neg hpid] at *
    unfold Kernel.startedOf at hstart
    rwa [hstart]
  cases h.taskMove hval with
  | kept hsame => exact .inl (hkept (hsame.startedOf pid not_false (.inl hpid)))
  | @destroyed r o _ hreaps hsame hnone =>
    by_cases htarget : pid = r.targetPid
    · exact .inr ⟨r, o, rfl, hreaps, htarget.symm, by rw [htarget, hnone]⟩
    · exact .inl (hkept (hsame.startedOf pid htarget (.inl hpid)))
  | @created slot o _ _ hnone hsame =>
    refine .inl (hkept (hsame.startedOf pid ?_ (.inl hpid)))
    rintro rfl
    unfold threadOf at hth
    rw [if_neg hpid, Option.map_eq_none_iff.mp hnone] at hth
    cases hth

theorem Change.startedOf_currentPid (hval : s.Valid)
    (huser : clerkCount ≤ s.kernel.currentPid) :
    s₁.kernel.startedOf s.kernel.currentPid = s.kernel.startedOf s.kernel.currentPid := by
  cases h.taskMove hval with
  | kept hsame => exact hsame.startedOf _ not_false (.inr huser)
  | destroyed hreaps =>
    obtain ⟨-, -, -, -, hcur, -⟩ := hval.reaps hreaps
    have := Clerk.reaper.pid_lt
    omega
  | created _ hnone hsame =>
    refine hsame.startedOf _ ?_ (.inr huser)
    intro heq
    have hpres := hval.present
    rw [heq, Option.map_eq_none_iff.mp hnone] at hpres
    cases hpres

theorem Change.produced (ticket : ℕ) :
    s₁.produced ticket = s.produced ticket ∨
      s.cpu.trip = none ∧ ∃ i, s.cpu.handling = some (i, ticket) := by
  cases h with
  | @handle c i ticket' _ htrip hwork =>
    by_cases htick : ticket = ticket'
    · exact .inr ⟨htrip, i, by rw [htick, hwork]⟩
    · exact .inl (assign_of_ne _ _ htick)
  | @reap i ticket' _ _ htrip hwork =>
    by_cases htick : ticket = ticket'
    · exact .inr ⟨htrip, i, by rw [htick, hwork]⟩
    · exact .inl (assign_of_ne _ _ htick)
  | block | add | leave | collect | wake | enter | setBlocked | setDead | yield | kill | keyboard
  | exec | changeFocus | fetch | sweep | unstart | sleep | syscall | docCall | tick | key | fault =>
    exact .inl rfl

theorem Change.nextTicket_le (hval : s.Valid) :
    s.kernel.ledger.nextTicket ≤ s₁.kernel.ledger.nextTicket := by
  have hmove := h.ledgerMove hval
  generalize s₁.kernel.ledger = l at hmove
  cases hmove with
  | kept _ htick => exact htick.ge
  | put => exact Nat.le_succ _
  | modify _ htick => exact htick.ge
  | swept => exact le_rfl

theorem Change.finishedTicket (hval : s.Valid) {ticket : ℕ}
    (hfin : s.kernel.ledger.Finished ticket) : s₁.kernel.ledger.Finished ticket := by
  refine ⟨hfin.1.trans_le (h.nextTicket_le hval), fun c i r' hslot' htick => ?_⟩
  rcases h.origin hval hslot' with ⟨r, hslot, hsame, -, hlive⟩ | ⟨-, hadded⟩
  · by_contra hne
    exact hlive hne (hfin.2 c i r hslot (hsame.1.symm.trans htick))
  · cases hadded
    exact absurd htick hfin.1.ne'

theorem Change.delivered :
    s₁.delivered = s.delivered ∨ ∃ trip, s.cpu.trip = some (trip, .waiting) ∧
      s₁ = s.collectStep trip := by
  cases h with
  | collect htrip => exact .inr ⟨_, htrip, rfl⟩
  | block | add | leave | handle | reap | wake | enter | setBlocked | setDead | yield | kill
  | keyboard | exec | changeFocus | fetch | sweep | unstart | sleep | syscall | docCall | tick | key
  | fault => exact .inl rfl

end

theorem collectStep_cases (s : Sys) (trip : RoundTrip) :
    (s.collectStep trip).kernel.ledger = s.kernel.ledger ∧
        (s.collectStep trip).delivered = s.delivered ∧
        collectSlot s.kernel.ledger s.kernel.currentPid trip.call.clerk = none ∨
      ∃ i r, collectSlot s.kernel.ledger s.kernel.currentPid trip.call.clerk = some i ∧
        s.kernel.ledger.slot trip.call.clerk i = some r ∧
        r.callerPid = s.kernel.currentPid ∧ r.status.settled ∧
        (s.collectStep trip).kernel.ledger =
          s.kernel.ledger.setStatus trip.call.clerk i .terminated ∧
        (s.collectStep trip).delivered = r.ticket :: s.delivered := by
  rcases ledgerCollect_cases s.kernel.ledger s.kernel.currentPid trip.call.clerk trip.out with
    ⟨heq, hscan⟩ | ⟨i, r, hscan, hslot, hcall, hdone, heq⟩
  · exact .inl ⟨by simp [collectStep, heq], by simp [collectStep, hscan], hscan⟩
  · exact .inr ⟨i, r, hscan, hslot, hcall, hdone, by simp [collectStep, heq],
      by simp [collectStep, hscan, hslot]⟩

end Taavi.Sys
