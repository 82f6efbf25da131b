import Taavi.Kernel.Matching

/-!
# Requests stay with their owners

Every change keeps requests and the tasks that wait for them together, where the condition on wakes
is met.
-/

namespace Taavi.Sys

open Lib

variable {s s₁ : Sys} {e : Event} {switches : Bool} {pid : ℕ}

theorem Matched.unique (hinv : s.Matched) (hval : s.Valid) {c d : Clerk} {i j : ℕ}
    {r r' : Request} (hslot : s.kernel.ledger.slot c i = some r) (hlive : r.status ≠ .terminated)
    (hslot' : s.kernel.ledger.slot d j = some r') (hlive' : r'.status ≠ .terminated)
    (hcall : r.callerPid = r'.callerPid) (huser : clerkCount ≤ r.callerPid) : c = d ∧ i = j := by
  obtain ⟨th, hth, howns⟩ := hinv.owner c i r hslot hlive huser
  obtain ⟨th', hth', howns'⟩ := hinv.owner d j r' hslot' hlive' (hcall ▸ huser)
  rw [hcall] at hth
  cases hth.symm.trans hth'
  exact hval.ledger.unique _ _ _ _ _ _ hslot hslot' (howns.unique howns').2

theorem Matched.live (hinv : s.Matched) {c : Clerk} {i : ℕ} {r : Request} (hdue : s.Due c i r)
    (huser : clerkCount ≤ r.callerPid) : r.status ≠ .terminated := by
  rcases hdue.2 with hunfin | hwake
  · exact r.live_of_unfinished hunfin
  · exact ((hinv.late c i _ hwake).2 r hdue.1 rfl huser).ne.1

/-- A user task whose request is due is woken by the clerk of that request, and in time. -/
theorem Matched.settled_of_woken (hinv : s.Matched) (hval : s.Valid)
    (hok : s.wakesSafely e = true) {c : Clerk} {i : ℕ} {r : Request} (hdue : s.Due c i r)
    (huser : clerkCount ≤ r.callerPid) (hwoken : Woken s e pid) (hcall : r.callerPid = pid) :
    r.status.settled ∧ s.kernel.currentPid = c.pid ∧ s.cpu.trip = none ∧
      s.cpu.waking = some (i, r.ticket) ∧ ∃ o, e = .act o := by
  have howed : s.owes pid ≠ false := fun howes => hdue.callerPid_ne hval howes hcall
  cases hwoken with
  | clerk hclerk => omega
  | @settled d j r₀ o htrip hcur hwake hslot₀ =>
    have hlate : s.waking d = some (j, r₀.ticket) := (waking_current hcur).trans hwake
    have hdone := (hinv.late d j _ hlate).2 r₀ hslot₀ rfl (hcall ▸ huser)
    obtain ⟨rfl, rfl⟩ := hinv.unique hval hdue.1 (hinv.live hdue huser) hslot₀ hdone.ne.1
      hcall huser
    cases hdue.1.symm.trans hslot₀
    exact ⟨hdone, hcur, htrip, hwake, o, rfl⟩
  | stale hgone =>
    rw [(wakesSafely_act.mp hok).2.1] at hgone
    cases hgone
  | @focus rest o _ hat =>
    have hall := (wakesSafely_act.mp hok).1
    rw [hat.nextStmt, Option.all_some] at hall
    exact absurd (by simpa [stmtWakesSafely] using hall) howed
  | key hkey =>
    exact absurd (by simpa [wakesSafely, foregroundPid_of_keyboardHandler hkey] using hok) howed
  | recovered => cases hok

section

variable (hinv : s.Matched) (hcoll : s.Collecting) (hval : s.Valid)
  (hok : s.wakesSafely e = true) (h : Change s e switches s₁) {c : Clerk} {i : ℕ} {r' : Request}
  (hslot' : s₁.kernel.ledger.slot c i = some r')
include hinv hcoll hval hok h hslot'

theorem Matched.late_change (hwake : s₁.waking c = some (i, r'.ticket))
    (huser : clerkCount ≤ r'.callerPid) : r'.status.settled := by
  rcases h.waking hval hwake with hold | ⟨-, r₀, -, -, -, hslot₀, hdone⟩
  · obtain ⟨hknown, hlate⟩ := hinv.late c i _ hold
    rcases h.origin hval hslot' with ⟨r, hslot, hsame, -⟩ | ⟨-, hadded⟩
    · rw [hsame.2.1] at huser
      have hdone := hlate r hslot hsame.1.symm huser
      have hmove := h.requestMove hval hslot
      rw [hslot'] at hmove
      generalize hafter : some r' = after at hmove
      cases hmove with
      | same =>
        cases hafter
        exact hdone
      | fetched hpend => exact absurd hpend hdone.ne.2.2
      | settled _ _ hprog => exact absurd hprog hdone.ne.2.1
      | collected htrip _ _ hcall =>
        rw [hcall] at huser
        exact absurd ⟨hslot, .inr (hsame.1 ▸ hold)⟩
          (hinv.not_due hcoll huser htrip hcall)
      | givenUp => cases hok
      | removed => cases hafter
    · cases hadded
      exact absurd hknown (lt_irrefl _)
  · cases hslot₀.symm.trans hslot'
    exact hdone

theorem Matched.waits_change (hdue' : r'.unfinished = true ∨ s₁.waking c = some (i, r'.ticket))
    (huser : clerkCount ≤ r'.callerPid) :
    s₁.kernel.stateOf r'.callerPid = some .blocked ∨ s₁.kernel.stateOf r'.callerPid = some .dead ∨
      r'.callerPid = s.kernel.currentPid ∧ ∃ trip, s₁.cpu.trip = some (trip, .half) := by
  have hlive' : r'.status ≠ .terminated := by
    rcases hdue' with hunfin | hwake
    · exact r'.live_of_unfinished hunfin
    · exact (hinv.late_change hcoll hval hok h hslot' hwake huser).ne.1
  rcases h.due hval ⟨hslot', hdue'⟩ with ⟨r, hdue, hsame⟩ | ⟨-, hadded⟩
  · rw [hsame.2.1] at huser ⊢
    have hslot := hdue.1
    have hlive := hinv.live hdue huser
    have hwaits := hinv.waits c i r hdue huser
    by_cases hcall : r.callerPid = s.kernel.currentPid
    · rw [hcall] at huser hwaits ⊢
      obtain ⟨trip, phase, htrip, hadded, -, -⟩ := hinv.owner_current huser hslot hlive hcall
      rcases h.of_added hval huser htrip hadded with ⟨-, rfl⟩ | ⟨rfl, rfl⟩ | ⟨rfl, -⟩
      · obtain ⟨state, hstate⟩ := hval.currentState
        have hblock : (s.blockStep trip .ready).kernel.stateOf s.kernel.currentPid = _ :=
          stateOf_block hstate
        rw [hblock]
        split
        · exact .inr (.inl rfl)
        · exact .inl rfl
      · rcases hwaits with hblocked | hdead | ⟨-, trip', htrip'⟩
        · exact .inl hblocked
        · exact .inr (.inl hdead)
        · rw [htrip] at htrip'
          cases htrip'
      · exact absurd hdue (hinv.not_due hcoll huser htrip hcall)
    · have hparked : s.kernel.stateOf r.callerPid = some .blocked ∨
          s.kernel.stateOf r.callerPid = some .dead :=
        hwaits.imp_right fun h => h.resolve_right fun ⟨hcur, _⟩ => hcall hcur
      have hmove := h.stateMove hval r.callerPid
      generalize s₁.kernel.stateOf r.callerPid = after at hmove
      cases hmove with
      | same => exact hparked.imp_right Or.inl
      | own hcur => exact absurd hcur hcall
      | woken hwoken =>
        obtain ⟨hdone, hcur, htrip, hwake, o, rfl⟩ :=
          hinv.settled_of_woken hval hok hdue huser hwoken rfl
        obtain ⟨d, -, rfl⟩ := h.wakes htrip hwake
        have hled : (s.wakeStep d i r.ticket o).kernel.ledger = s.kernel.ledger :=
          sameTasks_schedulerWakeTask.ledger
        rw [hled] at hslot'
        cases hslot.symm.trans hslot'
        -- The clerk has no other caller to wake.
        rcases hdue' with hunfin | hwake'
        · exact absurd hdone (r'.not_settled_of_unfinished hunfin)
        · rw [waking_current ((h.isLocal hval).currentPid.trans hcur)] at hwake'
          cases hwake'
      | killed => rcases hparked with hstate | hstate <;> rw [hstate] <;> exact .inr (.inl rfl)
      | destroyed hreaps htarget =>
        have hterm := h.terminated_of_reaps hval hok hreaps hslot hlive htarget.symm hslot'
        exact absurd hterm hlive'
      | created hnone => rcases hparked with hstate | hstate <;> rw [hnone] at hstate <;> cases hstate
  · cases hadded with
    | @intro trip phase next o i r htrip horder hadds hres =>
      have hcall : r.callerPid = s.kernel.currentPid := hadds.caller
      simp only [hcall] at huser ⊢
      rcases horder with ⟨-, rfl, rfl⟩ | ⟨hfst, rfl, rfl⟩
      · exact .inr (.inr ⟨trivial, trip, by simp [addStep, hres]⟩)
      · have hblocked := hinv.entering huser trip .half htrip (.inl ⟨rfl, by simpa using hfst⟩)
        rcases stateOf_addStep hval huser trip .ready o with hstate | ⟨hno, -⟩
        · exact .inl (hstate.trans hblocked)
        · rw [hres] at hno
          cases hno

theorem Matched.owner_change (hlive' : r'.status ≠ .terminated) (huser : clerkCount ≤ r'.callerPid) :
    ∃ th, s₁.threadOf r'.callerPid = some th ∧ th.Owns c r'.ticket := by
  have hcpu : s₁.threadOf s.kernel.currentPid = some s₁.cpu := by
    rw [← (h.isLocal hval).currentPid, threadOf_currentPid]
  rcases h.origin hval hslot' with ⟨r, hslot, hsame, -, hpre⟩ | ⟨-, hadded⟩
  · rw [hsame.1, hsame.2.1] at *
    have hlive := hpre hlive'
    by_cases hcall : r.callerPid = s.kernel.currentPid
    · rw [hcall] at huser ⊢
      have howns := hinv.owner_current huser hslot hlive hcall
      obtain ⟨trip, phase, htrip, hadded, hclerk, hown⟩ := howns
      refine ⟨s₁.cpu, hcpu, ?_⟩
      rcases h.of_added hval huser htrip hadded with ⟨-, rfl⟩ | ⟨-, rfl⟩ | ⟨rfl, rfl⟩
      · exact ⟨trip, .ready, rfl, rfl, hclerk, hown⟩
      · exact ⟨trip, .waiting, rfl, rfl, hclerk, hown⟩
      · obtain ⟨rfl, -, hscan⟩ := hinv.collect_spec hval hcoll huser htrip hslot hlive hcall
        rcases collectStep_cases s trip with ⟨-, -, hnone⟩ | ⟨j, r₀, hscan', -, -, -, hled, -⟩
        · rw [hscan] at hnone
          cases hnone
        · cases hscan.symm.trans hscan'
          rw [hled, Ledger.setStatus, Ledger.slot_modify, if_pos ⟨rfl, rfl⟩, hslot] at hslot'
          cases hslot'
          exact absurd rfl hlive'
    · obtain ⟨th, hth, howns⟩ := hinv.owner c i r hslot hlive huser
      rcases h.thread_kept hval hcall hth with hkept | ⟨r₀, o, rfl, hreaps, htarget, -⟩
      · exact ⟨th, hkept, howns⟩
      · exact absurd (h.terminated_of_reaps hval hok hreaps hslot hlive htarget.symm hslot') hlive'
  · cases hadded with
    | @intro trip phase next o i r htrip horder hadds hres =>
      have hcall : r.callerPid = s.kernel.currentPid := hadds.caller
      simp only [hcall]
      exact ⟨_, hcpu, trip, next, by simp [addStep, hres], horder.added.2, rfl,
        by simp [addStep, hres]⟩

end

variable {c : Clerk} {i ticket : ℕ}

theorem Valid.handled (hval : s.Valid) (hwork : s.cpu.handling = some (i, ticket)) {j : ℕ}
    {r : Request} (hslot : s.kernel.ledger.slot c j = some r)
    (htick : r.ticket = ticket) : r.status = .inProgress := by
  obtain ⟨d, -, ⟨r₀, hslot₀, htick₀, hprog⟩, -⟩ := hval.holds hwork
  obtain ⟨rfl, rfl⟩ := hval.ledger.unique _ _ _ _ _ _ hslot hslot₀ (htick.trans htick₀.symm)
  rwa [Option.some.inj (hslot.symm.trans hslot₀)]

theorem Matched.produced_change (hinv : s.Matched) (hval : s.Valid)
    (h : Change s e switches s₁) {r' : Request}
    (hslot' : s₁.kernel.ledger.slot c i = some r') (hdone' : r'.status.settled)
    (huser : clerkCount ≤ r'.callerPid) : s₁.produced r'.ticket = some r' := by
  have hlive' := hdone'.ne.1
  rcases h.origin hval hslot' with ⟨r, hslot, -⟩ | ⟨-, hadded⟩
  · have hmove := h.requestMove hval hslot
    rw [hslot'] at hmove
    generalize hafter : some r' = after at hmove
    cases hmove with
    | same =>
      cases hafter
      rcases h.produced r'.ticket with hsame | ⟨-, j, hwork⟩
      · exact hsame.trans (hinv.produced c i r' hslot hdone' huser)
      · have hprog := hval.handled hwork hslot rfl
        exact absurd hprog hdone'.ne.2.1
    | fetched =>
      cases hafter
      exact absurd rfl hdone'.ne.2.1
    | settled _ _ _ _ hsame hdone =>
      cases hafter
      cases hdone with
      | answered _ _ hprod => rwa [hsame.1]
      | ended hterm => exact absurd hterm hlive'
    | collected | givenUp =>
      cases hafter
      exact absurd rfl hlive'
    | removed => cases hafter
  · cases hadded with
    | intro _ _ hadds =>
      exact absurd hadds.pending hdone'.ne.2.2

theorem Change.not_delivered (h : Change s e switches s₁)
    (hpre : ticket ∉ s.delivered)
    (hopen : ∀ c i r, s.kernel.ledger.slot c i = some r → r.ticket = ticket → ¬r.status.settled) :
    ticket ∉ s₁.delivered := by
  rcases h.delivered with hsame | ⟨trip, -, rfl⟩
  · rwa [hsame]
  · rcases collectStep_cases s trip with ⟨-, hsame, -⟩ | ⟨i, r, -, hslot, -, hdone, -, hdelivered⟩
    · rwa [hsame]
    · rw [hdelivered, List.mem_cons, not_or]
      refine ⟨?_, hpre⟩
      rintro rfl
      exact hopen _ i r hslot rfl hdone

theorem Matched.requested (hinv : s.Matched) (h : Change s e switches s₁) (hval : s.Valid)
    (hok : s.wakesSafely e = true) (huser : clerkCount ≤ pid) {th : Thread}
    (hth : s₁.threadOf pid = some th) {r : Request}
    (hslot : s.kernel.ledger.slot c i = some r) (hlive : r.status ≠ .terminated)
    (hcall : r.callerPid = pid)
    (hopen : ∀ trip, s.cpu.trip = some (trip, .waiting) → pid ≠ s.kernel.currentPid) :
    s₁.Kept c r.ticket pid := by
  have hmove := h.requestMove hval hslot
  generalize hslot' : s₁.kernel.ledger.slot c i = after at hmove
  cases hmove with
  | same => exact .inl ⟨i, r, hslot', rfl, hcall, hlive⟩
  | fetched => exact .inl ⟨i, _, hslot', rfl, hcall, by simp⟩
  | @settled _ r' _ _ hcur hprog _ hsame hdone =>
    cases hdone with
    | answered hstat =>
      refine .inl ⟨i, r', hslot', hsame.1, hsame.2.1.trans hcall, ?_⟩
      rcases hstat with hstat | hstat <;> simp [hstat]
    | @ended r'' hterm _ hself hprod hend =>
      refine .inr ⟨?_, ?_, r'', hprod, hend.resolve_right fun hgone => ?_⟩
      · rw [← hsame.1]
        exact (hval.change h).ledger.finished hslot' hterm
      · refine h.not_delivered (fun hmem => ?_) fun d j r₀ hslot₀ htick₀ hstat => ?_
        · exact hlive ((hinv.delivered.2 _ hmem).2 _ _ _ hslot rfl)
        · obtain ⟨rfl, rfl⟩ := hval.ledger.unique _ _ _ _ _ _ hslot₀ hslot htick₀
          cases hslot₀.symm.trans hslot
          exact (Status.settled.ne hstat).2.1 hprog
      · have hne : pid ≠ s₁.kernel.currentPid := by
          have := c.pid_lt
          rw [(h.isLocal hval).currentPid]
          omega
        rw [← hself, hcall] at hgone
        unfold threadOf at hth
        rw [if_neg hne, Option.map_eq_none_iff.mp hgone] at hth
        cases hth
  | collected htrip _ _ hcur => exact absurd (hcall.symm.trans hcur) (hopen _ htrip)
  | givenUp => cases hok
  | removed hterm => exact absurd hterm hlive

theorem Change.failed (h : Change s e switches s₁) (hval : s.Valid) {ticket : ℕ}
    (hfailed : s.Failed ticket) : s₁.Failed ticket := by
  obtain ⟨hfin, hdelivered, r, hprod, hstat⟩ := hfailed
  refine ⟨h.finishedTicket hval hfin, ?_, r, ?_, hstat⟩
  · refine h.not_delivered hdelivered fun c i r hslot htick hdone => ?_
    have hterm := hfin.2 c i r hslot htick
    exact hdone.ne.1 hterm
  rcases h.produced ticket with hsame | ⟨-, i, hwork⟩
  · exact hsame.trans hprod
  · obtain ⟨c, -, ⟨r₀, hslot₀, htick₀, hprog⟩, -⟩ := hval.holds hwork
    have hterm := hfin.2 c i r₀ hslot₀ htick₀
    rw [hprog] at hterm
    cases hterm

theorem requested_addStep (hval : s.Valid) {trip : RoundTrip} {next : Phase} {o : Outside}
    (hclerk : trip.call.clerk = c)
    (hown : (s.addStep trip next o).cpu.own = some ticket) :
    ∃ i r, (s.addStep trip next o).kernel.ledger.slot c i = some r ∧ r.ticket = ticket ∧
      r.callerPid = s.kernel.currentPid ∧ r.status ≠ .terminated := by
  obtain ⟨res, hout, hker, hres⟩ := addStep_outcome hval trip next o
  rw [hker]
  simp only [addStep, hres] at hown
  cases hout with
  | @accepted i r _ _ hadds =>
    cases hown
    refine ⟨i, { r with ticket := s.kernel.ledger.nextTicket }, ?_, rfl, hadds.caller, ?_⟩
    · rw [sameTasks_wakeClerk.ledger, Ledger.slot_put, if_pos ⟨hclerk.symm, rfl⟩]
    · simp [hadds.pending]
  | woken | refused => cases hown

end Taavi.Sys
