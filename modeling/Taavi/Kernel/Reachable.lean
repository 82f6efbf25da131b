import Taavi.Kernel.Incarnations

/-!
# Every reachable state is valid

The changes of the request tables are steps of the ledger, and the request that a clerk handles is
touched by that clerk alone.
-/

namespace Taavi

open Lib

section

variable {l : Ledger} {c : Clerk} {i : ℕ} {r : Request}

theorem Ledger.modify_congr {f g : Request → Request} (hslot : l.slot c i = some r)
    (h : f r = g r) : l.modify c i f = l.modify c i g := by
  unfold Ledger.modify
  rw [hslot, Option.map_some, Option.map_some, h]

theorem ledgerStep_reap (ok : Bool) (hslot : l.slot .reaper i = some r)
    (hstat : r.status = .inProgress) (hlast : l.last .reaper = some i) :
    ∃ kind, kind ≠ .accept ∧ LedgerStep l kind (l.setStatus .reaper i (reapedStatus r ok)) := by
  unfold reapedStatus
  split
  · exact ⟨.giveUp, by decide, .giveUp hlast hslot⟩
  · refine ⟨.settle, by decide, ?_⟩
    have hsettle : l.setStatus .reaper i (if ok then .complete else .failed) =
        l.modify .reaper i fun r' => r'.settle ⟨ok, r.structKey, r.buf, r.bufferSize⟩ :=
      Ledger.modify_congr hslot rfl
    rw [hsettle]
    exact .settle hslot hstat

end

namespace Sys

variable {s s₁ s' : Sys} {e : Event} {switches : Bool}

section

variable (hval : s.Valid) (htasks : Local s s₁ ∧ TaskMove s e s₁.kernel)
include hval htasks

theorem Valid.identity_cases (pid : ℕ) : s₁.kernel.identity pid = s.kernel.identity pid ∨
    clerkCount ≤ pid ∧ pid ≠ s.kernel.currentPid ∧
      ∀ serial mode, s₁.kernel.identity pid = some (serial, mode) → mode = .userTask := by
  cases htasks.2 with
  | kept hkeeps => exact .inl (hkeeps.identity pid id)
  | @destroyed r o _ hreaps hkeeps hnone =>
    by_cases hpid : pid = r.targetPid
    · obtain ⟨i, ticket, -, -, hcur, hslot, -⟩ := hval.reaps hreaps
      obtain ⟨htarget, -⟩ := (hval.sane .reaper i r hslot).2 rfl
      have hreaper := Clerk.reaper.pid_lt
      refine .inr ⟨hpid ▸ htarget, by omega, fun serial mode h => ?_⟩
      rw [hpid, hnone] at h
      cases h
    · exact .inl (hkeeps.identity pid hpid)
  | @created slot o _ hbound hempty hkeeps hnew =>
    by_cases hpid : pid = slot
    · have hnot : (s.kernel.taskTable pid).isSome ≠ true := by
        rw [← Kernel.isSome_identity, hpid, hempty]
        exact Bool.false_ne_true
      refine .inr ⟨Nat.le_of_not_lt fun hlt => hnot (hval.clerks pid hlt), ?_, ?_⟩
      · rintro rfl
        exact hnot hval.present
      · intro serial mode h
        rw [hpid, hnew] at h
        exact (Prod.mk.inj (Option.some.inj h)).2.symm
    · exact .inl (hkeeps.identity pid hpid)

theorem Valid.of_tasks (hled : s₁.kernel.ledger.Valid) (hsane : s₁.kernel.ledger.Sane)
    (hallow : s₁.cpu.Allowed s.kernel.currentPid)
    (hothers : ∀ (c : Clerk) i ticket, c.pid ≠ s.kernel.currentPid →
      s.kernel.ledger.Holds c i ticket → s₁.kernel.ledger.Holds c i ticket)
    (hown : ∀ i ticket, s₁.cpu.handling = some (i, ticket) →
      ∃ c : Clerk, s.kernel.currentPid = c.pid ∧ s₁.kernel.ledger.Holds c i ticket) : s₁.Valid := by
  have hlocal := htasks.1
  have hcases := hval.identity_cases htasks
  have hkept : ∀ pid, pid < clerkCount ∨ pid = s.kernel.currentPid →
      (s₁.kernel.taskTable pid).isSome = (s.kernel.taskTable pid).isSome := by
    intro pid hpid
    rcases hcases pid with heq | ⟨huser, hother, -⟩
    · rw [← Kernel.isSome_identity, heq, Kernel.isSome_identity]
    · exact absurd hpid (by omega)
  refine ⟨hled, hsane, by rw [hlocal.currentPid]; exact hval.current, ?_,
    fun pid hpid => (hkept pid (.inl hpid)).trans (hval.clerks pid hpid),
    fun pid serial mode h => ?_, fun pid th hth => ?_, fun pid th i ticket hth hwork => ?_⟩
  · rw [hlocal.currentPid]
    exact (hkept _ (.inr rfl)).trans hval.present
  · rcases hcases pid with heq | ⟨huser, -, hmode⟩
    · exact hval.modes pid serial mode (by rw [← heq]; exact h)
    · simp [hmode serial mode h, huser]
  · rcases hlocal.threads hth with ⟨rfl, rfl⟩ | ⟨-, hold⟩
    · exact hallow
    · exact hval.allowed pid th hold
  · rcases hlocal.threads hth with ⟨rfl, rfl⟩ | ⟨hpid, hold⟩
    · exact hown i ticket hwork
    · obtain ⟨c, rfl, hholds⟩ := hval.handling pid th i ticket hold hwork
      exact ⟨c, rfl, hothers c i ticket hpid hholds⟩

theorem Valid.of_quiet (hled : s₁.kernel.ledger = s.kernel.ledger)
    (hallow : s₁.cpu.Allowed s.kernel.currentPid)
    (hwork : s₁.cpu.handling = s.cpu.handling) : s₁.Valid := by
  refine hval.of_tasks htasks (by rw [hled]; exact hval.ledger)
    (by rw [hled]; exact hval.sane) hallow (fun c i ticket _ h => by rwa [hled])
    fun i ticket h => ?_
  rw [hled]
  exact hval.holds (hwork ▸ h)

theorem Valid.of_step {kind : StepKind} (hstep : LedgerStep s.kernel.ledger kind s₁.kernel.ledger)
    (hkind : kind ≠ .accept) (hallow : s₁.cpu.Allowed s.kernel.currentPid)
    (hothers : ∀ (c : Clerk) i ticket, c.pid ≠ s.kernel.currentPid →
      s.kernel.ledger.Holds c i ticket → s₁.kernel.ledger.Holds c i ticket)
    (hown : ∀ i ticket, s₁.cpu.handling = some (i, ticket) →
      ∃ c : Clerk, s.kernel.currentPid = c.pid ∧ s₁.kernel.ledger.Holds c i ticket) : s₁.Valid :=
  hval.of_tasks htasks (hstep.valid hval.ledger) (hstep.sane hkind hval.sane) hallow hothers
    hown

end

variable {o : Outside} {c : Clerk} {es : List Event} {trip : RoundTrip} {i ticket : ℕ}
  {ok : Sys → Event → Prop}

section

variable (hval : s.Valid)

include hval

theorem Valid.addStep {phase next : Phase}
    (htrip : s.cpu.trip = some (trip, phase))
    (htasks : Local s (s.addStep trip next o) ∧ TaskMove s e (s.addStep trip next o).kernel) :
    (s.addStep trip next o).Valid := by
  have hallowedTrip := hval.cpu.trip trip phase htrip
  have hallow : (s.addStep trip next o).cpu.Allowed s.kernel.currentPid := by
    refine ⟨hval.cpu.code, fun trip' phase' h => ?_⟩
    simp only [Sys.addStep] at h
    split at h
    · cases h
    · obtain ⟨rfl, -⟩ := Prod.mk.inj (Option.some.inj h)
      exact hallowedTrip
  obtain ⟨res, hout, hker, -⟩ := addStep_outcome hval trip next o
  cases hout with
  | @accepted i r hi hempty hadds =>
    have hled : (s.addStep trip next o).kernel.ledger =
        s.kernel.ledger.put trip.call.clerk i r := by
      rw [hker]
      exact sameTasks_wakeClerk.ledger
    refine hval.of_tasks htasks ?_ ?_ hallow (fun c j ticket _ h => ?_) fun j ticket h => ?_
    · rw [hled]
      exact (LedgerStep.put hi hempty hadds.pending).valid hval.ledger
    · rw [hled]
      intro c j r' hslot
      rw [Ledger.slot_put] at hslot
      split at hslot
      · rename_i hhere
        cases hslot
        refine ⟨hadds.caller.symm ▸ hval.current, fun hreaper => ?_⟩
        cases hcall : trip.call with
        | free clerk targetPid aim =>
          have hclerk : clerk = .reaper := by
            rw [← hreaper, hhere.1, hcall]
            rfl
          subst hclerk
          have htarget : r.targetPid = targetPid := hadds.target _ _ _ hcall
          show clerkCount ≤ r.targetPid ∧ r.targetPid < maxTasks
          rw [htarget]
          exact hallowedTrip.reaper targetPid aim hcall
        | _ =>
          rw [hreaper, hcall] at hhere
          exact absurd hhere.1 (by simp [AddCall.clerk])
      · exact hval.sane c j r' hslot
    · rw [hled]
      exact h.put hempty
    · have hwork : s.cpu.handling = some (j, ticket) := h
      obtain ⟨c, hcur, hholds⟩ := hval.holds hwork
      exact ⟨c, hcur, by rw [hled]; exact hholds.put hempty⟩
  | woken =>
    exact hval.of_quiet htasks (by rw [hker]; exact sameTasks_schedulerWakeTask.ledger) hallow
      rfl
  | refused => exact hval.of_quiet htasks (by rw [hker]) hallow rfl

theorem Valid.collectStep
    (htasks : Local s (s.collectStep trip) ∧ TaskMove s e (s.collectStep trip).kernel) :
    (s.collectStep trip).Valid := by
  have hallow : (s.collectStep trip).cpu.Allowed s.kernel.currentPid :=
    ⟨hval.cpu.code, fun _ _ h => by cases h⟩
  rcases ledgerCollect_cases s.kernel.ledger s.kernel.currentPid trip.call.clerk trip.out with
    ⟨heq, -⟩ | ⟨i, r, -, hslot, -, hdone, heq⟩
  · exact hval.of_quiet htasks (by simp [Sys.collectStep, heq]) hallow rfl
  · have hled : (s.collectStep trip).kernel.ledger =
        s.kernel.ledger.setStatus trip.call.clerk i .terminated := by simp [Sys.collectStep, heq]
    have hstep := LedgerStep.collect hslot hdone
    rw [← hled] at hstep
    have hnot : ∀ r', s.kernel.ledger.slot trip.call.clerk i = some r' →
        r'.status ≠ .inProgress := by
      intro r' h' hstat
      cases hslot.symm.trans h'
      exact hdone.ne.2.1 hstat
    refine hval.of_step htasks hstep (by decide) hallow (fun c j ticket _ h => ?_)
      fun j ticket h => ?_
    · rw [hled]
      exact h.modify fun _ => hnot
    · have hwork : s.cpu.handling = some (j, ticket) := h
      obtain ⟨c, hcur, hholds⟩ := hval.holds hwork
      exact ⟨c, hcur, by rw [hled]; exact hholds.modify fun _ => hnot⟩

theorem Valid.handleStep
    (htrip : s.cpu.trip = none) (hwork : s.cpu.handling = some (i, ticket))
    (hcur : s.kernel.currentPid = c.pid) (htasks : Local s (s.handleStep c i ticket o) ∧
      TaskMove s e (s.handleStep c i ticket o).kernel) : (s.handleStep c i ticket o).Valid := by
  obtain ⟨⟨r, hslot, -, hstat⟩, -⟩ := hval.holds_current hwork hcur
  have hsame := sameTasks_handleRequest o.reply hslot
  have hled : (s.handleStep c i ticket o).kernel.ledger = _ := hsame.ledger
  have hstep : LedgerStep s.kernel.ledger .settle (s.handleStep c i ticket o).kernel.ledger := by
    rw [hled]
    exact .settle hslot hstat
  refine hval.of_step htasks hstep (by decide) ⟨hval.cpu.code, fun _ _ h => ?_⟩
    (fun c' j ticket' hc' h => ?_) fun _ _ h => by cases h
  · rw [show (s.handleStep c i ticket o).cpu.trip = s.cpu.trip from rfl, htrip] at h
    cases h
  · rw [hled]
    refine h.modify fun hdd => ?_
    subst hdd
    exact absurd hcur.symm hc'

theorem Valid.reapStep {r : Request}
    (htrip : s.cpu.trip = none) (hwork : s.cpu.handling = some (i, ticket))
    (hcur : s.kernel.currentPid = Clerk.reaper.pid)
    (hslot : s.kernel.ledger.slot .reaper i = some r)
    (htasks : Local s (s.reapStep i ticket r o) ∧ TaskMove s e (s.reapStep i ticket r o).kernel) :
    (s.reapStep i ticket r o).Valid := by
  obtain ⟨⟨r', hslot', -, hstat⟩, hlast⟩ := hval.holds_current hwork hcur
  obtain rfl := Option.some.inj (hslot'.symm.trans hslot)
  have hled : (s.reapStep i ticket r' o).kernel.ledger = s.kernel.ledger.setStatus .reaper i
      (reapedStatus r' (reaperKillTask s.kernel r'.targetPid o.freed).2) :=
    congrArg Kernel.ledger (reapRequest_spec s.kernel i r' o.freed)
  obtain ⟨kind, hkind, hstep⟩ :=
    ledgerStep_reap (reaperKillTask s.kernel r'.targetPid o.freed).2 hslot hstat hlast
  rw [← hled] at hstep
  refine hval.of_step htasks hstep hkind ⟨fun stmt hstmt => ?_, fun _ _ h => ?_⟩
    (fun c' j ticket' hc' h => ?_) fun _ _ h => by cases h
  · simp only [Sys.reapStep] at hstmt
    split at hstmt
    · rw [hcur]
      exact (Thread.allowed_entry Clerk.reaper.pid).code stmt hstmt
    · exact hval.cpu.code stmt hstmt
  · rw [show (s.reapStep i ticket r' o).cpu.trip = s.cpu.trip from rfl, htrip] at h
    cases h
  · rw [hled]
    refine h.modify fun hdd => ?_
    subst hdd
    exact absurd hcur.symm hc'

theorem Valid.fetchStep {rest : List Stmt}
    (hat : s.AtStmt (.fetch c) rest)
    (htasks : Local s (s.fetchStep c rest) ∧ TaskMove s e (s.fetchStep c rest).kernel) :
    (s.fetchStep c rest).Valid := by
  have hcur : s.kernel.currentPid = c.pid := hval.stmt hat
  have hallow : (s.fetchStep c rest).cpu.Allowed s.kernel.currentPid :=
    ⟨hval.rest hat, hval.cpu.trip⟩
  have hclerk : ∀ {d : Clerk}, d.pid ≠ s.kernel.currentPid → d ≠ c := by
    rintro d hd rfl
    exact hd hcur.symm
  rcases ledgerFetchNextReq_cases hval.ledger c with ⟨heq, -⟩ | ⟨i, r, heq, hslot, hstat⟩ |
    ⟨i, r, heq, hslot, hstat, hother⟩
  · refine hval.of_quiet htasks (by simp [Sys.fetchStep, heq]) hallow ?_
    rw [hat.handling]
    simp [Sys.fetchStep, heq]
  · have hstep := LedgerStep.refetch hslot hstat
    have hled : (s.fetchStep c rest).kernel.ledger = s.kernel.ledger.setLast c i := by
      simp [Sys.fetchStep, heq]
    rw [← hled] at hstep
    refine hval.of_step htasks hstep (by decide) hallow
      (fun d j ticket hd h => by rw [hled]; exact h.setLast (hclerk hd)) fun j ticket h => ?_
    obtain ⟨rfl, rfl⟩ : i = j ∧ r.ticket = ticket := by simpa [Sys.fetchStep, heq, hslot] using h
    refine ⟨c, hcur, ?_⟩
    rw [hled]
    exact ⟨⟨r, by simpa using hslot, rfl, hstat⟩, by rw [Ledger.last_setLast, if_pos rfl]⟩
  · have hstep := LedgerStep.fetch hslot hstat hother
    have hled : (s.fetchStep c rest).kernel.ledger =
        (s.kernel.ledger.setLast c i).setStatus c i .inProgress := by simp [Sys.fetchStep, heq]
    rw [← hled] at hstep
    refine hval.of_step htasks hstep (by decide) hallow (fun d j ticket hd h => ?_)
      fun j ticket h => ?_
    · rw [hled]
      exact (h.setLast (hclerk hd)).modify fun hdc => absurd hdc (hclerk hd)
    · obtain ⟨rfl, rfl⟩ : i = j ∧ r.ticket = ticket := by
        simpa [Sys.fetchStep, heq, hslot, Ledger.slot_setStatus] using h
      refine ⟨c, hcur, ?_⟩
      rw [hled]
      refine ⟨⟨{ r with status := .inProgress }, ?_, rfl, rfl⟩, ?_⟩
      · simp [Ledger.slot_setStatus, hslot]
      · rw [Ledger.last_setStatus, Ledger.last_setLast, if_pos rfl]

theorem Valid.recover (hcur : s.kernel.currentPid = c.pid)
    (htasks : Local s (s.recover c) ∧ TaskMove s e (s.recover c).kernel) : (s.recover c).Valid := by
  obtain ⟨l, hsame, hl⟩ := recover_spec s c
  have hled : (s.recover c).kernel.ledger = l := hsame.ledger
  have hallow : (s.recover c).cpu.Allowed s.kernel.currentPid := by
    rw [hcur]
    exact Thread.allowed_entry c.pid
  have hidle : ∀ i ticket, (s.recover c).cpu.handling ≠ some (i, ticket) := fun _ _ h => by cases h
  rcases hl with rfl | ⟨i, r, hlast, hslot, rfl⟩
  · exact hval.of_tasks htasks (by rw [hled]; exact hval.ledger)
      (by rw [hled]; exact hval.sane) hallow (fun _ _ _ _ h => by rwa [hled])
      fun i ticket h => absurd h (hidle i ticket)
  · have hstep := LedgerStep.giveUp hlast hslot
    rw [← hled] at hstep
    refine hval.of_step htasks hstep (by decide) hallow (fun d j ticket hd h => ?_)
      fun i ticket h => absurd h (hidle i ticket)
    rw [hled]
    refine h.modify fun hdc => ?_
    subst hdc
    exact absurd hcur.symm hd

theorem Valid.change (h : Change s e switches s₁) : s₁.Valid := by
  have htasks := h.tasks hval
  cases h with
  | @block trip phase next o htrip horder =>
    refine hval.of_quiet htasks sameTasks_block.ledger
      ⟨hval.cpu.code, fun trip' phase' h => ?_⟩ rfl
    obtain ⟨rfl, -⟩ := Prod.mk.inj (Option.some.inj h)
    exact hval.cpu.trip trip phase htrip
  | add htrip horder => exact hval.addStep htrip htasks
  | @leave trip o htrip =>
    refine hval.of_quiet htasks rfl ⟨hval.cpu.code, fun trip' phase' h => ?_⟩ rfl
    obtain ⟨rfl, -⟩ := Prod.mk.inj (Option.some.inj h)
    exact hval.cpu.trip trip _ htrip
  | collect htrip => exact hval.collectStep htasks
  | handle htrip hwork hcur hreaper => exact hval.handleStep htrip hwork hcur htasks
  | reap htrip hwork hcur hslot => exact hval.reapStep htrip hwork hcur hslot htasks
  | wake =>
    exact hval.of_quiet htasks sameTasks_schedulerWakeTask.ledger
      ⟨hval.cpu.code, hval.cpu.trip⟩ rfl
  | @enter trip rest o hat =>
    refine hval.of_quiet htasks rfl ⟨hval.rest hat, fun trip' phase' h => ?_⟩ rfl
    obtain ⟨rfl, -⟩ := Prod.mk.inj (Option.some.inj h)
    exact (hval.stmt hat).2
  | setBlocked hat | setDead hat =>
    exact hval.of_quiet htasks sameTasks_schedulerSetTaskState.ledger (hval.allowed_rest hat) rfl
  | yield hat | kill hat | sleep hat | unstart hat =>
    exact hval.of_quiet htasks rfl (hval.allowed_rest hat) rfl
  | @keyboard stmt rest code kbd o hat hcode =>
    refine hval.of_quiet htasks rfl ⟨fun stmt' hstmt => ?_, hval.cpu.trip⟩ rfl
    rcases hcode with rfl | ⟨rfl, rfl⟩
    · exact hval.rest hat stmt' hstmt
    · have huser : clerkCount ≤ s.kernel.currentPid := hval.stmt hat
      simp only [become, List.mem_cons] at hstmt
      rcases hstmt with rfl | rfl | rfl | hstmt
      · exact huser
      · exact trivial
      · exact huser
      · exact hval.rest hat stmt' hstmt
  | exec hat hk =>
    rcases hk with rfl | hcreate
    · exact hval.of_quiet htasks rfl (hval.allowed_rest hat) rfl
    · obtain ⟨slot, -, -, rfl⟩ := createUserTask_spec hcreate
      exact hval.of_quiet htasks rfl (hval.allowed_rest hat) rfl
  | changeFocus hat =>
    exact hval.of_quiet htasks (sameTasks_changeKeyboardFocus ..).ledger (hval.allowed_rest hat)
      rfl
  | fetch hat => exact hval.fetchStep hat htasks
  | sweep hat hl =>
    rcases hl with rfl | rfl
    · exact hval.of_quiet htasks rfl (hval.allowed_rest hat) rfl
    · refine hval.of_step htasks .remove (by decide) (hval.allowed_rest hat)
        (fun d j ticket _ h => h.remove) fun j ticket h => ?_
      exact absurd (hat.handling.symm.trans h) (Option.some_ne_none _).symm
  | @syscall call huser =>
    obtain ⟨hpid, -⟩ := hval.user_of_callsFromUser huser
    exact hval.of_quiet htasks rfl ⟨call.allowed hpid hval.current, hval.cpu.trip⟩ rfl
  | @docCall call hdoc =>
    have hcur : s.kernel.currentPid = Clerk.doc.pid := (of_decide_eq_true hdoc).1
    refine hval.of_quiet htasks rfl ⟨hval.cpu.code, fun trip' phase' h => ?_⟩ rfl
    obtain ⟨rfl, -⟩ := Prod.mk.inj (Option.some.inj h)
    rw [hcur]
    exact call.allowed
  | tick => exact hval
  | key => exact hval.of_quiet htasks (sameTasks_key s _).ledger hval.cpu rfl
  | fault hcur _ => exact hval.recover hcur htasks

theorem Valid.switched (h : Switched s s') : s'.Valid := by
  have hpick := h.picked
  have hsome : ∀ pid, (s'.kernel.taskTable pid).isSome = (s.kernel.taskTable pid).isSome := by
    intro pid
    rw [← Kernel.isSome_identity, hpick.identity, Kernel.isSome_identity]
  refine ⟨by rw [hpick.ledger]; exact hval.ledger, by rw [hpick.ledger]; exact hval.sane,
    hpick.bound, ?_, fun pid hpid => (hsome pid).trans (hval.clerks pid hpid),
    fun pid serial mode hmode => hval.modes pid serial mode (by rw [← hpick.identity]; exact hmode),
    fun pid th hth => ?_, fun pid th i ticket hth hwork => ?_⟩
  · rw [← Kernel.isSome_stateOf, hpick.running]
    rfl
  · rcases h.threads pid th hth with ⟨hold, -⟩ | ⟨rfl, -, -⟩
    · exact hval.allowed pid th hold
    · exact Thread.allowed_entry pid
  · rcases h.threads pid th hth with ⟨hold, -⟩ | ⟨rfl, -, -⟩
    · rw [hpick.ledger]
      exact hval.handling pid th i ticket hold hwork
    · cases hwork

end

def Step (s : Sys) (e : Event) (s' : Sys) : Prop := s.step e = some s'

theorem invariant_of_moves (Inv : Sys → Prop)
    (hchange : ∀ s e s₁, s.Valid → Inv s → ok s e → Change s e false s₁ → Inv s₁)
    (hswitch : ∀ s e s₁ s', s.Valid → Inv s → ok s e → Change s e true s₁ → s₁.Valid →
      Switched s₁ s' → Inv s') (hrun : Run (Guarded ok Step) s es s')
    (hval : s.Valid) (hinv : Inv s) : s'.Valid ∧ Inv s' := by
  have hstep : ∀ s e s', (s.Valid ∧ Inv s) → Guarded ok Step s e s' → s'.Valid ∧ Inv s' := by
    rintro s e s' ⟨hval, hinv⟩ ⟨hok, hstep⟩
    rcases changed_of_step hstep with hch | ⟨s₁, hch, hsw⟩
    · exact ⟨hval.change hch, hchange s e s' hval hinv hok hch⟩
    · have hval₁ := hval.change hch
      exact ⟨hval₁.switched hsw, hswitch s e s₁ s' hval hinv hok hch hval₁ hsw⟩
  exact hrun.invariant hstep ⟨hval, hinv⟩

theorem invariant_of_changes (Inv : Sys → Prop)
    (hchange : ∀ s e switches s₁, s.Valid → Inv s → ok s e → Change s e switches s₁ → Inv s₁)
    (hswitch : ∀ s e s₁ s', s.Valid → ok s e → Change s e true s₁ → s₁.Valid → Inv s₁ →
      Switched s₁ s' → Inv s') (hrun : Run (Guarded ok Step) s es s')
    (hval : s.Valid) (hinv : Inv s) : s'.Valid ∧ Inv s' :=
  invariant_of_moves Inv (fun s e s₁ hval hinv hok h => hchange s e _ s₁ hval hinv hok h)
    (fun s e s₁ s' hval hinv hok h hval₁ hsw =>
      hswitch s e s₁ s' hval hok h hval₁ (hchange s e _ s₁ hval hinv hok h) hsw)
    hrun hval hinv

theorem valid_of_run (hrun : Run Step boot es s) : s.Valid :=
  (invariant_of_changes (fun _ => True) (fun _ _ _ _ _ _ _ _ => trivial)
    (fun _ _ _ _ _ _ _ _ _ _ => trivial) hrun.guarded valid_boot trivial).1

/-- No run removes a clerk or makes another task of the kernel. There is always a current task, and
the reaper is only asked for user tasks. -/
theorem clerks_survive (hrun : Run Step boot es s) :
    (∀ pid < clerkCount, (s.kernel.taskTable pid).isSome) ∧
      (∀ pid t, s.kernel.taskTable pid = some t → (t.taskMode = .kernelTask ↔ pid < clerkCount)) ∧
      (schedulerGetCurrentTask s.kernel).isSome ∧
      ∀ i r, s.kernel.ledger.slot .reaper i = some r →
        clerkCount ≤ r.targetPid ∧ r.targetPid < maxTasks := by
  have hval := valid_of_run hrun
  refine ⟨hval.clerks, fun pid t htask => ?_, hval.present, fun i r hslot => ?_⟩
  · exact hval.modes pid t.serial t.taskMode (by simp [Kernel.identity, htask])
  · exact (hval.sane .reaper i r hslot).2 rfl

/-- A task is made and killed. -/
theorem clerks_survive_kill : ∃ es s, Run Step boot es s ∧ s.kernel.stateOf 6 = some .dead ∧
    ∀ pid < clerkCount, (s.kernel.taskTable pid).isSome := by
  have hexec : (exec Sys.step boot
      [.syscall .exec, .act .smooth, .syscall (.kill 6), .act .smooth]).any
      (fun s => s.kernel.stateOf 6 = some .dead) = true := by decide +kernel
  obtain ⟨s, hrun, hs⟩ := exists_run_of_exec hexec
  exact ⟨_, s, hrun, of_decide_eq_true hs, (clerks_survive hrun).1⟩

end Sys

end Taavi
